import TcpAndParallel.Credits
import TcpAndParallel.ThreadPoolJobs

namespace TcpAndParallel

namespace ThreadPool

variable {τ : Type*} [DecidableEq τ]

/-- What a thread that holds `pool_mutex` has found out. -/
def knows (d : Pool τ) : Pc → Prop
  | .worker p => match p with
    | .wait | .timedwait => d.head = none ∧ d.poolDestroy = false
    | .notify | .jobNotify _ => d.head = none ∧ d.active = []
    | _ => True
  | .client p => match p with
    | .wait => d.poolWait = true ∧ (d.head ≠ none ∨ d.active ≠ [])
    | .waitUnlock => d.head = none ∧ d.active = []
    | .activeWait => d.poolWait = true ∧ d.active ≠ []
    | _ => True

structure SamePool (d d' : Pool τ) : Prop where
  head : d'.head = d.head
  active : d'.active = d.active
  poolWait : d'.poolWait = d.poolWait
  poolDestroy : d'.poolDestroy = d.poolDestroy

section Knowledge

variable {lim : Limits} {t : τ} {p q : Pc} {d d' : Pool τ}

omit [DecidableEq τ] in
theorem knows_of_outside (h : critical p = false) : knows d p := by
  rcases p with p | p <;> cases p <;> simp [critical] at h <;> trivial

theorem knows_of_next (h : (code lim p : Op τ).next? = some q) : knows d q := by
  rcases p with p | p <;> cases p <;> simp [Instr.next?, act] at h <;> subst h <;> try trivial
  next exits => cases exits <;> trivial

theorem knows_of_effect (h : Effect lim t d p q d') : knows d' q := by
  cases h with
  | sleep head alive => exact ⟨head, alive⟩
  | doze head alive => exact ⟨head, alive⟩
  | loopNotify quiet => exact quiet
  | jobNotify _ quiet => exact quiet
  | more work => exact ⟨rfl, work⟩
  | finished quiet => exact quiet
  | active work => exact ⟨rfl, work⟩
  | jobOver exits => cases exits <;> trivial
  | goes hp => rcases hp with rfl | rfl | rfl <;> trivial
  | _ => trivial

omit [DecidableEq τ] in
theorem SamePool.knows (h : SamePool d d') (hk : knows d p) : knows d' p := by
  have same : ThreadPool.knows d' p = ThreadPool.knows d p := by
    simp only [ThreadPool.knows, h.head, h.active, h.poolWait, h.poolDestroy]
  rwa [same]

theorem samePool_of_effect (h : Effect lim t d p q d') (hp : critical p = false)
    (hfree : p ≠ .client .free) : SamePool d d' := by
  cases h with
  | born | run | newJob | goes => exact ⟨rfl, rfl, rfl, rfl⟩
  | free => exact absurd rfl hfree
  | expire hq => rcases hq with rfl | rfl <;> simp [critical] at hp
  | _ => simp [critical] at hp

end Knowledge

def Knowing (s : State τ) : Prop := ∀ t, knows s.data (s.pc t)

theorem Knowing.run {lim : Limits} {s s' : State τ} {t : τ} {c : Choice τ} {woken : Finset τ}
    (hs : Knowing s) (hg : Guarded () critical (fun _ => True) s)
    (h : s.step (code lim) (.run t c woken) = some s') (hfree : s.pc t ≠ .client .free) :
    Knowing s' := by
  obtain ⟨next, hpc, hdo⟩ := step_effect h
  intro u
  by_cases hu : u = t
  · rw [hpc, hu, Function.update_self]
    rcases hdo with ⟨hn, -⟩ | he
    · exact knows_of_next hn
    · exact knows_of_effect he
  · rw [pc_of_ne h hu]
    rcases hdo with ⟨-, hd⟩ | he
    · rw [hd]
      exact hs u
    · cases hcritical : critical (s.pc u) with
      | false => exact knows_of_outside hcritical
      | true =>
        have hout : critical (s.pc t) = false := by
          by_contra hno
          rw [Bool.not_eq_false] at hno
          exact hu (alone hg hcritical hno)
        exact (samePool_of_effect he hout hfree).knows (hs u)

/-- The points of `thr_pool_destroy` behind the one where the pool is marked. -/
def ending : Pc → Bool
  | .client p => (p matches .broadcast | .active | .activeWait | .activeWake | .nthreads | .busyWait |
      .busyWake | .destroyUnlock | .free | .gone)
  | .worker _ => false

/-- Nobody has begun to destroy the pool. -/
structure Alive (s : State τ) : Prop where
  poolDestroy : s.data.poolDestroy = false
  freed : s.data.freed = false
  nobody : ∀ t, ending (s.pc t) = false

/-- The step does not mark the pool as being destroyed. -/
def Undestroyed (s : State τ) : Step τ → Prop
  | .run t _ _ => s.pc t ≠ .client .mark
  | .spurious _ _ => True

instance (s : State τ) (e : Step τ) : Decidable (Undestroyed s e) :=
  match e with
  | .run t _ _ => inferInstanceAs (Decidable (s.pc t ≠ .client .mark))
  | .spurious _ _ => inferInstanceAs (Decidable True)

section Alive

variable {lim : Limits} {t : τ} {p q : Pc} {d d' : Pool τ} {s s' : State τ} {c : Choice τ}
  {woken : Finset τ}

theorem ending_of_next (h : (code lim p : Op τ).next? = some q) : ending q = ending p := by
  rcases p with p | p <;> cases p <;> simp [Instr.next?, act] at h <;> subst h <;>
    simp [ending]
  next exits => cases exits <;> rfl

omit [DecidableEq τ] in
@[simp] theorem queueJob_flags (t : τ) (d : Pool τ) :
    (queueJob t d).poolWait = d.poolWait ∧ (queueJob t d).poolDestroy = d.poolDestroy ∧
      (queueJob t d).freed = d.freed := by
  unfold queueJob
  split <;> exact ⟨rfl, rfl, rfl⟩

theorem alive_of_effect (h : Effect lim t d p q d') (hmark : p ≠ .client .mark)
    (hp : ending p = false) :
    d'.poolDestroy = d.poolDestroy ∧ d'.freed = d.freed ∧ ending q = false := by
  cases h with
  | mark => exact absurd rfl hmark
  | free => simp [ending] at hp
  | signal | queue | grow => simp [ending]
  | jobOver exits => cases exits <;> exact ⟨rfl, rfl, rfl⟩
  | goes hq => rcases hq with rfl | rfl | rfl <;> exact ⟨rfl, rfl, rfl⟩
  | expire hq => exact ⟨rfl, rfl, rfl⟩
  | active | inactive | busy | deserted => simp [ending] at hp
  | _ => exact ⟨rfl, rfl, rfl⟩

theorem Alive.run (hs : Alive s) (hmark : s.pc t ≠ .client .mark)
    (h : s.step (code lim) (.run t c woken) = some s') : Alive s' := by
  obtain ⟨next, hpc, hdo⟩ := step_effect h
  have hended : ending next = false ∧ s'.data.poolDestroy = false ∧ s'.data.freed = false := by
    rcases hdo with ⟨hn, hd⟩ | he
    · rw [ending_of_next hn, hd]
      exact ⟨hs.nobody t, hs.poolDestroy, hs.freed⟩
    · obtain ⟨hdestroy, hfreed, hnext⟩ := alive_of_effect he hmark (hs.nobody t)
      exact ⟨hnext, hdestroy.trans hs.poolDestroy, hfreed.trans hs.freed⟩
  refine ⟨hended.2.1, hended.2.2, fun u => ?_⟩
  by_cases hu : u = t
  · rw [hpc, hu, Function.update_self]
    exact hended.1
  · rw [pc_of_ne h hu]
    exact hs.nobody u

end Alive

/-- All that holds of a pool until it is marked as being destroyed. -/
structure Running [Fintype τ] (lim : Limits) (s : State τ) : Prop where
  guarded : Guarded () critical (fun _ => True) s
  waiting : Waiting (code lim) s
  roll : Roll lim s
  unborn : Unborn s
  served : ∃ place pending, Served place pending s.pc s.data
  knowing : Knowing s
  alive : Alive s

theorem running_of_reaches [Fintype τ] {lim : Limits} {pc : τ → Pc} (hpc : ∀ t, Entry (pc t))
    {jobNext : Nat → Option Nat} {C : State τ → Step τ → Prop} (hC : ∀ s e, C s e → Undestroyed s e)
    {s : State τ} (h : Reaches (Machine.step (code lim)) C (init pc jobNext) s) : Running lim s := by
  obtain ⟨hroll, hunborn⟩ := roll_of_reaches hpc h
  have hentry : ∀ t, knows (init pc jobNext).data (pc t) ∧ ending (pc t) = false := fun t => by
    rcases hpc t with h | h <;> rw [h] <;> exact ⟨trivial, rfl⟩
  have both := h.strengthen (D := fun s e => Undestroyed s e ∧ Guarded () critical (fun _ => True) s)
    fun s e hr hc => ⟨hC s e hc, guarded hpc hr⟩
  have hkept := both.invariant (I := fun s => Knowing s ∧ Alive s)
    ⟨fun t => (hentry t).1, rfl, rfl, fun t => (hentry t).2⟩ fun s e s' hs hc he => by
      cases e with
      | spurious c t =>
        obtain ⟨-, rfl⟩ := step_spurious he
        exact ⟨hs.1, ⟨hs.2.poolDestroy, hs.2.freed, hs.2.nobody⟩⟩
      | run t c woken =>
        refine ⟨hs.1.run hc.2 he fun hfree => ?_, hs.2.run hc.1 he⟩
        have hno := hs.2.nobody t
        simp [hfree, ending] at hno
  exact ⟨guarded hpc h, waiting_of_reaches h, hroll, hunborn,
    served_of_reaches hpc h hkept.2.freed, hkept.1, hkept.2⟩

/-- A worker that looks for a job, or a client that is to signal one. -/
def seeks : Pc → Bool
  | .worker p => idling (.worker p)
  | .client p => (p matches .signal)

def jobs (d : Pool τ) : Nat := d.queued.length - d.started.length

section Jobs

variable {place : Nat → Spot Shelf τ} {pending : List Nat} {pc : τ → Pc} {d : Pool τ} {lim : Limits}
  {s s' : State τ} {t : τ}

omit [DecidableEq τ] in
theorem Served.jobs_eq (h : Served place pending pc d) : jobs d = pending.length := by
  unfold jobs
  rw [h.order, List.length_append]
  omega

omit [DecidableEq τ] in
theorem Served.jobs_eq_zero_iff (h : Served place pending pc d) : jobs d = 0 ↔ d.head = none := by
  rw [h.jobs_eq, h.chain.head_eq]
  cases pending <;> simp

theorem wait_cases {p next : Pc} {m : Unit} {cv : Cond} (h : (code lim p : Op τ) = .wait cv m next) :
    cv = .workcv ∧ (p = .worker .wait ∨ p = .worker .timedwait) ∧ idling next = true ∨
      cv = .waitcv ∧ (p = .client .wait ∨ p = .client .activeWait) ∧
        (next = .client .waitWake ∨ next = .client .activeWake) ∨
      cv = .busycv ∧ p = .client .busyWait ∧ next = .client .busyWake := by
  rcases p with p | p <;> cases p <;> simp [act] at h ⊢ <;> obtain ⟨rfl, rfl⟩ := h <;>
    simp [idling]

theorem Running.sleeper [Fintype τ] (hs : Running lim s) {cv : Cond} (h : t ∈ s.waiters cv) :
    cv = .workcv ∧ idling (s.pc t) = true ∨
      cv ≠ .workcv ∧ ∃ p, s.pc t = .client p ∧ p ≠ .signal := by
  obtain ⟨p, m, hc⟩ := hs.waiting cv t h
  rcases wait_cases hc with ⟨rfl, -, hidle⟩ | ⟨rfl, -, hp | hp⟩ | ⟨rfl, -, hp⟩
  · exact .inl ⟨rfl, hidle⟩
  · exact .inr ⟨by simp, _, hp, by simp⟩
  · exact .inr ⟨by simp, _, hp, by simp⟩
  · exact .inr ⟨by simp, _, hp, by simp⟩

theorem Running.idle_pos [Fintype τ] (hs : Running lim s) (hsome : s.waiters .workcv ≠ ∅) :
    0 < s.data.idle := by
  obtain ⟨t, ht⟩ := Finset.nonempty_iff_ne_empty.mpr hsome
  obtain ⟨-, hidle⟩ | ⟨hno, -⟩ := hs.sleeper ht
  · have hpos := headcount_pos (P := fun u => idling (s.pc u)) hidle
    rw [hs.roll.idle]
    omega
  · exact absurd rfl hno

theorem mindingJobs [Fintype τ] (lim : Limits) :
    Minding (code (τ := τ) lim) (Running lim) .workcv seeks jobs where
  wakes p m next hc := by
    rcases wait_cases hc with ⟨-, -, hidle⟩ | ⟨h, -⟩ | ⟨h, -⟩
    · cases next with
      | worker w => exact hidle
      | client w => simp [idling] at hidle
    · simp at h
    · simp at h
  checked s t m next hs hc := by
    obtain ⟨place, pending, hserved⟩ := hs.served
    rw [hserved.jobs_eq_zero_iff]
    have hknows := hs.knowing t
    rcases wait_cases hc with ⟨-, hp | hp, -⟩ | ⟨h, -⟩ | ⟨h, -⟩
    · rw [hp] at hknows
      exact hknows.1
    · rw [hp] at hknows
      exact hknows.1
    · simp at h
    · simp at h
  sync p next hn hseeks := by
    rcases p with p | p <;> cases p <;> simp [seeks, idling] at hseeks <;>
      simp [Instr.next?, act] at hn <;> subst hn <;> simp [seeks, idling, Instr.Signals]
  act s t choice f d next hs hsome hf hd hunits := by
    have hidle := hs.idle_pos hsome
    obtain ⟨place, pending, hserved⟩ := hs.served
    have he := effect_of_act hf hd
    have halive := hs.alive.poolDestroy
    generalize s.pc t = p at he
    cases he with
    | stop ending => simp [ending] at halive
    | nothing head =>
      have hnone : jobs s.data = 0 := hserved.jobs_eq_zero_iff.mpr head
      exact absurd hnone hunits
    | take job head =>
      have hjobs := hserved.jobs_eq
      have hne : jobs s.data ≠ 0 := fun hzero => by simp [hserved.jobs_eq_zero_iff.mp hzero] at head
      simp only [jobs, takeJob, seeks, idling, List.length_append, List.length_singleton,
        Bool.toNat_true, Bool.toNat_false] at hne ⊢
      omega
    | signal =>
      have hlength : (queueJob t s.data).queued.length ≤ s.data.queued.length + 1 ∧
          (queueJob t s.data).started = s.data.started := by
        unfold queueJob
        split <;> simp
      simp only [jobs, seeks, hlength.2, Bool.toNat_true, Bool.toNat_false]
      omega
    | queue idle => omega
    | grow u _ idle => omega
    | expire hp => rcases hp with rfl | rfl <;> exact le_refl _
    | jobOver exits => cases exits <;> exact le_refl _
    | goes hp => rcases hp with rfl | rfl | rfl <;> exact le_refl _
    | loop | loopNotify => exact Nat.le_add_right _ _
    | _ => exact le_refl _

/-- Somebody who can go on will see to the jobs there are. -/
def Attended (s : State τ) : Prop :=
  ∃ t, ¬s.Blocked t ∧ (employed s t = true ∨ s.pc t = .client .signal)

theorem Running.awake [Fintype τ] (hs : Running lim s) (h : employed s t = true)
    (hno : t ∉ s.waiters .workcv) : ¬s.Blocked t := by
  rintro ⟨cv, hcv⟩
  obtain ⟨rfl, -⟩ | ⟨-, p, hp, -⟩ := hs.sleeper hcv
  · exact hno hcv
  · simp [employed, hp, present] at h

omit [DecidableEq τ] in
theorem Unborn.employed_of_present (hs : Unborn s) (hp : present (s.pc t) = true)
    (hcreate : s.pc t ≠ .worker .create) : employed s t = true := by
  have hcreated : s.data.created t = true := by
    by_contra hno
    rw [Bool.not_eq_true] at hno
    exact hcreate (hs t hno)
  rw [employed, hcreated, hp]
  rfl

omit [DecidableEq τ] in
theorem Unborn.employed_of_idling (hs : Unborn s) (h : idling (s.pc t) = true) :
    employed s t = true := by
  apply hs.employed_of_present
  · generalize s.pc t = p at h
    rcases p with p | p <;> cases p <;> simp [idling] at h <;> rfl
  · intro hp
    simp [hp, idling] at h

/-- Where there is a job, somebody can go on who sees to it, unless there are no workers. -/
theorem Running.attended [Fintype τ] (hs : Running lim s)
    (hfunded : Funded .workcv seeks jobs s) (head : s.data.head ≠ none)
    (hworkers : s.data.nthreads ≠ 0) : Attended s := by
  obtain ⟨place, pending, hserved⟩ := hs.served
  by_cases hsome : s.waiters .workcv = ∅
  · have hne : headcount (employed s) ≠ 0 := fun hzero => hworkers (by rw [hs.roll.nthreads, hzero]; rfl)
    obtain ⟨t, ht⟩ := exists_of_headcount_ne_zero hne
    exact ⟨t, hs.awake ht (by simp [hsome]), .inl ht⟩
  · have hjobs : jobs s.data ≠ 0 := fun hzero => head (hserved.jobs_eq_zero_iff.mp hzero)
    obtain ⟨t, hseeks, hawake⟩ := hfunded.exists_awake hsome hjobs
    cases hp : s.pc t with
    | worker p =>
      have hidle : idling (s.pc t) = true := by
        rw [hp] at hseeks ⊢
        exact hseeks
      have hemployed := hs.unborn.employed_of_idling hidle
      exact ⟨t, hs.awake hemployed hawake, .inl hemployed⟩
    | client p =>
      rw [hp] at hseeks
      cases p <;> simp [seeks] at hseeks
      refine ⟨t, ?_, .inr hp⟩
      rintro ⟨cv, hcv⟩
      obtain ⟨-, hidle⟩ | ⟨-, q, hq, hne⟩ := hs.sleeper hcv
      · simp [hp, idling] at hidle
      · exact hne (by simpa [hp] using hq.symm)

end Jobs

section Creation

/-- The thread comes to a call of `create_worker`. -/
def NeedsWorker (lim : Limits) (s : State τ) (t : τ) : Prop :=
  s.pc t = .client .queue ∧ s.data.idle ≤ 0 ∧ s.data.nthreads < lim.maximum ∨
    s.pc t = .worker .cleanup ∧ s.data.head ≠ none ∧ s.data.nthreads - 1 < lim.maximum

instance (lim : Limits) (s : State τ) (t : τ) : Decidable (NeedsWorker lim s t) :=
  inferInstanceAs (Decidable (_ ∨ _))

/-- `pthread_create` does not fail. -/
def Creates (lim : Limits) (s : State τ) : Step τ → Prop
  | .run t c _ => NeedsWorker lim s t → ∃ u ∈ c.thread, s.data.created u = false
  | .spurious _ _ => True

instance (lim : Limits) (s : State τ) (e : Step τ) : Decidable (Creates lim s e) :=
  match e with
  | .run t c _ =>
    inferInstanceAs (Decidable (NeedsWorker lim s t → ∃ u ∈ c.thread, s.data.created u = false))
  | .spurious _ _ => inferInstanceAs (Decidable True)

variable {lim : Limits} {s s' : State τ} {t : τ} {c : Choice τ} {woken : Finset τ}

theorem createWorker_created {u : τ} (hu : u ∈ c.thread) {d : Pool τ} (fresh : d.created u = false) :
    (createWorker c d).created u = true := by
  have hthread : c.thread = some u := hu
  simp [createWorker, hthread, fresh]

theorem exists_created (hneeds : NeedsWorker lim s t) (hcreates : Creates lim s (.run t c woken))
    (alive : s.data.poolDestroy = false) (h : s.step (code lim) (.run t c woken) = some s') :
    ∃ u, s.data.created u = false ∧ s'.data.created u = true := by
  obtain ⟨u, hu, fresh⟩ := hcreates hneeds
  refine ⟨u, fresh, ?_⟩
  obtain ⟨-, next, -, ⟨hn, -⟩ | ⟨f, hf, hd, -⟩⟩ := step_run h
  · rcases hneeds with ⟨hp, -⟩ | ⟨hp, -⟩ <;> simp [hp, Instr.next?, act] at hn
  · rcases hneeds with ⟨hp, idle, few⟩ | ⟨hp, head, few⟩
    · rw [hp] at hf
      have hg := act_cases hf hd
      simp only [queueJob_idle, queueJob_nthreads] at hg
      rw [if_neg (by omega), if_pos few] at hg
      rw [← (Prod.mk.inj hg).1]
      exact createWorker_created hu (by simpa using fresh)
    · rw [hp] at hf
      have hg := act_cases hf hd
      rw [if_neg (by simp [alive]), if_pos ⟨head, few⟩] at hg
      rw [← (Prod.mk.inj hg).1]
      exact createWorker_created hu fresh

/-- While there is a job, there is a worker. -/
theorem Running.staffed [Fintype τ] (hs : Running lim s) (hmax : 1 ≤ lim.maximum)
    (hcreates : Creates lim s (.run t c woken)) (h : s.step (code lim) (.run t c woken) = some s')
    (before : s.data.head ≠ none → 0 < s.data.nthreads) :
    s'.data.head ≠ none → 0 < s'.data.nthreads := by
  have hcount := hs.roll.nthreads
  obtain ⟨next, -, ⟨-, hd⟩ | he⟩ := step_effect h
  · rw [hd]
    exact before
  have halive := hs.alive.poolDestroy
  have hmade := fun hneeds => exists_created hneeds hcreates halive h
  generalize hp : s.pc t = p at he
  generalize s'.data = d' at he hmade
  intro head
  cases he with
  | signal idle =>
    have hidle := hs.roll.idle
    obtain ⟨u, hu⟩ := exists_of_headcount_ne_zero (P := fun u => idling (s.pc u)) (by omega)
    have hpos := headcount_pos (hs.unborn.employed_of_idling hu)
    rw [queueJob_nthreads]
    omega
  | queue idle =>
    rw [queueJob_nthreads]
    by_cases few : s.data.nthreads < lim.maximum
    · obtain ⟨u, fresh, hu⟩ := hmade (.inl ⟨hp, idle, few⟩)
      simp [fresh] at hu
    · omega
  | grow u =>
    show 0 < s.data.nthreads + 1
    omega
  | last ending => simp [halive] at ending
  | exit =>
    by_cases few : s.data.nthreads - 1 < lim.maximum
    · obtain ⟨u, fresh, hu⟩ := hmade (.inr ⟨hp, head, few⟩)
      simp [fresh] at hu
    · show 0 < s.data.nthreads - 1
      omega
  | replace u =>
    have hpos := before head
    show 0 < s.data.nthreads - 1 + 1
    omega
  | take job hhead =>
    apply before
    simp [hhead]
  | free => exact absurd rfl head
  | _ => exact before head

end Creation

/-- The pool is not being destroyed, and its workers can be created. -/
def InService (lim : Limits) (s : State τ) (e : Step τ) : Prop := Undestroyed s e ∧ Creates lim s e

instance (lim : Limits) (s : State τ) (e : Step τ) : Decidable (InService lim s e) :=
  inferInstanceAs (Decidable (_ ∧ _))

theorem attended_of_reaches [Fintype τ] {lim : Limits} (hmax : 1 ≤ lim.maximum) {pc : τ → Pc}
    (hpc : ∀ t, Entry (pc t)) {jobNext : Nat → Option Nat} {s : State τ}
    (h : Reaches (Machine.step (code lim)) (InService lim) (init pc jobNext) s)
    (head : s.data.head ≠ none) : Attended s := by
  have hrunning : ∀ s, Reaches (Machine.step (code lim)) (InService lim) (init pc jobNext) s →
      Running lim s := fun s hr => running_of_reaches hpc (fun _ _ hc => hc.1) hr
  have hstaffed : s.data.head ≠ none → 0 < s.data.nthreads := by
    have both := h.strengthen (D := fun s e => InService lim s e ∧ Running lim s)
      fun s e hr hc => ⟨hc, hrunning s hr⟩
    refine both.invariant (I := fun s => s.data.head ≠ none → 0 < s.data.nthreads)
      (fun hno => absurd rfl hno) fun s e s' hs hc he => ?_
    cases e with
    | spurious c t =>
      obtain ⟨-, rfl⟩ := step_spurious he
      exact hs
    | run t c woken => exact hc.2.staffed hmax hc.1.2 he hs
  have hpos := hstaffed head
  exact (hrunning s h).attended ((mindingJobs lim).reaches hrunning h) head (by omega)

theorem one_le_maximum {minThreads maxThreads linger : UInt32} {lim : Limits}
    (made : thrPoolCreate minThreads maxThreads linger = some lim) (fits : maxThreads.toNat < 2 ^ 31) :
    1 ≤ lim.maximum := by
  unfold thrPoolCreate at made
  split at made
  next => simp at made
  next h =>
    obtain rfl := Option.some.inj made
    have hpos : 1 ≤ maxThreads.toBitVec.toNat :=
      Nat.le_of_not_lt fun hlt => h (.inr (UInt32.lt_iff_toNat_lt.mpr hlt))
    show 1 ≤ maxThreads.toBitVec.toInt
    have fits : maxThreads.toBitVec.toNat < 2 ^ 31 := fits
    rw [BitVec.toInt_eq_toNat_cond]
    split <;> omega

/-- No job is left lying: as long as there is one in the queue, a worker that can go on is employed,
or a client is about to wake one. -/
theorem jobs_attended [Fintype τ] {minThreads maxThreads linger : UInt32} {lim : Limits}
    (made : thrPoolCreate minThreads maxThreads linger = some lim) (fits : maxThreads.toNat < 2 ^ 31)
    {pc : τ → Pc} (hpc : ∀ t, Entry (pc t)) {jobNext : Nat → Option Nat} {s : State τ}
    (h : Reaches (Machine.step (code lim)) (InService lim) (init pc jobNext) s)
    (head : s.data.head ≠ none) : Attended s :=
  attended_of_reaches (one_le_maximum made fits) hpc h head

theorem jobs_attended_first : ∃ s, Reaches (Machine.step (code ⟨1, 2, 60⟩)) (InService ⟨1, 2, 60⟩)
    (init oneClient fun _ => none) s ∧ s.data.head = some 0 ∧ Attended s := by
  have run : ∃ s, Reaches (Machine.step (code ⟨1, 2, 60⟩)) (InService ⟨1, 2, 60⟩)
      (init oneClient fun _ => none) s ∧ s.data.head = some 0 :=
    exists_reaches (List.replicate 4 (runs 0 (some 1) .queue)) (by decide)
  obtain ⟨s, hr, hhead⟩ := run
  have made : thrPoolCreate 1 2 60 = some ⟨1, 2, 60⟩ := by decide
  exact ⟨s, hr, hhead, jobs_attended made (by decide) oneClient_entry hr (by simp [hhead])⟩

/-- Where a worker is about to wake those that wait for the pool to be quiet. -/
def announces : Pc → Bool
  | .worker p => (p matches .notify | .jobNotify _)
  | .client _ => false

/-- Whoever waits for the pool to be quiet waits while it is not, and will be told. -/
def Watched (s : State τ) : Prop :=
  s.waiters .waitcv ≠ ∅ → s.data.poolWait = true ∧ (s.data.head ≠ none ∨ s.data.active ≠ []) ∨
    ∃ t, announces (s.pc t) = true

section Waiting

variable {lim : Limits} {s s' : State τ} {t : τ} {c : Choice τ} {woken : Finset τ} {p q : Pc}
  {d d' : Pool τ}

variable (lim) in
theorem announces_eq (h : announces p = true) :
    ∃ next, (code lim p : Op τ) = .broadcast .waitcv next := by
  rcases p with p | p <;> cases p <;> simp [announces] at h <;> exact ⟨_, rfl⟩

omit [DecidableEq τ] in
theorem queueJob_head (h : d.head ≠ none) : (queueJob t d).head = d.head := by
  unfold queueJob
  split
  · exact if_neg h
  · rfl

/-- Once `POOL_WAIT` is set, the pool gets quiet with an announcement only. -/
theorem unquiet_of_effect (h : Effect lim t d p q d') (hfree : p ≠ .client .free)
    (hwait : d.poolWait = true) (work : d.head ≠ none ∨ d.active ≠ []) :
    d'.poolWait = true ∧ (d'.head ≠ none ∨ d'.active ≠ []) ∨ announces q = true := by
  cases h with
  | loopNotify => exact .inr rfl
  | jobNotify => exact .inr rfl
  | jobOver _ hno =>
    refine .inl ⟨hwait, ?_⟩
    by_contra hquiet
    simp only [not_or, not_not] at hquiet
    exact hno ⟨hwait, hquiet⟩
  | take => exact .inl ⟨hwait, .inr (List.cons_ne_nil _ _)⟩
  | signal | queue | grow =>
    refine .inl ⟨by simpa using hwait, ?_⟩
    rcases work with head | hactive
    · exact .inl (by rw [queueJob_head head]; exact head)
    · exact .inr (by simpa using hactive)
  | more | active => exact .inl ⟨rfl, work⟩
  | free => exact absurd rfl hfree
  | _ => exact .inl ⟨hwait, work⟩

theorem Watched.run (hs : Watched s) (hk : Knowing s)
    (h : s.step (code lim) (.run t c woken) = some s') (hfree : s.pc t ≠ .client .free) :
    Watched s' := by
  intro hsome
  obtain ⟨u, hu⟩ := Finset.nonempty_iff_ne_empty.mpr hsome
  have hknows := hk t
  by_cases hwait : ∃ m next, (code lim (s.pc t) : Op τ) = .wait .waitcv m next
  · obtain ⟨m, next, hc⟩ := hwait
    have hd : s'.data = s.data := by
      obtain ⟨-, next', -, ⟨-, hd⟩ | ⟨f, hf, -⟩⟩ := step_run h
      · exact hd
      · exact absurd (hc.symm.trans hf) nofun
    left
    rw [hd]
    rcases wait_cases hc with ⟨h, -⟩ | ⟨-, hp | hp, -⟩ | ⟨h, -⟩
    · simp at h
    · rw [hp] at hknows
      exact hknows
    · rw [hp] at hknows
      exact ⟨hknows.1, .inr hknows.2⟩
    · simp at h
  have hbefore : s.waiters .waitcv ≠ ∅ :=
    Finset.ne_empty_of_mem (mem_waiters_of_no_wait h (fun m next hc => hwait ⟨m, next, hc⟩) hu)
  rcases hs hbefore with ⟨hflag, work⟩ | ⟨v, hv⟩
  · obtain ⟨next, hpc, ⟨-, hd⟩ | he⟩ := step_effect h
    · rw [hd]
      exact .inl ⟨hflag, work⟩
    · refine (unquiet_of_effect he hfree hflag work).imp_right fun hnext => ⟨t, ?_⟩
      rw [hpc, Function.update_self]
      exact hnext
  · by_cases hvt : v = t
    · subst hvt
      obtain ⟨next, hc⟩ := announces_eq (τ := τ) lim hv
      exfalso
      simp only [Machine.step, hc] at h
      split at h
      next => simp at h
      next =>
        obtain rfl := Option.some.inj h
        simp at hu
    · refine .inr ⟨v, ?_⟩
      rw [pc_of_ne h hvt]
      exact hv

theorem outside_of_wait {next : Pc} {m : Unit} {cv : Cond}
    (h : (code lim p : Op τ) = .wait cv m next) : critical next = false := by
  rcases p with p | p <;> cases p <;> simp [act] at h <;> obtain ⟨-, rfl⟩ := h <;> rfl

theorem Running.not_blocked [Fintype τ] (hs : Running lim s) (h : critical (s.pc t) = true) :
    ¬s.Blocked t := by
  rintro ⟨cv, hcv⟩
  obtain ⟨p, m, hc⟩ := hs.waiting cv t hcv
  simp [outside_of_wait hc] at h

theorem Running.busy_attends [Fintype τ] (hs : Running lim s) (h : busy (s.pc t) = true) :
    Attended s := by
  have hpoint : present (s.pc t) = true ∧ s.pc t ≠ .worker .create ∧ idling (s.pc t) = false := by
    generalize s.pc t = p at h
    rcases p with p | p <;> cases p <;> simp [busy] at h <;> simp [present, idling]
  have hemployed := hs.unborn.employed_of_present hpoint.1 hpoint.2.1
  refine ⟨t, hs.awake hemployed fun hm => ?_, .inl hemployed⟩
  obtain ⟨-, hidle⟩ | ⟨hno, -⟩ := hs.sleeper hm
  · simp [hpoint.2.2] at hidle
  · exact hno rfl

theorem Running.announces_attends [Fintype τ] (hs : Running lim s) (h : announces (s.pc t) = true) :
    Attended s := by
  have hpoint : present (s.pc t) = true ∧ s.pc t ≠ .worker .create ∧ critical (s.pc t) = true := by
    generalize s.pc t = p at h
    rcases p with p | p <;> cases p <;> simp [announces] at h <;> simp [present, critical]
  exact ⟨t, hs.not_blocked hpoint.2.2, .inl (hs.unborn.employed_of_present hpoint.1 hpoint.2.1)⟩

theorem Running.quiet [Fintype τ] (hs : Running lim s) (head : s.data.head = none)
    (hactive : s.data.active = []) :
    (∀ job ∈ s.data.queued, job ∈ s.data.done) ∧ ∀ u, busy (s.pc u) = false := by
  have hidle : ∀ u, busy (s.pc u) = false := by
    intro u
    have hno := (hs.roll.active u).not.mp (by simp [hactive])
    simpa using hno
  refine ⟨fun job hjob => ?_, hidle⟩
  obtain ⟨place, pending, hserved⟩ := hs.served
  have horder := hserved.inOrder
  have hpending : pending = [] := chain_none_iff.mp (head ▸ horder.chain)
  rw [horder.order, hpending, List.append_nil] at hjob
  rcases (horder.started job).mp hjob with hdone | ⟨u, hp, -⟩
  · exact hdone
  · have hno := hidle u
    rcases hp with hp | hp <;> simp [hp, busy] at hno

end Waiting

/-- What `thr_pool_wait` is for: when it returns, every job that has been queued is done and none is
being performed, and while it waits, there is somebody who can go on. -/
structure WaitsForJobs (s : State τ) : Prop where
  returns : ∀ t, s.pc t = .client .waitUnlock →
    (∀ job ∈ s.data.queued, job ∈ s.data.done) ∧ ∀ u, busy (s.pc u) = false
  waits : s.waiters .waitcv ≠ ∅ → Attended s

theorem waits_for_jobs [Fintype τ] {minThreads maxThreads linger : UInt32} {lim : Limits}
    (made : thrPoolCreate minThreads maxThreads linger = some lim) (fits : maxThreads.toNat < 2 ^ 31)
    {pc : τ → Pc} (hpc : ∀ t, Entry (pc t)) {jobNext : Nat → Option Nat} {s : State τ}
    (h : Reaches (Machine.step (code lim)) (InService lim) (init pc jobNext) s) : WaitsForJobs s := by
  have hrunning : ∀ s, Reaches (Machine.step (code lim)) (InService lim) (init pc jobNext) s →
      Running lim s := fun s hr => running_of_reaches hpc (fun _ _ hc => hc.1) hr
  have hs := hrunning s h
  have hwatched : Watched s := by
    have both := h.strengthen (D := fun s _ => Running lim s) fun s e hr _ => hrunning s hr
    refine both.invariant (I := Watched) (fun hno => absurd rfl hno) fun s e s' hw hr he => ?_
    cases e with
    | spurious cv t =>
      obtain ⟨-, rfl⟩ := step_spurious he
      refine fun hsome => hw fun hnone => hsome ?_
      by_cases hc : Cond.waitcv = cv
      · subst hc
        simp [hnone]
      · simpa [Function.update_of_ne hc] using hnone
    | run t c woken =>
      refine hw.run hr.knowing he fun hfree => ?_
      have hno := hr.alive.nobody t
      simp [hfree, ending] at hno
  refine ⟨fun t ht => ?_, fun hsome => ?_⟩
  · have hknows := hs.knowing t
    rw [ht] at hknows
    exact hs.quiet hknows.1 hknows.2
  · rcases hwatched hsome with ⟨-, head | hactive⟩ | ⟨t, ht⟩
    · exact attended_of_reaches (one_le_maximum made fits) hpc h head
    · obtain ⟨t, ht⟩ := List.exists_mem_of_ne_nil _ hactive
      exact hs.busy_attends ((hs.roll.active t).mp ht)
    · exact hs.announces_attends ht

theorem waits_for_jobs_first : ∃ s, Reaches (Machine.step (code ⟨1, 2, 60⟩)) (InService ⟨1, 2, 60⟩)
    (init oneClient fun _ => none) s ∧ 0 ∈ s.waiters .waitcv ∧ WaitsForJobs s := by
  have run : ∃ s, Reaches (Machine.step (code ⟨1, 2, 60⟩)) (InService ⟨1, 2, 60⟩)
      (init oneClient fun _ => none) s ∧ 0 ∈ s.waiters .waitcv :=
    exists_reaches (List.replicate 4 (runs 0 (some 1) .queue) ++
      List.replicate 4 (runs 0 none .wait)) (by decide)
  obtain ⟨s, hr, hwaits⟩ := run
  have made : thrPoolCreate 1 2 60 = some ⟨1, 2, 60⟩ := by decide
  exact ⟨s, hr, hwaits, waits_for_jobs made (by decide) oneClient_entry hr⟩

end ThreadPool

end TcpAndParallel
