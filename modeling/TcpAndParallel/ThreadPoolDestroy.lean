import TcpAndParallel.ThreadPoolWakeups

namespace TcpAndParallel

namespace ThreadPool

variable {τ : Type*} [DecidableEq τ]

def destroying : Pc → Bool
  | .client p => (p matches .destroyLock | .mark) || ending (.client p)
  | .worker _ => false

def leaving : Pc → Bool
  | .client p => (p matches .destroyUnlock | .free | .gone)
  | .worker _ => false

/-- A pool is destroyed once, with no other call under way, and not used afterwards. -/
def Orderly (s : State τ) : Step τ → Prop
  | .run t c _ => s.pc t = .client .call → (∀ u, destroying (s.pc u) = false) ∧
      (c.call = .destroy → ∀ u, isWorker (s.pc u) = true ∨ s.pc u = .client .call)
  | .spurious _ _ => True

instance [Fintype τ] (s : State τ) (e : Step τ) : Decidable (Orderly s e) :=
  match e with
  | .run t c _ => inferInstanceAs (Decidable (s.pc t = .client .call →
      (∀ u, destroying (s.pc u) = false) ∧
        (c.call = .destroy → ∀ u, isWorker (s.pc u) = true ∨ s.pc u = .client .call)))
  | .spurious _ _ => inferInstanceAs (Decidable True)

/-- An orderly step that is no wakeup without a signal. -/
def Signalled (s : State τ) (e : Step τ) : Prop :=
  Orderly s e ∧ match e with
    | .run _ _ _ => True
    | .spurious _ _ => False

/-- Whoever destroys the pool is the only one to use it. -/
structure Sole (s : State τ) : Prop where
  others : ∀ t, destroying (s.pc t) = true → ∀ u ≠ t, isWorker (s.pc u) = true ∨ s.pc u = .client .call
  marked : ∀ t, ending (s.pc t) = true → s.data.poolDestroy = true
  freed : s.data.freed = true → ∃ t, s.pc t = .client .gone

section Destroying

variable {lim : Limits} {t : τ} {p q : Pc} {d d' : Pool τ} {s s' : State τ} {c : Choice τ}
  {woken : Finset τ}

omit [DecidableEq τ] in
theorem destroying_of_leaving (h : leaving p = true) : destroying p = true := by
  rcases p with p | p <;> cases p <;> simp [leaving] at h <;> rfl

theorem destroying_of_next (h : (code lim p : Op τ).next? = some q) :
    destroying q = destroying p ∧ isWorker q = isWorker p ∧ p ≠ .client .call := by
  rcases p with p | p <;> cases p <;> simp [Instr.next?, act] at h <;> subst h <;>
    simp [destroying, ending, isWorker]
  next exits => cases exits <;> simp [afterJob]

theorem isWorker_of_effect (h : Effect lim t d p q d') : isWorker q = isWorker p := by
  cases h with
  | jobOver exits => cases exits <;> rfl
  | _ => rfl

theorem destroying_of_effect (h : Effect lim t d p q d') (hcall : p ≠ .client .call) :
    destroying q = destroying p := by
  cases h with
  | jobOver exits => cases exits <;> rfl
  | goes => exact absurd rfl hcall
  | newJob => exact absurd rfl hcall
  | _ => rfl

theorem poolDestroy_of_effect (h : Effect lim t d p q d') (hd : d.poolDestroy = true) :
    d'.poolDestroy = true := by
  cases h with
  | signal | queue | grow => simpa using hd
  | mark => rfl
  | _ => exact hd

theorem marked_of_effect (h : Effect lim t d p q d') (hd : ending p = true → d.poolDestroy = true)
    (hq : ending q = true) : d'.poolDestroy = true := by
  cases h with
  | mark => rfl
  | jobOver exits => cases exits <;> simp [ending, afterJob] at hq
  | goes hp => rcases hp with rfl | rfl | rfl <;> simp [ending] at hq
  | active | inactive | busy | deserted | free => exact hd rfl
  | _ => simp [ending] at hq

theorem gone_of_effect (h : Effect lim t d p q d') (hd : d'.freed = true) :
    d.freed = true ∨ q = .client .gone := by
  cases h with
  | free => exact .inr rfl
  | signal | queue | grow => exact .inl (by simpa using hd)
  | _ => exact .inl hd

theorem destroy_of_call (h : s.step (code lim) (.run t c woken) = some s')
    (hp : s.pc t = .client .call) (hn : destroying (s'.pc t) = true) : c.call = .destroy := by
  obtain ⟨-, next, hpc, ⟨hnext, -⟩ | ⟨f, hf, hd, -⟩⟩ := step_run h
  · simp [hp, Instr.next?, act] at hnext
  · rw [hp] at hf
    have hg := act_cases hf hd
    rw [hpc, Function.update_self] at hn
    cases hc : c.call with
    | destroy => rfl
    | wait =>
      rw [hc] at hg
      obtain ⟨-, rfl⟩ := Prod.mk.inj hg
      simp [destroying, ending] at hn
    | queue =>
      rw [hc] at hg
      simp only at hg
      split at hg <;> obtain ⟨-, rfl⟩ := Prod.mk.inj hg <;> simp [destroying, ending] at hn

theorem Sole.run (hs : Sole s) (ho : Orderly s (.run t c woken))
    (h : s.step (code lim) (.run t c woken) = some s') : Sole s' := by
  obtain ⟨next, hpc, hdo⟩ := step_effect h
  have hself : s'.pc t = next := by rw [hpc, Function.update_self]
  have hworker : isWorker next = isWorker (s.pc t) := by
    rcases hdo with ⟨hn, -⟩ | he
    · exact (destroying_of_next hn).2.1
    · exact isWorker_of_effect he
  have hsame : s.pc t ≠ .client .call → destroying next = destroying (s.pc t) := by
    rcases hdo with ⟨hn, -⟩ | he
    · exact fun _ => (destroying_of_next hn).1
    · exact destroying_of_effect he
  refine ⟨fun u hu v hv => ?_, fun u hu => ?_, fun hfreed => ?_⟩
  · by_cases hcall : s.pc t = .client .call
    · obtain ⟨hnone, hdestroy⟩ := ho hcall
      have hut : u = t := by
        by_contra hne
        rw [pc_of_ne h hne, hnone u] at hu
        simp at hu
      subst hut
      rw [pc_of_ne h hv]
      exact hdestroy (destroy_of_call h hcall hu) v
    · have hbefore : destroying (s.pc u) = true := by
        by_cases hut : u = t
        · subst hut
          rw [← hsame hcall, ← hself]
          exact hu
        · rwa [pc_of_ne h hut] at hu
      have hothers := hs.others u hbefore v hv
      by_cases hvt : v = t
      · subst hvt
        rw [hself, hworker]
        exact .inl (hothers.resolve_right hcall)
      · rwa [pc_of_ne h hvt]
  · rcases hdo with ⟨hn, hd⟩ | he
    · rw [hd]
      by_cases hut : u = t
      · subst hut
        rw [hself, ending_of_next hn] at hu
        exact hs.marked u hu
      · rw [pc_of_ne h hut] at hu
        exact hs.marked u hu
    · by_cases hut : u = t
      · subst hut
        rw [hself] at hu
        exact marked_of_effect he (hs.marked u) hu
      · rw [pc_of_ne h hut] at hu
        exact poolDestroy_of_effect he (hs.marked u hu)
  · have hbefore : s.data.freed = true ∨ next = .client .gone := by
      rcases hdo with ⟨-, hd⟩ | he
      · exact .inl (hd ▸ hfreed)
      · exact gone_of_effect he hfreed
    rcases hbefore with hbefore | rfl
    · obtain ⟨u, hu⟩ := hs.freed hbefore
      have hut : u ≠ t := by
        rintro rfl
        rcases hdo with ⟨hn, -⟩ | he
        · simp [hu, Instr.next?] at hn
        · rw [hu] at he
          generalize s'.data = d' at he
          cases he
      exact ⟨u, by rw [pc_of_ne h hut]; exact hu⟩
    · exact ⟨t, hself⟩

theorem Knowing.orderly (hs : Knowing s) (hg : Guarded () critical (fun _ => True) s) (hsole : Sole s)
    (h : s.step (code lim) (.run t c woken) = some s') : Knowing s' := by
  by_cases hfree : s.pc t = .client .free
  · intro u
    obtain ⟨next, hpc, ⟨hn, -⟩ | he⟩ := step_effect h
    · simp [hfree, Instr.next?, act] at hn
    rw [hfree] at he
    by_cases hut : u = t
    · rw [hut, hpc, Function.update_self]
      exact knows_of_effect he
    · have hknows := hs u
      have hothers := hsole.others t (by rw [hfree]; rfl) u hut
      rw [pc_of_ne h hut]
      generalize s'.data = d' at he
      cases he
      generalize s.pc u = p at hknows hothers
      rcases p with p | p
      · cases p <;> first | exact ⟨rfl, hknows.2⟩ | trivial
      · obtain hno | hcall := hothers
        · simp [isWorker] at hno
        · rw [hcall]
          trivial
  · exact hs.run hg h hfree

/-- A thread of a pool that does not touch it any more. -/
def Retired (s : State τ) (u : τ) : Prop :=
  s.pc u = .worker .exit ∨ s.pc u = .worker .create ∧ s.data.created u = false

/-- Behind the loops of `thr_pool_destroy` no worker is left. -/
def Emptied (s : State τ) : Prop :=
  ∀ t, leaving (s.pc t) = true → ∀ u, isWorker (s.pc u) = true → Retired s u

omit [DecidableEq τ] in
theorem not_leaving_of_worker (h : isWorker p = true) : leaving p = false := by
  rcases p with p | p
  · rfl
  · simp [isWorker] at h

theorem Unborn.not_retired (hu : Unborn s) (h : s.step (code lim) (.run t c woken) = some s') :
    ¬Retired s t := by
  rintro (hp | ⟨-, hno⟩)
  · obtain ⟨next, -, ⟨hn, -⟩ | he⟩ := step_effect h
    · simp [hp, Instr.next?] at hn
    · rw [hp] at he
      generalize s'.data = d' at he
      cases he with
      | expire hq => simp at hq
  · simp [hu.created_of_step h] at hno

theorem leaving_of_effect (h : Effect lim t d p q d') (hq : leaving q = true) :
    leaving p = true ∧ d'.created = d.created ∨ p = .client .nthreads ∧ d.nthreads = 0 ∧ d' = d := by
  cases h with
  | deserted none => exact .inr ⟨rfl, none, rfl⟩
  | free => exact .inl ⟨rfl, rfl⟩
  | jobOver exits => cases exits <;> simp [leaving, afterJob] at hq
  | goes hp => rcases hp with rfl | rfl | rfl <;> simp [leaving] at hq
  | _ => simp [leaving] at hq

theorem leaving_of_next (h : (code lim p : Op τ).next? = some q) : leaving q = leaving p := by
  rcases p with p | p <;> cases p <;> simp [Instr.next?, act] at h <;> subst h <;> try rfl
  next exits => cases exits <;> rfl

omit [DecidableEq τ] in
theorem Roll.retired [Fintype τ] (hs : Roll lim s) (hu : Unborn s)
    (hg : Guarded () critical (fun _ => True) s) (hp : s.pc t = .client .nthreads)
    (none : s.data.nthreads = 0) {u : τ} (hw : isWorker (s.pc u) = true) : Retired s u := by
  have hzero : headcount (employed s) = 0 := by
    have hcount := hs.nthreads
    omega
  have hno := headcount_eq_zero_iff.mp hzero u
  cases hcreated : s.data.created u with
  | false => exact .inr ⟨hu u hcreated, hcreated⟩
  | true =>
    left
    simp only [employed, hcreated, Bool.true_and] at hno
    -- the destroyer holds the mutex, so that a worker is not just giving it up
    have hout : critical (s.pc u) = false := by
      by_contra hin
      rw [Bool.not_eq_false] at hin
      have hsame := alone hg hin (u := t) (by rw [hp]; rfl)
      rw [hsame, hp] at hw
      simp [isWorker] at hw
    generalize s.pc u = p at hno hout hw
    rcases p with p | p
    · cases p <;> simp [present, critical] at hno hout
      rfl
    · simp [isWorker] at hw

theorem Emptied.run [Fintype τ] (hs : Emptied s) (hsole : Sole s) (hroll : Roll lim s) (hu : Unborn s)
    (hg : Guarded () critical (fun _ => True) s) (ho : Orderly s (.run t c woken))
    (h : s.step (code lim) (.run t c woken) = some s') : Emptied s' := by
  obtain ⟨next, hpc, hdo⟩ := step_effect h
  have hself : s'.pc t = next := by rw [hpc, Function.update_self]
  intro v hv u hw
  by_cases hvt : v = t
  · subst hvt
    rw [hself] at hv
    have huv : u ≠ v := by
      rintro rfl
      rw [hself] at hw
      simp [not_leaving_of_worker hw] at hv
    rw [pc_of_ne h huv] at hw
    unfold Retired
    rw [pc_of_ne h huv]
    rcases hdo with ⟨hn, hd⟩ | he
    · rw [hd]
      exact hs v (leaving_of_next hn ▸ hv) u hw
    · rcases leaving_of_effect he hv with ⟨hbefore, hd⟩ | ⟨hp, none, hd⟩
      · rw [hd]
        exact hs v hbefore u hw
      · rw [hd]
        exact hroll.retired hu hg hp none hw
  · rw [pc_of_ne h hvt] at hv
    have hdestroying := destroying_of_leaving hv
    rcases hsole.others v hdestroying t (Ne.symm hvt) with hworker | hcall
    · exact absurd (hs v hv t hworker) (hu.not_retired h)
    · have hnone := (ho hcall).1 v
      simp [hdestroying] at hnone

end Destroying

section Runs

variable [Fintype τ] {lim : Limits} {pc : τ → Pc} {jobNext : Nat → Option Nat} {s s' : State τ}

structure Ordered (s : State τ) : Prop where
  sole : Sole s
  knowing : Knowing s
  emptied : Emptied s

theorem ordered_of_reaches (hpc : ∀ t, Entry (pc t))
    (h : Reaches (Machine.step (code lim)) Orderly (init pc jobNext) s) : Ordered s := by
  have hentry : ∀ t, destroying (pc t) = false ∧ ending (pc t) = false ∧ leaving (pc t) = false ∧
      knows (init pc jobNext).data (pc t) := fun t => by
    rcases hpc t with h | h <;> rw [h] <;> exact ⟨rfl, rfl, rfl, trivial⟩
  have both := h.strengthen (D := fun s e => Orderly s e ∧ Roll lim s ∧ Unborn s ∧
    Guarded () critical (fun _ => True) s) fun s e hr hc =>
      ⟨hc, (roll_of_reaches hpc hr).1, (roll_of_reaches hpc hr).2, guarded hpc hr⟩
  refine both.invariant (I := Ordered) ?_ fun s e s' hs hc he => ?_
  · refine ⟨⟨fun t ht => ?_, fun t ht => ?_, fun hno => ?_⟩, fun t => (hentry t).2.2.2, fun t ht => ?_⟩
    · simp [init, Machine.start, (hentry t).1] at ht
    · simp [init, Machine.start, (hentry t).2.1] at ht
    · simp [init, Machine.start] at hno
    · simp [init, Machine.start, (hentry t).2.2.1] at ht
  · cases e with
    | spurious c t =>
      obtain ⟨-, rfl⟩ := step_spurious he
      exact ⟨⟨hs.sole.others, hs.sole.marked, hs.sole.freed⟩, hs.knowing, hs.emptied⟩
    | run t c woken =>
      obtain ⟨ho, hroll, hunborn, hg⟩ := hc
      exact ⟨hs.sole.run ho he, hs.knowing.orderly hg hs.sole he,
        hs.emptied.run hs.sole hroll hunborn hg ho he⟩

/-- Nothing touches a pool that has been freed: its workers have exited, and the clients are outside
of its functions. -/
theorem unused_when_freed (hpc : ∀ t, Entry (pc t))
    (h : Reaches (Machine.step (code lim)) Orderly (init pc jobNext) s) (hfreed : s.data.freed = true) :
    ∀ u, Retired s u ∨ s.pc u = .client .call ∨ s.pc u = .client .gone := by
  have hs := ordered_of_reaches hpc h
  obtain ⟨t, ht⟩ := hs.sole.freed hfreed
  intro u
  by_cases hut : u = t
  · exact .inr (.inr (hut ▸ ht))
  · rcases hs.sole.others t (by rw [ht]; rfl) u hut with hw | hcall
    · exact .inl (hs.emptied t (by rw [ht]; rfl) u hw)
    · exact .inr (.inl hcall)

omit [Fintype τ] in
/-- A job in the queue stays there once the pool is being destroyed. -/
theorem head_of_effect {t : τ} {p q : Pc} {d d' : Pool τ} (h : Effect lim t d p q d')
    (hd : d.poolDestroy = true) (hfree : p ≠ .client .free) (head : d.head ≠ none) :
    d'.head ≠ none := by
  cases h with
  | take job _ alive => simp [hd] at alive
  | free => exact absurd rfl hfree
  | signal | queue | grow =>
    rw [queueJob_head head]
    exact head
  | _ => exact head

omit [Fintype τ] in
theorem announces_of_code {p next : Pc} (h : (code lim p : Op τ) = .signal .waitcv next ∨
    (code lim p : Op τ) = .broadcast .waitcv next) : announces p = true := by
  rcases h with h | h <;> rcases p with p | p <;> cases p <;> simp [act] at h <;> rfl

omit [DecidableEq τ] [Fintype τ] in
theorem Knowing.quiet (hs : Knowing s) {t : τ} (h : announces (s.pc t) = true) : s.data.head = none := by
  have hknows := hs t
  generalize s.pc t = p at h hknows
  rcases p with p | p <;> cases p <;> simp [announces] at h
  · exact hknows.1
  · exact hknows.1

/-- The caller of `thr_pool_destroy` sleeps, and there is a job in the queue. -/
structure Hanging (t : τ) (s : State τ) : Prop where
  point : s.pc t = .client .activeWake
  asleep : t ∈ s.waiters .waitcv
  head : s.data.head ≠ none

omit [Fintype τ] in
theorem Hanging.run {t u : τ} {c : Choice τ} {woken : Finset τ} (hs : Hanging t s) (ho : Ordered s)
    (h : s.step (code lim) (.run u c woken) = some s') : Hanging t s' := by
  have hut : u ≠ t := by
    rintro rfl
    exact (step_run h).1 ⟨.waitcv, hs.asleep⟩
  have hfree : s.pc u ≠ .client .free := by
    intro hfree
    rcases ho.sole.others t (by rw [hs.point]; rfl) u hut with hw | hcall
    · simp [hfree, isWorker] at hw
    · simp [hfree] at hcall
  have silent : announces (s.pc u) = false := by
    by_contra hno
    rw [Bool.not_eq_false] at hno
    exact hs.head (ho.knowing.quiet hno)
  refine ⟨?_, ?_, ?_⟩
  · rw [pc_of_ne h (Ne.symm hut)]
    exact hs.point
  · refine asleep_of_step h hs.asleep fun next => ⟨fun hc => ?_, fun hc => ?_⟩
    · rw [announces_of_code (.inl hc)] at silent
      simp at silent
    · rw [announces_of_code (.inr hc)] at silent
      simp at silent
  · obtain ⟨next, -, ⟨-, hd⟩ | he⟩ := step_effect h
    · rw [hd]
      exact hs.head
    · exact head_of_effect he (ho.sole.marked t (by rw [hs.point]; rfl)) hfree hs.head

/-- `thr_pool_destroy` does not return if it has to wait for active workers while there is a job in
the queue: the job is never taken, and `notify_waiters` waits for it to be gone. -/
theorem destroy_hangs (hpc : ∀ t, Entry (pc t))
    (h : Reaches (Machine.step (code lim)) Orderly (init pc jobNext) s) {t : τ} (hs : Hanging t s)
    (h' : Reaches (Machine.step (code lim)) Signalled s s') : Hanging t s' := by
  refine (h'.invariant (I := fun s => Reaches (Machine.step (code lim)) Orderly (init pc jobNext) s ∧
    Hanging t s) ⟨h, hs⟩ fun s e s' hs hc he => ?_).2
  refine ⟨hs.1.next hc.1 he, ?_⟩
  cases e with
  | spurious c u => exact hc.2.elim
  | run u c woken => exact hs.2.run (ordered_of_reaches hpc hs.1) he

end Runs

section Example

/-- A job is being performed and another one in the queue when the client destroys the pool. -/
theorem destroy_hangs_early : ∃ s, Reaches (Machine.step (code ⟨1, 1, 60⟩)) Orderly
    (init oneClient fun _ => none) s ∧ Hanging 0 s ∧
      ∀ s', Reaches (Machine.step (code ⟨1, 1, 60⟩)) Signalled s s' → Hanging 0 s' := by
  have run : ∃ s, Reaches (Machine.step (code ⟨1, 1, 60⟩)) Orderly (init oneClient fun _ => none) s ∧
      s.pc 0 = .client .activeWake ∧ 0 ∈ s.waiters .waitcv ∧ s.data.head ≠ none :=
    exists_reaches (List.replicate 4 (runs 0 (some 1) .queue) ++
      List.replicate 6 (runs 1 none .queue) ++ List.replicate 4 (runs 0 none .queue) ++
      List.replicate 6 (runs 0 none .destroy)) (by decide)
  obtain ⟨s, hr, hpoint, hasleep, hhead⟩ := run
  have hs : Hanging 0 s := ⟨hpoint, hasleep, hhead⟩
  exact ⟨s, hr, hs, fun s' h' => destroy_hangs oneClient_entry hr hs h'⟩

/-- The client destroys the pool when its one job is done. -/
theorem unused_when_freed_late : ∃ s, Reaches (Machine.step (code ⟨1, 1, 60⟩)) Orderly
    (init oneClient fun _ => none) s ∧ s.data.freed = true ∧
      ∀ u, Retired s u ∨ s.pc u = .client .call ∨ s.pc u = .client .gone := by
  have run : ∃ s, Reaches (Machine.step (code ⟨1, 1, 60⟩)) Orderly (init oneClient fun _ => none) s ∧
      s.data.freed = true :=
    exists_reaches (List.replicate 4 (runs 0 (some 1) .queue) ++
      List.replicate 11 (runs 1 none .queue) ++ List.replicate 8 (runs 0 none .destroy)) (by decide)
  obtain ⟨s, hr, hfreed⟩ := run
  exact ⟨s, hr, hfreed, unused_when_freed oneClient_entry hr hfreed⟩

end Example

end ThreadPool

end TcpAndParallel
