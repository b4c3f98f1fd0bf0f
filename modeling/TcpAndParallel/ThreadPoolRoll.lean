import Mathlib.Data.Fin.VecNotation
import Mathlib.Data.List.Nodup
import TcpAndParallel.Headcount
import TcpAndParallel.ThreadPool

namespace TcpAndParallel

namespace ThreadPool

variable {τ : Type*} [DecidableEq τ]

/-- Where a worker is on the list of active threads. -/
def busy : Pc → Bool
  | .worker p => (p matches .unlock | .run | .jobLock _ | .jobCleanup _)
  | .client _ => false

/-- Where a worker is counted by `pool_idle`. -/
def idling : Pc → Bool
  | .worker p => (p matches .notify | .test | .wait | .wake | .timedwait | .timedwake | .timeout |
      .leave)
  | .client _ => false

/-- Where a worker, once it is created, is counted by `pool_nthreads`. -/
def present : Pc → Bool
  | .worker p => !(p matches .broadcast | .cleanupUnlock | .exit)
  | .client _ => false

def employed (s : State τ) (t : τ) : Bool := s.data.created t && present (s.pc t)

/-- The pool's list of active threads and its counts are those of the threads there are. -/
structure Roll [Fintype τ] (lim : Limits) (s : State τ) : Prop where
  nodup : s.data.active.Nodup
  active : ∀ t, t ∈ s.data.active ↔ busy (s.pc t) = true
  idle : s.data.idle = headcount fun t => idling (s.pc t)
  nthreads : s.data.nthreads = headcount (employed s)
  most : s.data.nthreads ≤ max lim.maximum 0

/-- A thread that is not created has not begun. -/
def Unborn (s : State τ) : Prop := ∀ t, s.data.created t = false → s.pc t = .worker .create

section Points

@[simp] theorem busy_afterJob (exits : Bool) : busy (afterJob exits) = false := by
  cases exits <;> rfl

@[simp] theorem idling_afterJob (exits : Bool) : idling (afterJob exits) = false := by
  cases exits <;> rfl

@[simp] theorem present_afterJob (exits : Bool) : present (afterJob exits) = true := by
  cases exits <;> rfl

theorem points_of_next {lim : Limits} {p q : Pc} (h : (code lim p : Op τ).next? = some q) :
    busy q = busy p ∧ idling q = idling p ∧ present q = present p := by
  rcases p with p | p <;> cases p <;> simp [Instr.next?, act] at h <;> subst h <;>
    simp [busy, idling, present]
  next exits => cases exits <;> simp [afterJob]

variable {lim : Limits} {t : τ} {p q : Pc} {d d' : Pool τ}

theorem idle_of_effect (h : Effect lim t d p q d') :
    d'.idle + (idling p).toNat = d.idle + (idling q).toNat := by
  cases h with
  | expire hp => rcases hp with rfl | rfl <;> rfl
  | take | stop | nothing => simp [takeJob, idling]
  | jobOver => rw [idling_afterJob]; rfl
  | _ => simp [idling]

theorem active_of_effect (h : Effect lim t d p q d') :
    d'.active = d.active ∧ busy q = busy p ∨
      d'.active = t :: d.active ∧ busy p = false ∧ busy q = true ∨
      d'.active = d.active.erase t ∧ busy q = false := by
  cases h with
  | expire hp => rcases hp with rfl | rfl <;> exact .inl ⟨rfl, rfl⟩
  | take => exact .inr (.inl ⟨rfl, rfl, rfl⟩)
  | jobOver => exact .inr (.inr ⟨rfl, busy_afterJob _⟩)
  | jobNotify => exact .inr (.inr ⟨rfl, rfl⟩)
  | signal | queue | grow => exact .inl ⟨queueJob_active t d, rfl⟩
  | _ => exact .inl ⟨rfl, rfl⟩

theorem nthreads_of_effect (h : Effect lim t d p q d') :
    d'.created = d.created ∧ d'.nthreads + (present p).toNat = d.nthreads + (present q).toNat ∨
      ∃ u, d.created u = false ∧ d'.created = Function.update d.created u true ∧
        d'.nthreads + (present p).toNat = d.nthreads + 1 + (present q).toNat := by
  cases h with
  | expire hp => rcases hp with rfl | rfl <;> exact .inl ⟨rfl, rfl⟩
  | replace u fresh => exact .inr ⟨u, fresh, rfl, by simp [present]⟩
  | grow u fresh => exact .inr ⟨u, fresh, rfl, by simp [present]⟩
  | last | exit => exact .inl ⟨rfl, by simp [present]⟩
  | signal | queue => exact .inl ⟨by simp, by simp [present]⟩
  | jobOver => exact .inl ⟨rfl, by rw [present_afterJob]; rfl⟩
  | _ => exact .inl ⟨rfl, rfl⟩

theorem most_of_effect (h : Effect lim t d p q d') (hd : d.nthreads ≤ max lim.maximum 0) :
    d'.nthreads ≤ max lim.maximum 0 := by
  cases h with
  | last | exit => exact (Int.sub_le_self _ Int.one_nonneg).trans hd
  | replace u _ _ few => exact (Int.add_one_le_of_lt few).trans (le_max_left _ _)
  | grow u _ _ few => exact (Int.add_one_le_of_lt few).trans (le_max_left _ _)
  | signal | queue => simpa using hd
  | _ => exact hd

end Points

section Counting

variable [Fintype τ] {lim : Limits} {s s' : State τ} {t : τ} {c : Choice τ} {woken : Finset τ}

theorem headcount_goto (P : Pc → Bool) {next : Pc} (hpc : s'.pc = Function.update s.pc t next) :
    headcount (fun u => P (s'.pc u)) + (P (s.pc t)).toNat =
      headcount (fun u => P (s.pc u)) + (P next).toNat := by
  have h := headcount_change (P := fun u => P (s.pc u)) (Q := fun u => P (s'.pc u)) t fun u hu => by
    simp only [hpc, Function.update_of_ne hu]
  simpa [hpc] using h

omit [Fintype τ] in
theorem Unborn.created_of_step (hs : Unborn s) (h : s.step (code lim) (.run t c woken) = some s') :
    s.data.created t = true := by
  by_contra hno
  rw [Bool.not_eq_true] at hno
  obtain ⟨next, -, ⟨hn, -⟩ | he⟩ := step_effect h
  · rw [hs t hno] at hn
    simp [Instr.next?] at hn
  · rw [hs t hno] at he
    generalize s'.data = d' at he
    cases he with
    | born hcreated => simp [hno] at hcreated
    | expire hp => simp at hp

omit [Fintype τ] in
/-- Nobody is created twice, and nobody gets lost. -/
theorem Unborn.run (hs : Unborn s) (h : s.step (code lim) (.run t c woken) = some s') :
    Unborn s' := by
  have hcreated := hs.created_of_step h
  obtain ⟨next, hpc, hdo⟩ := step_effect h
  have kept : ∀ u, s'.data.created u = false → s.data.created u = false := by
    intro u hu
    rcases hdo with ⟨-, hd⟩ | he
    · rwa [hd] at hu
    · rcases nthreads_of_effect he with ⟨hd, -⟩ | ⟨v, -, hd, -⟩
      · rwa [hd] at hu
      · rw [hd] at hu
        by_cases huv : u = v
        · simp [huv] at hu
        · rwa [Function.update_of_ne huv] at hu
  intro u hu
  have hbefore := kept u hu
  have hut : u ≠ t := by
    rintro rfl
    simp [hcreated] at hbefore
  rw [hpc, Function.update_of_ne hut]
  exact hs u hbefore

theorem employed_of_step (hs : Unborn s) (h : s.step (code lim) (.run t c woken) = some s')
    (hn : s.data.nthreads = headcount (employed s)) : s'.data.nthreads = headcount (employed s') := by
  have hcreated := hs.created_of_step h
  obtain ⟨next, hpc, hdo⟩ := step_effect h
  -- the step of the thread first, with those that there were before it
  have moved := headcount_change (P := employed s)
    (Q := fun u => s.data.created u && present (s'.pc u)) t fun u hu => by
      simp only [employed, hpc, Function.update_of_ne hu]
  simp only [employed, hcreated, hpc, Function.update_self, Bool.true_and] at moved
  rcases hdo with ⟨hnext, hd⟩ | he
  · rw [(points_of_next hnext).2.2] at moved
    have hsame : headcount (employed s') = headcount (fun u => s.data.created u &&
        present (Function.update s.pc t next u)) :=
      headcount_congr fun u => by simp only [employed, hd, hpc]
    rw [hd]
    omega
  · rcases nthreads_of_effect he with ⟨hd, hcount⟩ | ⟨u, fresh, hd, hcount⟩
    · have hsame : headcount (employed s') = headcount (fun v => s.data.created v &&
          present (Function.update s.pc t next v)) :=
        headcount_congr fun v => by simp only [employed, hd, hpc]
      omega
    · have hut : u ≠ t := by
        rintro rfl
        simp [hcreated] at fresh
      have born := headcount_change (P := fun v => s.data.created v &&
        present (Function.update s.pc t next v)) (Q := employed s') u fun v hv => by
          simp only [employed, hd, hpc, Function.update_of_ne hv]
      have hu : present (s'.pc u) = true := by
        rw [hpc, Function.update_of_ne hut, hs u fresh]
        rfl
      simp only [employed, hd, fresh, hu, Function.update_self, Bool.false_and, Bool.true_and,
        Bool.toNat_false, Bool.toNat_true] at born
      omega

/-- The rule for a step of a thread. -/
theorem Roll.run (hs : Roll lim s) (hu : Unborn s)
    (h : s.step (code lim) (.run t c woken) = some s') : Roll lim s' := by
  have hemployed := employed_of_step hu h hs.nthreads
  obtain ⟨next, hpc, hdo⟩ := step_effect h
  have hidle := headcount_goto idling hpc
  rcases hdo with ⟨hnext, hd⟩ | he
  · obtain ⟨hbusy, hidling, -⟩ := points_of_next hnext
    refine ⟨hd ▸ hs.nodup, fun u => ?_, ?_, hemployed, hd ▸ hs.most⟩
    · rw [hd, hs.active u, hpc]
      by_cases hu : u = t
      · rw [hu, Function.update_self, hbusy]
      · rw [Function.update_of_ne hu]
    · rw [hidling] at hidle
      rw [hd, hs.idle]
      omega
  · refine ⟨?_, fun u => ?_, ?_, hemployed, most_of_effect he hs.most⟩
    · rcases active_of_effect he with ⟨hd, -⟩ | ⟨hd, hout, -⟩ | ⟨hd, -⟩
      · rw [hd]
        exact hs.nodup
      · rw [hd]
        exact List.nodup_cons.mpr ⟨fun hm => by simp [(hs.active t).mp hm] at hout, hs.nodup⟩
      · rw [hd]
        exact hs.nodup.erase t
    · rw [hpc]
      by_cases hu : u = t
      · rw [hu, Function.update_self]
        rcases active_of_effect he with ⟨hd, hsame⟩ | ⟨hd, -, hin⟩ | ⟨hd, hout⟩
        · rw [hd, hs.active t, hsame]
        · simp [hd, hin]
        · simp [hd, hout, hs.nodup.not_mem_erase]
      · rw [Function.update_of_ne hu, ← hs.active u]
        rcases active_of_effect he with ⟨hd, -⟩ | ⟨hd, -⟩ | ⟨hd, -⟩
        · rw [hd]
        · simp [hd, hu]
        · rw [hd, List.mem_erase_of_ne hu]
    · have hcount := idle_of_effect he
      rw [hs.idle] at hcount
      omega

omit [DecidableEq τ] in
theorem roll_start {pc : τ → Pc} (hpc : ∀ t, Entry (pc t)) (jobNext : Nat → Option Nat) :
    Roll lim (init pc jobNext) ∧ Unborn (init pc jobNext) := by
  have hentry : ∀ t, busy (pc t) = false ∧ idling (pc t) = false := fun t => by
    rcases hpc t with h | h <;> rw [h] <;> exact ⟨rfl, rfl⟩
  refine ⟨⟨List.nodup_nil, fun t => ?_, ?_, ?_, le_max_right _ _⟩, fun t ht => ?_⟩
  · simp [init, Machine.start, hentry t]
  · have hnone := headcount_eq_zero_iff.mpr fun t => (hentry t).2
    simp [init, Machine.start, hnone]
  · have hnone : headcount (employed (init pc jobNext)) = 0 := headcount_eq_zero_iff.mpr fun t => by
      rcases hpc t with h | h <;> simp [employed, init, Machine.start, h, present]
    rw [hnone]
    rfl
  · rcases hpc t with h | h
    · exact h
    · simp [init, Machine.start, h] at ht

theorem roll_of_reaches {pc : τ → Pc} (hpc : ∀ t, Entry (pc t)) {jobNext : Nat → Option Nat}
    {C : State τ → Step τ → Prop} (h : Reaches (Machine.step (code lim)) C (init pc jobNext) s) :
    Roll lim s ∧ Unborn s := by
  refine h.invariant (I := fun s => Roll lim s ∧ Unborn s) (roll_start hpc jobNext)
    fun s e s' hs _ he => ?_
  cases e with
  | spurious c t =>
    obtain ⟨-, rfl⟩ := step_spurious he
    exact ⟨⟨hs.1.nodup, hs.1.active, hs.1.idle, hs.1.nthreads, hs.1.most⟩, hs.2⟩
  | run t c woken => exact ⟨hs.1.run hs.2 he, hs.2.run he⟩

end Counting

theorem maximum_le {minThreads maxThreads linger : UInt32} {lim : Limits}
    (h : thrPoolCreate minThreads maxThreads linger = some lim) : lim.maximum ≤ maxThreads.toNat := by
  unfold thrPoolCreate at h
  split at h
  next => simp at h
  next =>
    obtain rfl := Option.some.inj h
    show maxThreads.toBitVec.toInt ≤ maxThreads.toBitVec.toNat
    rw [BitVec.toInt_eq_toNat_cond]
    split <;> omega

/-- The counts of a pool are right at every point of its threads, and it has no more threads than it
may have, whichever jobs exit, time out or cannot be queued. -/
theorem accounts_kept [Fintype τ] {minThreads maxThreads linger : UInt32} {lim : Limits}
    (made : thrPoolCreate minThreads maxThreads linger = some lim) {pc : τ → Pc}
    (hpc : ∀ t, Entry (pc t)) {jobNext : Nat → Option Nat} {s : State τ}
    (h : Reaches (Machine.step (code lim)) (fun _ _ => True) (init pc jobNext) s) :
    Roll lim s ∧ headcount (employed s) ≤ maxThreads.toNat := by
  have hroll := (roll_of_reaches hpc h).1
  have hmost := hroll.most
  have hle := maximum_le made
  have hcount := hroll.nthreads
  exact ⟨hroll, by omega⟩

section Example

def oneClient : Fin 3 → Pc := ![.client .call, .worker .create, .worker .create]

theorem oneClient_entry : ∀ t, Entry (oneClient t) := by decide

def runs (t : Fin 3) (thread : Option (Fin 3)) (call : Call) : Step (Fin 3) :=
  .run t ⟨thread, true, call⟩ ∅

theorem accounts_kept_first : ∃ lim s, thrPoolCreate 1 2 60 = some lim ∧
    Reaches (Machine.step (code lim)) (fun _ _ => True) (init oneClient fun _ => none) s ∧
      s.data.active = [1] ∧ Roll lim s ∧ headcount (employed s) ≤ 2 := by
  have run : ∃ s, Reaches (Machine.step (code ⟨1, 2, 60⟩)) (fun _ _ => True)
      (init oneClient fun _ => none) s ∧ s.data.active = [1] :=
    exists_reaches (List.replicate 4 (runs 0 (some 1) .queue) ++
      List.replicate 5 (runs 1 none .queue)) (by decide)
  obtain ⟨s, hr, hactive⟩ := run
  have made : thrPoolCreate 1 2 60 = some ⟨1, 2, 60⟩ := by decide
  exact ⟨_, s, made, hr, hactive, accounts_kept made oneClient_entry hr⟩

end Example

end ThreadPool

end TcpAndParallel
