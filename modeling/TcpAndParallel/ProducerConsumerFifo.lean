import TcpAndParallel.ProducerConsumer

namespace TcpAndParallel

namespace ProducerConsumer

variable {τ : Type*} [DecidableEq τ]

/-- What the statements of `queueAdd` or `queueDel` before the point have made of the ring. -/
def stage (size : Nat) (value : Int32) (p : Pc) (q : Ring) : Ring :=
  match p with
  | .producer .tailUp => q.store value
  | .producer .tailWrap => (q.store value).tailUp
  | .producer .markFull => (q.store value).tailUp.tailWrap size
  | .producer .clearEmpty => ((q.store value).tailUp.tailWrap size).markFull
  | .consumer .headWrap => q.headUp
  | .consumer .markEmpty => q.headUp.headWrap size
  | .consumer .clearFull => (q.headUp.headWrap size).markEmpty
  | _ => q

/-- What a thread inside knows of the values in the ring; `d` is what it has loaded. -/
def Knows (size : Nat) (xs : List Int32) (d : Int32) : Pc → Prop
  | .producer .wait => xs.length = size
  | .producer .call | .producer .store | .producer .tailUp | .producer .tailWrap
  | .producer .markFull | .producer .clearEmpty => xs.length < size
  | .consumer .wait => xs = []
  | .consumer .load => xs ≠ []
  | .consumer .headUp | .consumer .headWrap | .consumer .markEmpty | .consumer .clearFull =>
    xs.head? = some d
  | _ => True

/-- The ring of the last state outside, which holds the values added and not removed, and what
the thread inside has done to it. -/
structure Consistent (size : Nat) (s : State τ) (q : Ring) (xs : List Int32) : Prop where
  holds : q.Holds size xs
  line : s.data.added = s.data.removed ++ xs
  idle : (∀ t, critical (s.pc t) = false) → s.data.queue = q
  busy : ∀ t, critical (s.pc t) = true →
    s.data.queue = stage size (s.data.value t) (s.pc t) q ∧ Knows size xs (s.data.d t) (s.pc t)

variable {size : Nat} {t : τ} {d d' : Fifo τ} {p p' : Pc} {q : Ring} {xs : List Int32}

theorem effect_inside (h : Effect size t d p p' d') (hp : critical p = true) (hq : q.Holds size xs)
    (hline : d.added = d.removed ++ xs) (hstage : d.queue = stage size (d.value t) p q)
    (hknows : Knows size xs (d.d t) p) :
    ∃ q' xs', q'.Holds size xs' ∧ d'.added = d'.removed ++ xs' ∧
      d'.queue = stage size (d'.value t) p' q' ∧ Knows size xs' (d'.d t) p' := by
  cases h with
  | goes | leaves => simp [critical] at hp
  | full h =>
    refine ⟨q, xs, hq, hline, hstage, ?_⟩
    rw [hstage] at h
    exact hq.full.mp h
  | room h =>
    refine ⟨q, xs, hq, hline, hstage, ?_⟩
    rw [hstage] at h
    have hne : xs.length ≠ size := fun he => by simp [stage, hq.full.mpr he] at h
    exact lt_of_le_of_ne hq.fits hne
  | empty h =>
    refine ⟨q, xs, hq, hline, hstage, ?_⟩
    rw [hstage] at h
    exact List.length_eq_zero_iff.mp (hq.empty.mp h)
  | some h =>
    refine ⟨q, xs, hq, hline, hstage, ?_⟩
    rw [hstage] at h
    rintro rfl
    simp [stage, hq.empty.mpr rfl] at h
  | call => exact ⟨q, xs, hq, hline, hstage, hknows⟩
  | store => exact ⟨q, xs, hq, hline, congrArg (Ring.store (d.value t)) hstage, hknows⟩
  | load =>
    refine ⟨q, xs, hq, hline, hstage, ?_⟩
    cases xs with
    | nil => exact absurd rfl hknows
    | cons x xs =>
      have hx : q.load = x := (Ring.queueDel_holds hq).1
      have hload : d.queue.load = x := by
        rw [hstage]
        exact hx
      simp [Knows, hload]
  | write h =>
    cases h with
    | tailUp => exact ⟨q, xs, hq, hline, congrArg Ring.tailUp hstage, hknows⟩
    | tailWrap => exact ⟨q, xs, hq, hline, congrArg (Ring.tailWrap size) hstage, hknows⟩
    | markFull => exact ⟨q, xs, hq, hline, congrArg Ring.markFull hstage, hknows⟩
    | headUp => exact ⟨q, xs, hq, hline, congrArg Ring.headUp hstage, hknows⟩
    | headWrap => exact ⟨q, xs, hq, hline, congrArg (Ring.headWrap size) hstage, hknows⟩
    | markEmpty => exact ⟨q, xs, hq, hline, congrArg Ring.markEmpty hstage, hknows⟩
  | added =>
    refine ⟨q.queueAdd size (d.value t), xs ++ [d.value t], Ring.queueAdd_holds hq hknows, ?_, ?_,
      trivial⟩
    · show d.added ++ [d.value t] = d.removed ++ (xs ++ [d.value t])
      rw [hline, List.append_assoc]
    · exact congrArg Ring.clearEmpty hstage
  | removed =>
    cases xs with
    | nil => simp [Knows] at hknows
    | cons x xs =>
      obtain rfl : x = d.d t := by simpa [Knows] using hknows
      refine ⟨(q.queueDel size).2, xs, (Ring.queueDel_holds hq).2, ?_, ?_, trivial⟩
      · show d.added = d.removed ++ [d.d t] ++ xs
        rw [hline, List.append_assoc]
        rfl
      · exact congrArg Ring.clearFull hstage

variable (q xs) in
theorem stage_of_next (hn : (code size p : Op τ).next? = some p') (value d : Int32) :
    stage size value p q = q ∧ stage size value p' q = q ∧ Knows size xs d p' := by
  rcases p with p | p <;> cases p <;> simp [Instr.next?, branch, statement] at hn <;> subst hn <;>
    exact ⟨rfl, rfl, trivial⟩

omit [DecidableEq τ] in
theorem outside_of_inside {s : State τ} (hg : Guarded () critical (fun _ => True) s)
    (ht : critical (s.pc t) = true) {u : τ} (hu : u ≠ t) : critical (s.pc u) = false := by
  by_contra hcu
  have hot := (hg.owner t).mpr ht
  have hou := (hg.owner u).mpr (by simpa using hcu)
  exact hu (Option.some.inj (hou.symm.trans hot))

section Run

variable {s s' : State τ} {u : Unit} {woken : Finset τ}

/-- With the thread that steps outside before, and the others after, nobody was inside. -/
theorem outside_before (h : s.step (code size) (.run t u woken) = some s')
    (ht : ¬critical (s.pc t) = true) (others : ∀ v ≠ t, critical (s'.pc v) = false) (v : τ) :
    critical (s.pc v) = false := by
  by_cases hvt : v = t
  · rw [hvt]
    simpa using ht
  · rw [← pc_of_ne h hvt]
    exact others v hvt

theorem Consistent.instruction (hs : Consistent size s q xs)
    (hg' : Guarded () critical (fun _ => True) s')
    (h : s.step (code size) (.run t u woken) = some s')
    (hn : (code size (s.pc t) : Op τ).next? = some (s'.pc t)) (hd : s'.data = s.data) :
    Consistent size s' q xs := by
  have hqueue : (∀ v ≠ t, critical (s'.pc v) = false) → s.data.queue = q := by
    intro others
    by_cases ht : critical (s.pc t) = true
    · rw [(hs.busy t ht).1, (stage_of_next q xs hn (s.data.value t) (s.data.d t)).1]
    · exact hs.idle (outside_before h ht others)
  refine ⟨hs.holds, by rw [hd, hs.line], fun hno => ?_, fun v hv => ?_⟩
  · rw [hd]
    exact hqueue fun v _ => hno v
  · rw [hd]
    by_cases hvt : v = t
    · subst hvt
      obtain ⟨-, hafter, hknows⟩ := stage_of_next q xs hn (s.data.value v) (s.data.d v)
      refine ⟨?_, hknows⟩
      rw [hafter]
      exact hqueue fun w hw => outside_of_inside hg' hv hw
    · rw [pc_of_ne h hvt] at hv ⊢
      exact hs.busy v hv

theorem Consistent.inside (hs : Consistent size s q xs)
    (hg' : Guarded () critical (fun _ => True) s')
    (he : Effect size t s.data (s.pc t) (s'.pc t) s'.data) (ht : critical (s.pc t) = true) :
    ∃ q' xs', Consistent size s' q' xs' := by
  obtain ⟨hstage, hknows⟩ := hs.busy t ht
  obtain ⟨q', xs', hq', hline', hafter⟩ := effect_inside he ht hs.holds hs.line hstage hknows
  have hinside : critical (s'.pc t) = true := by rw [(critical_of_effect he).1, ht]
  refine ⟨q', xs', hq', hline', fun hno => ?_, fun v hv => ?_⟩
  · rw [hno t] at hinside
    exact absurd hinside (by simp)
  · by_cases hvt : v = t
    · subst hvt
      exact hafter
    · rw [outside_of_inside hg' hinside hvt] at hv
      exact absurd hv (by simp)

theorem Consistent.outside (hs : Consistent size s q xs)
    (h : s.step (code size) (.run t u woken) = some s')
    (he : Effect size t s.data (s.pc t) (s'.pc t) s'.data) (ht : ¬critical (s.pc t) = true) :
    Consistent size s' q xs := by
  obtain ⟨hcrit, hsame⟩ := critical_of_effect he
  have hd := hsame (by simpa using ht)
  refine ⟨hs.holds, by rw [hd, hs.line], fun hno => ?_, fun v hv => ?_⟩
  · rw [hd]
    exact hs.idle (outside_before h ht fun v _ => hno v)
  · rw [hd]
    have hvt : v ≠ t := by
      rintro rfl
      rw [hcrit] at hv
      exact ht hv
    rw [pc_of_ne h hvt] at hv ⊢
    exact hs.busy v hv

theorem Consistent.run (hs : Consistent size s q xs)
    (hg' : Guarded () critical (fun _ => True) s')
    (h : s.step (code size) (.run t u woken) = some s') : ∃ q' xs', Consistent size s' q' xs' := by
  obtain ⟨next, hpc, hcases⟩ := step_effect h
  have hnext : next = s'.pc t := by rw [hpc, Function.update_self]
  subst hnext
  rcases hcases with ⟨hn, hd⟩ | he
  · exact ⟨q, xs, hs.instruction hg' h hn hd⟩
  · by_cases ht : critical (s.pc t) = true
    · exact hs.inside hg' he ht
    · exact ⟨q, xs, hs.outside h he ht⟩

end Run

theorem consistent {pc : τ → Pc} (hsize : 1 ≤ size) (hpc : ∀ t, Entry (pc t)) {buf : Nat → Int32}
    {s : State τ} (h : Reaches (Machine.step (code size)) (fun _ _ => True) (init pc buf) s) :
    ∃ q xs, Consistent size s q xs := by
  induction h with
  | start =>
    refine ⟨Ring.queueInit buf, [], Ring.queueInit_holds buf hsize, rfl, fun _ => rfl, fun t ht => ?_⟩
    rcases hpc t with h | h <;> simp [init, Machine.start, h, critical] at ht
  | @next s s' e hr _ he ih =>
    obtain ⟨q, xs, hs⟩ := ih
    cases e with
    | spurious c t =>
      obtain ⟨-, rfl⟩ := step_spurious he
      exact ⟨q, xs, hs.holds, hs.line, hs.idle, hs.busy⟩
    | run t u woken => exact hs.run (guarded hpc (hr.next trivial he)) he

/-- The values wait in order of arrival; outside the critical sections the ring holds them, with
`empty` and `full` as they should be, and inside no access leaves the buffer. -/
structure BoundedFifo (size : Nat) (s : State τ) : Prop where
  waiting : ∃ xs, s.data.added = s.data.removed ++ xs ∧ xs.length ≤ size ∧
    ((∀ t, critical (s.pc t) = false) → s.data.queue.Holds size xs)
  store : ∀ t, s.pc t = .producer .store → s.data.queue.tail < size
  load : ∀ t, s.pc t = .consumer .load → s.data.queue.head < size

omit [DecidableEq τ] in
theorem Consistent.boundedFifo {s : State τ} (hs : Consistent size s q xs) : BoundedFifo size s := by
  refine ⟨⟨xs, hs.line, hs.holds.fits, fun hno => ?_⟩, fun t ht => ?_, fun t ht => ?_⟩
  · rw [hs.idle hno]
    exact hs.holds
  · have hq := (hs.busy t (by rw [ht]; rfl)).1
    rw [ht] at hq
    rw [hq]
    exact hs.holds.tail_lt
  · have hq := (hs.busy t (by rw [ht]; rfl)).1
    rw [ht] at hq
    rw [hq]
    exact hs.holds.head_lt

def history (s : State τ) : List Int32 × List Int32 := (s.data.added, s.data.removed)

theorem Consistent.fifoStep {s s' : State τ} {e : Step τ} (hs : Consistent size s q xs)
    (h : s.step (code size) e = some s') : FifoStep size (history s) (history s') := by
  cases e with
  | spurious c t =>
    obtain ⟨-, rfl⟩ := step_spurious h
    exact .stay _
  | run t u woken =>
    obtain ⟨next, -, ⟨-, hd⟩ | he⟩ := step_effect h
    · unfold history
      rw [hd]
      exact .stay _
    · unfold history
      have hbusy := hs.busy t
      have hline := hs.line
      generalize s.pc t = p at he hbusy
      generalize s'.data = d' at he
      cases he with
      | added =>
        have hroom : xs.length < size := (hbusy rfl).2
        apply FifoStep.add
        rw [hline, List.length_append]
        omega
      | removed =>
        have hfirst : xs.head? = some (s.data.d t) := (hbusy rfl).2
        apply FifoStep.remove
        obtain ⟨rest, rfl⟩ := List.head?_eq_some_iff.mp hfirst
        exact ⟨rest, by rw [hline]; simp⟩
      | write h => exact .stay _
      | _ => exact .stay _

/-- The threads refine a bounded FIFO queue: the values of a reached state wait as in the queue,
and a step adds a value that has room, removes the one that is due, or does neither. -/
theorem refines_fifo {size : Nat} (hsize : 1 ≤ size) {pc : τ → Pc} (hpc : ∀ t, Entry (pc t))
    {buf : Nat → Int32} {s : State τ}
    (h : Reaches (Machine.step (code size)) (fun _ _ => True) (init pc buf) s) :
    BoundedFifo size s ∧
      ∀ e s', s.step (code size) e = some s' → FifoStep size (history s) (history s') := by
  obtain ⟨q, xs, hs⟩ := consistent hsize hpc h
  exact ⟨hs.boundedFifo, fun e s' he => hs.fifoStep he⟩

abbrev pair (t : Fin 2) : Pc := if t.val = 0 then .producer .test else .consumer .lock

/-- With room for one value, the second waits until the first is removed. -/
theorem refines_fifo_once : ∃ s, Reaches (Machine.step (code 1)) (fun _ _ => True)
    (init pair fun _ => 0) s ∧
      (s.data.added = [0, 1] ∧ s.data.removed = [0] ∧ s.data.queue.full = true) ∧
        BoundedFifo 1 s := by
  have run : ∃ s, Reaches (Machine.step (code 1)) (fun _ _ => True) (init pair fun _ => 0) s ∧
      s.data.added = [0, 1] ∧ s.data.removed = [0] ∧ s.data.queue.full = true :=
    exists_reaches (List.replicate 15 (go 0) ++ List.replicate 7 (go 1) ++ [.run 1 () {0}, go 1] ++
      List.replicate 8 (go 0)) (by decide)
  obtain ⟨s, hs, hp⟩ := run
  exact ⟨s, hs, hp, (refines_fifo (le_refl 1) (by decide) hs).1⟩

end ProducerConsumer

end TcpAndParallel
