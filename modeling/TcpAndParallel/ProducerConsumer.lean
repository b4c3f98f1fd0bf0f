import TcpAndParallel.Monitors
import TcpAndParallel.RingQueue

namespace TcpAndParallel

/-- A bounded FIFO queue by its history: the values added and the values removed so far. -/
inductive FifoStep {α : Type*} (size : Nat) : List α × List α → List α × List α → Prop
  | stay (h : List α × List α) : FifoStep size h h
  | add {added removed : List α} (v : α) (room : added.length < removed.length + size) :
      FifoStep size (added, removed) (added ++ [v], removed)
  | remove {added removed : List α} (v : α) (due : removed ++ [v] <+: added) :
      FifoStep size (added, removed) (added, removed ++ [v])

namespace ProducerConsumer

inductive Cond
  | notFull
  | notEmpty
  deriving DecidableEq

instance : Fintype Cond := ⟨{.notFull, .notEmpty}, by rintro (_ | _) <;> simp⟩

/-- The points of `producer`, with those of `queueAdd` from `store` to `clearEmpty`; `call` takes
the argument `i++`. -/
inductive ProducerPc
  | test | lock | full | wait | wake | call | store | tailUp | tailWrap | markFull | clearEmpty
  | unlock | signal | exit
  deriving DecidableEq

/-- The points of `consumer`, with those of `queueDel` from `load` to `clearFull`. -/
inductive ConsumerPc
  | lock | empty | wait | wake | load | headUp | headWrap | markEmpty | clearFull | signal | unlock
  deriving DecidableEq

inductive Pc
  | producer (p : ProducerPc)
  | consumer (p : ConsumerPc)
  deriving DecidableEq

/-- The queue and the threads' locals. `added` are the values of the calls of `queueAdd` that are
over and `removed` those that calls of `queueDel` have handed out, each in order. -/
structure Fifo (τ : Type*) where
  queue : Ring
  i : τ → Int32
  value : τ → Int32
  d : τ → Int32
  added : List Int32
  removed : List Int32

variable {τ : Type*} [DecidableEq τ]

abbrev Op (τ : Type*) := Instr τ Unit Cond (Fifo τ) Pc Unit

def branch (next : τ → Fifo τ → Pc) : Op τ := .act fun t _ d => some (d, next t d)

def statement (f : τ → Fifo τ → Fifo τ) (next : Pc) : Op τ := .act fun t _ d => some (f t d, next)

def onQueue (f : Ring → Ring) : τ → Fifo τ → Fifo τ := fun _ d => { d with queue := f d.queue }

@[simp] def producer (size : Nat) : ProducerPc → Op τ
  | .test => branch fun t d => if d.i t < 4 then .producer .lock else .producer .exit
  | .lock => .lock () (.producer .full)
  | .full => branch fun _ d => if d.queue.full then .producer .wait else .producer .call
  | .wait => .wait .notFull () (.producer .wake)
  | .wake => .lock () (.producer .full)
  | .call => statement (fun t d => { d with
      value := Function.update d.value t (d.i t)
      i := Function.update d.i t (d.i t + 1) }) (.producer .store)
  | .store => statement (fun t d => { d with queue := d.queue.store (d.value t) }) (.producer .tailUp)
  | .tailUp => statement (onQueue Ring.tailUp) (.producer .tailWrap)
  | .tailWrap => statement (onQueue (Ring.tailWrap size)) (.producer .markFull)
  | .markFull => statement (onQueue Ring.markFull) (.producer .clearEmpty)
  | .clearEmpty => statement (fun t d => { d with
      queue := d.queue.clearEmpty
      added := d.added ++ [d.value t] }) (.producer .unlock)
  | .unlock => .unlock () (.producer .signal)
  | .signal => .signal .notEmpty (.producer .test)
  | .exit => .halt

@[simp] def consumer (size : Nat) : ConsumerPc → Op τ
  | .lock => .lock () (.consumer .empty)
  | .empty => branch fun _ d => if d.queue.empty then .consumer .wait else .consumer .load
  | .wait => .wait .notEmpty () (.consumer .wake)
  | .wake => .lock () (.consumer .empty)
  | .load => statement (fun t d => { d with d := Function.update d.d t d.queue.load })
      (.consumer .headUp)
  | .headUp => statement (onQueue Ring.headUp) (.consumer .headWrap)
  | .headWrap => statement (onQueue (Ring.headWrap size)) (.consumer .markEmpty)
  | .markEmpty => statement (onQueue Ring.markEmpty) (.consumer .clearFull)
  | .clearFull => statement (fun t d => { d with
      queue := d.queue.clearFull
      removed := d.removed ++ [d.d t] }) (.consumer .signal)
  | .signal => .signal .notFull (.consumer .unlock)
  | .unlock => .unlock () (.consumer .lock)

@[simp] def code (size : Nat) : Pc → Op τ
  | .producer p => producer size p
  | .consumer p => consumer size p

abbrev State (τ : Type*) := Machine τ Unit Cond (Fifo τ) Pc

abbrev Step (τ : Type*) := Event τ Cond Unit

def Entry (p : Pc) : Prop := p = .producer .test ∨ p = .consumer .lock

instance (p : Pc) : Decidable (Entry p) := inferInstanceAs (Decidable (_ ∨ _))

/-- The values that the locals `value` and `d` have before they are set do not matter. -/
def init (pc : τ → Pc) (buf : Nat → Int32) : State τ :=
  .start pc ⟨Ring.queueInit buf, fun _ => 0, fun _ => 0, fun _ => 0, [], []⟩

/-- The statements that change nothing but the ring. -/
inductive Write (size : Nat) : Pc → Pc → (Ring → Ring) → Prop
  | tailUp : Write size (.producer .tailUp) (.producer .tailWrap) Ring.tailUp
  | tailWrap : Write size (.producer .tailWrap) (.producer .markFull) (Ring.tailWrap size)
  | markFull : Write size (.producer .markFull) (.producer .clearEmpty) Ring.markFull
  | headUp : Write size (.consumer .headUp) (.consumer .headWrap) Ring.headUp
  | headWrap : Write size (.consumer .headWrap) (.consumer .markEmpty) (Ring.headWrap size)
  | markEmpty : Write size (.consumer .markEmpty) (.consumer .clearFull) Ring.markEmpty

/-- All that a step on the data can do at a point, with the point after it. -/
inductive Effect (size : Nat) (t : τ) (d : Fifo τ) : Pc → Pc → Fifo τ → Prop
  | goes : Effect size t d (.producer .test) (.producer .lock) d
  | leaves : Effect size t d (.producer .test) (.producer .exit) d
  | full (h : d.queue.full = true) : Effect size t d (.producer .full) (.producer .wait) d
  | room (h : d.queue.full = false) : Effect size t d (.producer .full) (.producer .call) d
  | empty (h : d.queue.empty = true) : Effect size t d (.consumer .empty) (.consumer .wait) d
  | some (h : d.queue.empty = false) : Effect size t d (.consumer .empty) (.consumer .load) d
  | call : Effect size t d (.producer .call) (.producer .store) { d with
      value := Function.update d.value t (d.i t)
      i := Function.update d.i t (d.i t + 1) }
  | store : Effect size t d (.producer .store) (.producer .tailUp) { d with
      queue := d.queue.store (d.value t) }
  | load : Effect size t d (.consumer .load) (.consumer .headUp) { d with
      d := Function.update d.d t d.queue.load }
  | write {p q : Pc} {f : Ring → Ring} (h : Write size p q f) :
      Effect size t d p q { d with queue := f d.queue }
  | added : Effect size t d (.producer .clearEmpty) (.producer .unlock) { d with
      queue := d.queue.clearEmpty
      added := d.added ++ [d.value t] }
  | removed : Effect size t d (.consumer .clearFull) (.consumer .signal) { d with
      queue := d.queue.clearFull
      removed := d.removed ++ [d.d t] }

section Inversion

variable {size : Nat} {t : τ} {u : Unit} {p q : Pc} {d d' : Fifo τ}
  {f : τ → Unit → Fifo τ → Option (Fifo τ × Pc)}

omit [DecidableEq τ] in
theorem branch_cases {next : τ → Fifo τ → Pc} (hf : branch next = .act f)
    (hd : f t u d = some (d', q)) : d' = d ∧ q = next t d := by
  obtain rfl := Instr.act.inj hf
  obtain ⟨rfl, rfl⟩ := Prod.mk.inj (Option.some.inj hd)
  exact ⟨rfl, rfl⟩

omit [DecidableEq τ] in
theorem statement_cases {g : τ → Fifo τ → Fifo τ} {next : Pc} (hf : statement g next = .act f)
    (hd : f t u d = some (d', q)) : d' = g t d ∧ q = next := by
  obtain rfl := Instr.act.inj hf
  obtain ⟨rfl, rfl⟩ := Prod.mk.inj (Option.some.inj hd)
  exact ⟨rfl, rfl⟩

theorem effect_of_act (hf : code size p = .act f) (hd : f t u d = some (d', q)) :
    Effect size t d p q d' := by
  cases p with
  | producer p =>
    cases p with
    | test =>
      obtain ⟨rfl, rfl⟩ := branch_cases hf hd
      split
      next => exact .goes
      next => exact .leaves
    | full =>
      obtain ⟨rfl, rfl⟩ := branch_cases hf hd
      split
      next h => exact .full h
      next h => exact .room (by simpa using h)
    | call =>
      obtain ⟨rfl, rfl⟩ := statement_cases hf hd
      exact .call
    | store =>
      obtain ⟨rfl, rfl⟩ := statement_cases hf hd
      exact .store
    | tailUp =>
      obtain ⟨rfl, rfl⟩ := statement_cases hf hd
      exact .write .tailUp
    | tailWrap =>
      obtain ⟨rfl, rfl⟩ := statement_cases hf hd
      exact .write .tailWrap
    | markFull =>
      obtain ⟨rfl, rfl⟩ := statement_cases hf hd
      exact .write .markFull
    | clearEmpty =>
      obtain ⟨rfl, rfl⟩ := statement_cases hf hd
      exact .added
    | lock | wait | wake | unlock | signal | exit => simp at hf
  | consumer p =>
    cases p with
    | empty =>
      obtain ⟨rfl, rfl⟩ := branch_cases hf hd
      split
      next h => exact .empty h
      next h => exact .some (by simpa using h)
    | load =>
      obtain ⟨rfl, rfl⟩ := statement_cases hf hd
      exact .load
    | headUp =>
      obtain ⟨rfl, rfl⟩ := statement_cases hf hd
      exact .write .headUp
    | headWrap =>
      obtain ⟨rfl, rfl⟩ := statement_cases hf hd
      exact .write .headWrap
    | markEmpty =>
      obtain ⟨rfl, rfl⟩ := statement_cases hf hd
      exact .write .markEmpty
    | clearFull =>
      obtain ⟨rfl, rfl⟩ := statement_cases hf hd
      exact .removed
    | lock | wait | wake | signal | unlock => simp at hf

end Inversion

theorem step_effect {size : Nat} {s s' : State τ} {t : τ} {u : Unit} {woken : Finset τ}
    (h : s.step (code size) (.run t u woken) = some s') :
    ∃ next, s'.pc = Function.update s.pc t next ∧
      ((code size (s.pc t) : Op τ).next? = some next ∧ s'.data = s.data ∨
        Effect size t s.data (s.pc t) next s'.data) := by
  obtain ⟨-, next, hpc, hsync | ⟨f, hf, hd, -⟩⟩ := step_run h
  · exact ⟨next, hpc, .inl hsync⟩
  · exact ⟨next, hpc, .inr (effect_of_act hf hd)⟩

/-- Where a thread holds `mut`. -/
def critical : Pc → Bool
  | .producer p => (p matches .full | .wait | .call | .store | .tailUp | .tailWrap | .markFull |
      .clearEmpty | .unlock)
  | .consumer p => (p matches .empty | .wait | .load | .headUp | .headWrap | .markEmpty |
      .clearFull | .signal | .unlock)

theorem critical_of_effect {size : Nat} {t : τ} {p q : Pc} {d d' : Fifo τ}
    (h : Effect size t d p q d') : critical q = critical p ∧ (critical p = false → d' = d) := by
  cases h with
  | write h => cases h <;> exact ⟨rfl, by simp [critical]⟩
  | _ => exact ⟨rfl, by simp [critical]⟩

theorem guards (size : Nat) : Guards (code (τ := τ) size) (fun _ _ => True) () critical
    (fun _ => True) where
  sound p _ := by
    rcases p with p | p <;> cases p <;> simp [critical, Instr.hold, branch, statement]
  sync s t choice woken next _ _ hn := by
    generalize s.pc t = p at hn
    rcases p with p | p <;> cases p <;>
      simp [Instr.next?, branch, statement] at hn <;> subst hn <;> simp [critical, Instr.hold]
  act s t choice woken f d next _ _ hf hd := ⟨(critical_of_effect (effect_of_act hf hd)).1, trivial⟩

theorem guarded {size : Nat} {pc : τ → Pc} (hpc : ∀ t, Entry (pc t)) {buf : Nat → Int32} {s : State τ}
    (h : Reaches (Machine.step (code size)) (fun _ _ => True) (init pc buf) s) :
    Guarded () critical (fun _ => True) s := by
  apply (guards size).reaches (fun _ => trivial) (fun t => ?_) h
  rcases hpc t with h | h <;> simp [h, critical]

abbrev go (t : τ) : Step τ := .run t () ∅

end ProducerConsumer

end TcpAndParallel
