import Mathlib.Data.Set.Card
import TcpAndParallel.Chain
import TcpAndParallel.Custody
import TcpAndParallel.Monitors

namespace TcpAndParallel

namespace JobQueue

/-- The points of a thread that calls `enqueue_job` again and again. -/
inductive EnqueuePc
  | calloc | fill | lock | insert | post | unlock
  deriving DecidableEq

inductive LoggerPc
  | semWait | lock | take | advance | unlock | write | free
  deriving DecidableEq

inductive Pc
  | enqueue (p : EnqueuePc)
  | logger (p : LoggerPc)
  deriving DecidableEq

/-- What the environment decides: the arguments of a call, and whether memory is left. -/
structure Choice where
  message : List UInt8
  id : Int32
  memory : Bool

variable {τ : Type*} [DecidableEq τ]

/-- The shared data and the pointers `ptr` and `next_job` of the threads. A job is known by the
thread that made it and the number of the call. `enqueued` are the jobs that were put on the list
and `dequeued` those that the loggers took, each in order. -/
structure Jobs (τ : Type*) where
  head : Option (τ × Nat)
  tail : Option (τ × Nat)
  next : τ × Nat → Option (τ × Nat)
  msg : τ × Nat → List UInt8
  id : τ × Nat → Int32
  count : Nat
  hand : τ → Option (τ × Nat)
  calls : τ → Nat
  freed : τ × Nat → Bool
  enqueued : List (τ × Nat)
  dequeued : List (τ × Nat)

def initializeJobQueue (τ : Type*) : Jobs τ where
  head := none
  tail := none
  next _ := none
  msg _ := []
  id _ := 0
  count := 0
  hand _ := none
  calls _ := 0
  freed _ := false
  enqueued := []
  dequeued := []

abbrev Op (τ : Type*) := Instr τ Unit Empty (Jobs τ) Pc Choice

/-- `msg` has the size of a pointer; a longer message does not fit. -/
def fill (ptr : τ × Nat) (call : Choice) (d : Jobs τ) : Option (Jobs τ) :=
  if call.memory ∧ call.message.length < 8 then
    some { d with
      msg := Function.update d.msg ptr call.message
      id := Function.update d.id ptr call.id }
  else none

/-- The branch for the empty list has no `return`, so both parts are run. -/
def insert (ptr : τ × Nat) (d : Jobs τ) : Jobs τ :=
  let d := if d.head = none then
      { d with head := some ptr, tail := some ptr, next := Function.update d.next ptr none }
    else d
  { d with
    next := Function.update d.next ptr d.head
    head := some ptr
    enqueued := d.enqueued ++ [ptr] }

/-- `job_end = job_end->next`; there is no next job of a null or freed one. -/
def advance (job : τ × Nat) (d : Jobs τ) : Option (Jobs τ) :=
  match d.tail with
  | some j => if d.freed j then none else some { d with tail := d.next j, dequeued := d.dequeued ++ [job] }
  | none => none

@[simp] def enqueue : EnqueuePc → Op τ
  | .calloc => .act fun t call d =>
    if call.memory then some ({ d with
        hand := Function.update d.hand t (some (t, d.calls t))
        calls := Function.update d.calls t (d.calls t + 1)
        next := Function.update d.next (t, d.calls t) none }, .enqueue .fill)
    else none
  | .fill => .act fun t call d =>
    (d.hand t).bind fun ptr => (fill ptr call d).map fun d' => (d', .enqueue .lock)
  | .lock => .lock () (.enqueue .insert)
  | .insert => .act fun t _ d => (d.hand t).map fun ptr => (insert ptr d, .enqueue .post)
  | .post => .act fun _ _ d => some ({ d with count := d.count + 1 }, .enqueue .unlock)
  | .unlock => .unlock () (.enqueue .calloc)

@[simp] def logger : LoggerPc → Op τ
  | .semWait => .act fun _ _ d =>
    if d.count = 0 then none else some ({ d with count := d.count - 1 }, .logger .lock)
  | .lock => .lock () (.logger .take)
  | .take => .act fun t _ d =>
    some ({ d with hand := Function.update d.hand t d.tail }, .logger .advance)
  | .advance => .act fun t _ d =>
    (d.hand t).bind fun job => (advance job d).map fun d' => (d', .logger .unlock)
  | .unlock => .unlock () (.logger .write)
  | .write => .act fun t _ d =>
    (d.hand t).bind fun job => if d.freed job then none else some (d, .logger .free)
  | .free => .act fun t _ d => (d.hand t).map fun job =>
    ({ d with freed := Function.update d.freed job true }, .logger .semWait)

@[simp] def code : Pc → Op τ
  | .enqueue p => enqueue p
  | .logger p => logger p

abbrev State (τ : Type*) := Machine τ Unit Empty (Jobs τ) Pc

abbrev Step (τ : Type*) := Event τ Empty Choice

def Entry (p : Pc) : Prop := p = .enqueue .calloc ∨ p = .logger .semWait

instance (p : Pc) : Decidable (Entry p) := inferInstanceAs (Decidable (_ ∨ _))

def init (pc : τ → Pc) : State τ := .start pc (initializeJobQueue τ)

/-- All that a step on the data can do at a point, with the point after it. -/
inductive Effect (t : τ) (call : Choice) (d : Jobs τ) : Pc → Pc → Jobs τ → Prop
  | calloc : Effect t call d (.enqueue .calloc) (.enqueue .fill) { d with
      hand := Function.update d.hand t (some (t, d.calls t))
      calls := Function.update d.calls t (d.calls t + 1)
      next := Function.update d.next (t, d.calls t) none }
  | fill (msg : τ × Nat → List UInt8) (id : τ × Nat → Int32) :
      Effect t call d (.enqueue .fill) (.enqueue .lock) { d with msg := msg, id := id }
  | insert {ptr : τ × Nat} (h : d.hand t = some ptr) :
      Effect t call d (.enqueue .insert) (.enqueue .post) (insert ptr d)
  | post : Effect t call d (.enqueue .post) (.enqueue .unlock) { d with count := d.count + 1 }
  | semWait (h : d.count ≠ 0) :
      Effect t call d (.logger .semWait) (.logger .lock) { d with count := d.count - 1 }
  | take : Effect t call d (.logger .take) (.logger .advance)
      { d with hand := Function.update d.hand t d.tail }
  | advance {job j : τ × Nat} (h : d.hand t = some job) (hj : d.tail = some j) :
      Effect t call d (.logger .advance) (.logger .unlock)
        { d with tail := d.next j, dequeued := d.dequeued ++ [job] }
  | write : Effect t call d (.logger .write) (.logger .free) d
  | free (freed : τ × Nat → Bool) :
      Effect t call d (.logger .free) (.logger .semWait) { d with freed := freed }

theorem effect_of_act {t : τ} {call : Choice} {p q : Pc} {d d' : Jobs τ}
    {f : τ → Choice → Jobs τ → Option (Jobs τ × Pc)} (hf : code p = .act f)
    (hd : f t call d = some (d', q)) : Effect t call d p q d' := by
  cases p with
  | enqueue p =>
    cases p with
    | calloc =>
      obtain rfl := Instr.act.inj hf
      simp only at hd
      split at hd
      next =>
        obtain ⟨rfl, rfl⟩ := Prod.mk.inj (Option.some.inj hd)
        exact .calloc
      next => simp at hd
    | fill =>
      obtain rfl := Instr.act.inj hf
      obtain ⟨ptr, -, hd⟩ := Option.bind_eq_some_iff.mp hd
      obtain ⟨e, he, hd⟩ := Option.map_eq_some_iff.mp hd
      obtain ⟨rfl, rfl⟩ := Prod.mk.inj hd
      unfold fill at he
      split at he
      next =>
        obtain rfl := Option.some.inj he
        exact .fill _ _
      next => simp at he
    | insert =>
      obtain rfl := Instr.act.inj hf
      obtain ⟨ptr, hptr, hd⟩ := Option.map_eq_some_iff.mp hd
      obtain ⟨rfl, rfl⟩ := Prod.mk.inj hd
      exact .insert hptr
    | post =>
      obtain rfl := Instr.act.inj hf
      obtain ⟨rfl, rfl⟩ := Prod.mk.inj (Option.some.inj hd)
      exact .post
    | lock | unlock => simp at hf
  | logger p =>
    cases p with
    | semWait =>
      obtain rfl := Instr.act.inj hf
      simp only at hd
      split at hd
      next => simp at hd
      next h =>
        obtain ⟨rfl, rfl⟩ := Prod.mk.inj (Option.some.inj hd)
        exact .semWait h
    | take =>
      obtain rfl := Instr.act.inj hf
      obtain ⟨rfl, rfl⟩ := Prod.mk.inj (Option.some.inj hd)
      exact .take
    | advance =>
      obtain rfl := Instr.act.inj hf
      obtain ⟨job, hjob, hd⟩ := Option.bind_eq_some_iff.mp hd
      obtain ⟨e, he, hd⟩ := Option.map_eq_some_iff.mp hd
      obtain ⟨rfl, rfl⟩ := Prod.mk.inj hd
      unfold advance at he
      split at he
      next j hj =>
        split at he
        next => simp at he
        next =>
          obtain rfl := Option.some.inj he
          exact .advance hjob hj
      next => simp at he
    | write =>
      obtain rfl := Instr.act.inj hf
      obtain ⟨job, -, hd⟩ := Option.bind_eq_some_iff.mp hd
      split at hd
      next => simp at hd
      next =>
        obtain ⟨rfl, rfl⟩ := Prod.mk.inj (Option.some.inj hd)
        exact .write
    | free =>
      obtain rfl := Instr.act.inj hf
      obtain ⟨job, -, hd⟩ := Option.map_eq_some_iff.mp hd
      obtain ⟨rfl, rfl⟩ := Prod.mk.inj hd
      exact .free _
    | lock | unlock => simp at hf

theorem step_effect {s s' : State τ} {t : τ} {call : Choice} {woken : Finset τ}
    (h : s.step code (.run t call woken) = some s') :
    ∃ next, s'.pc = Function.update s.pc t next ∧
      ((code (s.pc t) : Op τ).next? = some next ∧ s'.data = s.data ∨
        Effect t call s.data (s.pc t) next s'.data) := by
  obtain ⟨-, next, hpc, hsync | ⟨f, hf, hd, -⟩⟩ := step_run h
  · exact ⟨next, hpc, .inl hsync⟩
  · exact ⟨next, hpc, .inr (effect_of_act hf hd)⟩

/-- Where a thread holds `job_queue_mutex`. -/
def critical : Pc → Bool
  | .enqueue p => (p matches .insert | .post | .unlock)
  | .logger p => (p matches .take | .advance | .unlock)

theorem guards : Guards (code (τ := τ)) (fun _ _ => True) () critical (fun _ => True) where
  sound p _ := by
    rcases p with p | p <;> cases p <;> simp [critical, Instr.hold]
  sync s t choice woken next _ _ hn := by
    generalize s.pc t = p at hn
    rcases p with p | p <;> cases p <;> simp [Instr.next?] at hn <;> subst hn <;>
      simp [critical, Instr.hold]
  act s t choice woken f d next _ _ hf hd := by
    have he := effect_of_act hf hd
    generalize s.pc t = p at he
    cases he <;> simp [critical]

theorem guarded {pc : τ → Pc} (hpc : ∀ t, Entry (pc t)) {C : State τ → Step τ → Prop} {s : State τ}
    (h : Reaches (Machine.step code) C (init pc) s) : Guarded () critical (fun _ => True) s := by
  apply guards.reaches (fun _ => trivial) (fun t => ?_) (h.mono fun _ _ _ => trivial)
  rcases hpc t with h | h <;> simp [h, critical]

end JobQueue

end TcpAndParallel
