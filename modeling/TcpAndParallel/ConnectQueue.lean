import TcpAndParallel.Chain
import TcpAndParallel.Custody
import TcpAndParallel.Monitors

namespace TcpAndParallel

namespace ConnectQueue

/-- The points of a thread that calls `queue_connection` again and again; the loop in it returns
in its first round. -/
inductive GatePc
  | calloc | fill | lock | insert | broadcast | unlock
  deriving DecidableEq

/-- The points of `servlet`; `retry` is the test of the outer loop and `check` that of the inner. -/
inductive ServletPc
  | lock | retry | check | wait | wake | remove | count | stamp | respond | unlock | write
  deriving DecidableEq

inductive Pc
  | gate (p : GatePc)
  | servlet (p : ServletPc)
  deriving DecidableEq

/-- The client of a call, and whether memory is left. -/
structure Choice where
  clientFd : Int32
  memory : Bool

/-- The connect queue and the pointers `ptr` and `next_connect` of the threads. A connection is
known by the thread that queued it and the number of the call. `fault` says that a null pointer
was followed; `queued`, `removed` and `responded` are the connections so far, in order. -/
structure Server (τ : Type*) where
  first : Option (τ × Nat)
  last : Option (τ × Nat)
  next : τ × Nat → Option (τ × Nat)
  prev : τ × Nat → Option (τ × Nat)
  clientFd : τ × Nat → Int32
  sharedData : Int32
  queuePredicate : Bool
  retries : τ → Int32
  hand : τ → Option (τ × Nat)
  calls : τ → Nat
  fault : Bool
  queued : List (τ × Nat)
  removed : List (τ × Nat)
  responded : List (τ × Nat)

def start (τ : Type*) : Server τ where
  first := none
  last := none
  next _ := none
  prev _ := none
  clientFd _ := 0
  sharedData := 0
  queuePredicate := false
  retries _ := 2
  hand _ := none
  calls _ := 0
  fault := false
  queued := []
  removed := []
  responded := []

variable {τ : Type*} [DecidableEq τ]

abbrev Op (τ : Type*) := Instr τ Unit Unit (Server τ) Pc Choice

def calloc (t : τ) (d : Server τ) : Server τ :=
  { d with
    hand := Function.update d.hand t (some (t, d.calls t))
    calls := Function.update d.calls t (d.calls t + 1)
    next := Function.update d.next (t, d.calls t) none
    prev := Function.update d.prev (t, d.calls t) none }

/-- Without memory `ptr->client_fd` follows the null pointer. -/
def callocFails (t : τ) (d : Server τ) : Server τ :=
  { d with hand := Function.update d.hand t none, fault := true }

def insert (ptr : τ × Nat) (d : Server τ) : Server τ :=
  let d := match d.last with
    | some l => { d with
        next := Function.update d.next l (some ptr)
        prev := Function.update d.prev ptr (some l)
        last := some ptr }
    | none => { d with first := some ptr, last := some ptr }
  { d with sharedData := d.sharedData + 1, queuePredicate := true, queued := d.queued ++ [ptr] }

/-- `next_connect = first; first = next_connect->prev; first->prev = last`. -/
def remove (t : τ) (d : Server τ) : Server τ :=
  match d.first with
  | none => { d with fault := true }
  | some n =>
    match d.prev n with
    | none => { d with
        hand := Function.update d.hand t (some n)
        first := none
        removed := d.removed ++ [n]
        fault := true }
    | some m => { d with
        hand := Function.update d.hand t (some n)
        first := some m
        prev := Function.update d.prev m d.last
        removed := d.removed ++ [n] }

def countDown (d : Server τ) : Server τ :=
  { d with
    sharedData := d.sharedData - 1
    queuePredicate := if d.sharedData - 1 = 0 then false else d.queuePredicate }

@[simp] def gate : GatePc → Op τ
  | .calloc => .act fun t call d =>
    some (if call.memory then calloc t d else callocFails t d, .gate .fill)
  | .fill => .act fun t call d => (d.hand t).map fun ptr =>
    ({ d with clientFd := Function.update d.clientFd ptr call.clientFd }, .gate .lock)
  | .lock => .lock () (.gate .insert)
  | .insert => .act fun t _ d => (d.hand t).map fun ptr => (insert ptr d, .gate .broadcast)
  | .broadcast => .broadcast () (.gate .unlock)
  | .unlock => .unlock () (.gate .calloc)

/-- At `write` the log line is printed into the literal `""`, which ends the program. -/
@[simp] def servlet : ServletPc → Op τ
  | .lock => .lock () (.servlet .retry)
  | .retry => .act fun t _ d => some ({ d with
      retries := Function.update d.retries t (d.retries t - 1) },
    if d.retries t ≠ 0 then .servlet .check else .servlet .stamp)
  | .check => .act fun _ _ d =>
    some (d, if d.queuePredicate then .servlet .remove else .servlet .wait)
  | .wait => .wait () () (.servlet .wake)
  | .wake => .lock () (.servlet .check)
  | .remove => .act fun t _ d => some (remove t d, .servlet .count)
  | .count => .act fun _ _ d => some (countDown d, .servlet .retry)
  | .stamp => .act fun t _ d => (d.hand t).map fun _ => (d, .servlet .respond)
  | .respond => .act fun t _ d => (d.hand t).map fun n =>
    ({ d with responded := d.responded ++ [n] }, .servlet .unlock)
  | .unlock => .unlock () (.servlet .write)
  | .write => .halt

@[simp] def code : Pc → Op τ
  | .gate p => gate p
  | .servlet p => servlet p

abbrev State (τ : Type*) := Machine τ Unit Unit (Server τ) Pc

abbrev Step (τ : Type*) := Event τ Unit Choice

def Entry (p : Pc) : Prop := p = .gate .calloc ∨ p = .servlet .lock

instance (p : Pc) : Decidable (Entry p) := inferInstanceAs (Decidable (_ ∨ _))

def init (pc : τ → Pc) : State τ := .start pc (start τ)

/-- All that a step on the data can do at a point, with the point after it. -/
inductive Effect (t : τ) (call : Choice) (d : Server τ) : Pc → Pc → Server τ → Prop
  | calloc (h : call.memory = true) : Effect t call d (.gate .calloc) (.gate .fill) (calloc t d)
  | noMemory (h : call.memory = false) :
      Effect t call d (.gate .calloc) (.gate .fill) (callocFails t d)
  | fill (clientFd : τ × Nat → Int32) :
      Effect t call d (.gate .fill) (.gate .lock) { d with clientFd := clientFd }
  | insert {ptr : τ × Nat} (h : d.hand t = some ptr) :
      Effect t call d (.gate .insert) (.gate .broadcast) (insert ptr d)
  | retry (h : d.retries t ≠ 0) : Effect t call d (.servlet .retry) (.servlet .check)
      { d with retries := Function.update d.retries t (d.retries t - 1) }
  | leaves (h : d.retries t = 0) : Effect t call d (.servlet .retry) (.servlet .stamp)
      { d with retries := Function.update d.retries t (d.retries t - 1) }
  | some : Effect t call d (.servlet .check) (.servlet .remove) d
  | empty : Effect t call d (.servlet .check) (.servlet .wait) d
  | remove : Effect t call d (.servlet .remove) (.servlet .count) (remove t d)
  | count : Effect t call d (.servlet .count) (.servlet .retry) (countDown d)
  | stamp : Effect t call d (.servlet .stamp) (.servlet .respond) d
  | respond {n : τ × Nat} (h : d.hand t = some n) : Effect t call d (.servlet .respond) (.servlet .unlock)
      { d with responded := d.responded ++ [n] }

theorem effect_of_act {t : τ} {call : Choice} {p q : Pc} {d d' : Server τ}
    {f : τ → Choice → Server τ → Option (Server τ × Pc)} (hf : code p = .act f)
    (hd : f t call d = some (d', q)) : Effect t call d p q d' := by
  cases p with
  | gate p =>
    cases p with
    | calloc =>
      obtain rfl := Instr.act.inj hf
      obtain ⟨rfl, rfl⟩ := Prod.mk.inj (Option.some.inj hd)
      split
      next h => exact .calloc h
      next h => exact .noMemory (by simpa using h)
    | fill =>
      obtain rfl := Instr.act.inj hf
      obtain ⟨ptr, -, hd⟩ := Option.map_eq_some_iff.mp hd
      obtain ⟨rfl, rfl⟩ := Prod.mk.inj hd
      exact .fill _
    | insert =>
      obtain rfl := Instr.act.inj hf
      obtain ⟨ptr, hptr, hd⟩ := Option.map_eq_some_iff.mp hd
      obtain ⟨rfl, rfl⟩ := Prod.mk.inj hd
      exact .insert hptr
    | lock | broadcast | unlock => simp at hf
  | servlet p =>
    cases p with
    | retry =>
      obtain rfl := Instr.act.inj hf
      obtain ⟨rfl, rfl⟩ := Prod.mk.inj (Option.some.inj hd)
      split
      next h => exact .retry h
      next h => exact .leaves (not_not.mp h)
    | check =>
      obtain rfl := Instr.act.inj hf
      obtain ⟨rfl, rfl⟩ := Prod.mk.inj (Option.some.inj hd)
      split
      next => exact .some
      next => exact .empty
    | remove =>
      obtain rfl := Instr.act.inj hf
      obtain ⟨rfl, rfl⟩ := Prod.mk.inj (Option.some.inj hd)
      exact .remove
    | count =>
      obtain rfl := Instr.act.inj hf
      obtain ⟨rfl, rfl⟩ := Prod.mk.inj (Option.some.inj hd)
      exact .count
    | stamp =>
      obtain rfl := Instr.act.inj hf
      obtain ⟨n, -, hd⟩ := Option.map_eq_some_iff.mp hd
      obtain ⟨rfl, rfl⟩ := Prod.mk.inj hd
      exact .stamp
    | respond =>
      obtain rfl := Instr.act.inj hf
      obtain ⟨n, hn, hd⟩ := Option.map_eq_some_iff.mp hd
      obtain ⟨rfl, rfl⟩ := Prod.mk.inj hd
      exact .respond hn
    | lock | wait | wake | unlock | write => simp at hf

theorem step_effect {s s' : State τ} {t : τ} {call : Choice} {woken : Finset τ}
    (h : s.step code (.run t call woken) = some s') :
    ∃ next, s'.pc = Function.update s.pc t next ∧
      ((code (s.pc t) : Op τ).next? = some next ∧ s'.data = s.data ∨
        Effect t call s.data (s.pc t) next s'.data) := by
  obtain ⟨-, next, hpc, hsync | ⟨f, hf, hd, -⟩⟩ := step_run h
  · exact ⟨next, hpc, .inl hsync⟩
  · exact ⟨next, hpc, .inr (effect_of_act hf hd)⟩

end ConnectQueue

end TcpAndParallel
