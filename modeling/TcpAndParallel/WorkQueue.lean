import TcpAndParallel.Chain
import TcpAndParallel.Runs

namespace TcpAndParallel

variable {α : Type*}

/-- `queue`: the head and the tail of a list of nodes, whose links lie in the nodes. -/
structure Queue (α : Type*) where
  head : Option α
  tail : Option α
  deriving DecidableEq

def queueInit : Queue α := ⟨none, none⟩

/-- "Put to the front of the list." Yields the links and the root after the call. -/
def queuePut [DecidableEq α] (next : α → Option α) (myroot : Queue α) (mynode : α) :
    (α → Option α) × Queue α :=
  (Function.update next mynode myroot.head,
    { head := some mynode, tail := if myroot.tail ≠ none then some mynode else myroot.tail })

/-- "Get from front of list." -/
def queueGet (next : α → Option α) (myroot : Queue α) : Option α × Queue α :=
  match myroot.head with
  | none => (none, myroot)
  | some mynode => (some mynode, { myroot with head := next mynode })

def Queue.Holds (next : α → Option α) (q : Queue α) (xs : List α) : Prop := Chain next q.head xs

theorem queueInit_holds (next : α → Option α) : (queueInit : Queue α).Holds next [] := rfl

theorem queuePut_holds [DecidableEq α] {next : α → Option α} {q : Queue α} {xs : List α} {x : α}
    (h : q.Holds next xs) (hx : x ∉ xs) :
    (queuePut next q x).2.Holds (queuePut next q x).1 (x :: xs) := h.push hx

theorem queueGet_holds {next : α → Option α} {q : Queue α} {xs : List α} (h : q.Holds next xs) :
    (queueGet next q).1 = xs.head? ∧ (queueGet next q).2.Holds next xs.tail := by
  have hhead := h.head_eq
  cases xs with
  | nil =>
    rw [queueGet, hhead]
    exact ⟨rfl, hhead⟩
  | cons x xs =>
    rw [queueGet, hhead]
    exact ⟨rfl, h.2⟩

theorem queuePut_frame [DecidableEq α] {next : α → Option α} {q r : Queue α} {ys : List α} {x : α}
    (h : r.Holds next ys) (hx : x ∉ ys) : r.Holds (queuePut next q x).1 ys :=
  h.update_of_notMem hx

inductive QueueOp (α : Type*)
  | put (x : α)
  | get
  deriving DecidableEq

/-- The queue beside the list of waiting nodes, the oldest first, that a FIFO queue would hold;
`got` and `due` are what the last call returned and what it should have. -/
structure Service (α : Type*) where
  next : α → Option α
  root : Queue α
  waiting : List α
  got : Option α
  due : Option α

def Service.start (next : α → Option α) : Service α := ⟨next, queueInit, [], none, none⟩

def Service.call [DecidableEq α] (s : Service α) : QueueOp α → Except Empty (Service α)
  | .put x => .ok ⟨(queuePut s.next s.root x).1, (queuePut s.next s.root x).2, s.waiting ++ [x], none, none⟩
  | .get => .ok ⟨s.next, (queueGet s.next s.root).2, s.waiting.tail, (queueGet s.next s.root).1,
      s.waiting.head?⟩

/-- The last call returned what was due, and the root and the links show the waiting nodes in
order of arrival. -/
structure Fifo (s : Service α) : Prop where
  returned : s.got = s.due
  head : s.root.head = s.waiting.head?
  tail : s.root.tail = s.waiting.getLast?
  links : s.root.Holds s.next s.waiting

structure Untouched (s : Service α) : Prop where
  root : s.root = queueInit
  waiting : s.waiting = []
  returned : s.got = s.due

theorem Untouched.fifo {s : Service α} (h : Untouched s) : Fifo s := by
  refine ⟨h.returned, ?_, ?_, ?_⟩
  · simp [h.root, h.waiting, queueInit]
  · simp [h.root, h.waiting, queueInit]
  · simp [h.root, h.waiting, queueInit_holds]

theorem Untouched.get [DecidableEq α] {s : Service α} (h : Untouched s) :
    ∃ s', s.call .get = .ok s' ∧ Untouched s' := by
  refine ⟨_, rfl, ?_, ?_, ?_⟩
  · simp [h.root, queueGet, queueInit]
  · simp [h.waiting]
  · simp [h.root, h.waiting, queueGet, queueInit]

/-- `queue_put` does not set a tail that is null. -/
theorem Untouched.put [DecidableEq α] {s s' : Service α} {x : α} (h : Untouched s)
    (he : s.call (.put x) = .ok s') : ¬Fifo s' := by
  intro hf
  obtain rfl := Except.ok.inj he
  have htail := hf.tail
  simp [h.root, h.waiting, queuePut, queueInit] at htail

/-- The queue is FIFO in the runs that put nothing, and in no other: after the first put the
tail is still null. -/
theorem fifo_iff_no_put [DecidableEq α] (next : α → Option α) (ops : List (QueueOp α)) :
    Upholds Service.call Fifo (.start next) ops ↔ ∀ x, .put x ∉ ops := by
  have start : Untouched (Service.start next) := ⟨rfl, rfl, rfl⟩
  generalize Service.start next = s at start
  induction ops generalizing s with
  | nil => exact ⟨fun _ => by simp, fun _ => start.fifo⟩
  | cons op ops ih =>
    cases op with
    | get =>
      obtain ⟨s', he, h'⟩ := start.get
      constructor
      · rintro ⟨-, t, ht, hrest⟩
        obtain rfl : s' = t := by simpa [he] using ht
        simpa using (ih s' h').mp hrest
      · intro hno
        exact ⟨start.fifo, s', he, (ih s' h').mpr fun x hx => hno x (List.mem_cons_of_mem _ hx)⟩
    | put x =>
      constructor
      · rintro ⟨-, t, ht, hrest⟩
        exact absurd hrest.head (start.put ht)
      · intro hno
        exact absurd List.mem_cons_self (hno x)

/-- The later of two nodes is returned first. -/
theorem later_node_first : ¬Upholds Service.call Fifo (.start fun _ : Fin 2 => none)
    [.put 0, .put 1, .get] := by
  rintro ⟨-, s₁, h₁, -, s₂, h₂, -, s₃, h₃, hf⟩
  obtain rfl := Except.ok.inj h₁
  obtain rfl := Except.ok.inj h₂
  obtain rfl := Except.ok.inj h₃
  exact absurd hf.returned (by decide)

end TcpAndParallel
