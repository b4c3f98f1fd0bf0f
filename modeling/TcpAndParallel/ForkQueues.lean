import TcpAndParallel.WorkQueue

namespace TcpAndParallel

namespace ForkQueues

variable {α : Type*}

/-- `List` and `Path`. -/
structure Root (α : Type*) where
  head : Option α
  tail : Option α

def queueInit : Root α := ⟨none, none⟩

def pathInit : Root α := ⟨none, none⟩

section Source

variable [DecidableEq α]

/-- The links and the root after a node has been put behind the tail. -/
def put (next : α → Option α) (myroot : Root α) (mynode : α) : (α → Option α) × Root α :=
  let next := Function.update next mynode none
  let next :=
    match myroot.tail with
    | some tail => Function.update next tail (some mynode)
    | none => next
  (next, ⟨if myroot.head = none then some mynode else myroot.head, some mynode⟩)

omit [DecidableEq α] in
/-- The node got, and the root after it. -/
def get (next : α → Option α) (myroot : Root α) : Option α × Root α :=
  match myroot.head with
  | some mynode => (some mynode, { myroot with head := next mynode })
  | none => (none, myroot)

def queuePut (next : α → Option α) (myroot : Root α) (mynode : α) : (α → Option α) × Root α :=
  put next myroot mynode

omit [DecidableEq α] in
def queueGet (next : α → Option α) (myroot : Root α) : Option α × Root α := get next myroot

def pathPut (next : α → Option α) (myroot : Root α) (mynode : α) : (α → Option α) × Root α :=
  put next myroot mynode

omit [DecidableEq α] in
def pathGet (next : α → Option α) (myroot : Root α) : Option α × Root α := get next myroot

end Source

/-- A queue in use, with the nodes that have been put and got so far. -/
structure Service (α : Type*) where
  next : α → Option α
  root : Root α
  puts : List α
  gets : List α

def Service.start (next : α → Option α) (root : Root α) : Service α := ⟨next, root, [], []⟩

section Use

variable [DecidableEq α]

/-- The outcome of a call that reads or writes the node `p`, which must not have been handed
out. -/
def Service.access (s : Service α) (p : Option α) (t : Service α) : Except α (Service α) :=
  match p with
  | some x => if x ∈ s.gets then .error x else .ok t
  | none => .ok t

/-- A put writes to the node at the tail, a get reads the one at the head. -/
def call (put : (α → Option α) → Root α → α → (α → Option α) × Root α)
    (get : (α → Option α) → Root α → Option α × Root α) (s : Service α) :
    QueueOp α → Except α (Service α)
  | .put x =>
    let (next, root) := put s.next s.root x
    s.access s.root.tail ⟨next, root, s.puts ++ [x], s.gets⟩
  | .get =>
    let (mynode, root) := get s.next s.root
    s.access s.root.head ⟨s.next, root, s.puts, s.gets ++ mynode.toList⟩

def queueCall : Service α → QueueOp α → Except α (Service α) := call queuePut queueGet

def pathCall : Service α → QueueOp α → Except α (Service α) := call pathPut pathGet

end Use

/-- What has been got and what can still be got is what has been put, in that order. -/
def Fifo (s : Service α) : Prop :=
  ∃ xs, Chain s.next s.root.head xs ∧ s.puts = s.gets ++ xs

def putsOf (ops : List (QueueOp α)) : List α :=
  ops.filterMap fun
    | .put x => some x
    | .get => none

/-- Where the queue is empty, so is the tail. -/
def Ready (s : Service α) : QueueOp α → Prop
  | .put _ => s.root.head = none → s.root.tail = none
  | .get => True

instance [DecidableEq α] (s : Service α) : ∀ op, Decidable (Ready s op)
  | .put _ => inferInstanceAs (Decidable (_ → _))
  | .get => inferInstanceAs (Decidable True)

def Fresh (s : Service α) : QueueOp α → Prop
  | .put x => x ∉ s.puts
  | .get => True

/-- The tail is the last of the nodes in the queue, and one handed out where there is none. -/
structure Intact (s : Service α) (xs : List α) : Prop where
  chain : Chain s.next s.root.head xs
  order : s.puts = s.gets ++ xs
  distinct : s.puts.Nodup
  last : ∀ x, xs.getLast? = some x → s.root.tail = some x
  stale : xs = [] → ∀ x, s.root.tail = some x → x ∈ s.gets

section Calls

variable [DecidableEq α] {s t : Service α} {xs : List α} {x : α}

theorem Intact.get_step (h : Intact s xs) :
    ∃ t, call put get s .get = .ok t ∧ Intact t xs.tail := by
  have hhead := h.chain.head_eq
  cases xs with
  | nil =>
    have hcall : call put get s .get = .ok s := by
      simp [call, get, hhead, Service.access]
    exact ⟨s, hcall, h⟩
  | cons y ys =>
    have hy : y ∉ s.gets := by
      have hd := h.distinct
      rw [h.order] at hd
      exact fun hm => (List.nodup_append.mp hd).2.2 y hm y List.mem_cons_self rfl
    refine ⟨⟨s.next, ⟨s.next y, s.root.tail⟩, s.puts, s.gets ++ [y]⟩, ?_, ?_⟩
    · simp [call, get, hhead, Service.access, hy]
    · refine ⟨h.chain.2, ?_, h.distinct, fun z hz => ?_, fun hnil z hz => ?_⟩
      · rw [h.order, List.append_assoc]
        rfl
      · refine h.last z ?_
        cases ys with
        | nil => cases hz
        | cons w ws => exact hz
      · obtain rfl : ys = [] := hnil
        have htail : s.root.tail = some y := h.last y rfl
        obtain rfl := Option.some.inj (htail.symm.trans hz)
        simp

theorem Intact.put_step (h : Intact s xs) (hx : x ∉ s.puts) (ready : Ready s (.put x)) :
    ∃ t, call put get s (.put x) = .ok t ∧ Intact t (xs ++ [x]) := by
  have hdistinct : (s.puts ++ [x]).Nodup := by
    rw [List.nodup_append]
    refine ⟨h.distinct, List.nodup_singleton x, fun a ha b hb => ?_⟩
    rw [List.mem_singleton] at hb
    rintro rfl
    exact hx (hb ▸ ha)
  have horder : s.puts ++ [x] = s.gets ++ (xs ++ [x]) := by
    rw [h.order, List.append_assoc]
  have hhead := h.chain.head_eq
  rcases List.eq_nil_or_concat xs with rfl | ⟨ys, y, rfl⟩
  · have htail : s.root.tail = none := ready hhead
    refine ⟨⟨Function.update s.next x none, ⟨some x, some x⟩, s.puts ++ [x], s.gets⟩, ?_, ?_⟩
    · simp [call, put, hhead, htail, Service.access]
    · refine ⟨?_, horder, hdistinct, fun z hz => ?_, fun hnil => absurd hnil (by simp)⟩
      · simp
      · simpa using hz
  · rw [List.concat_eq_append] at h hhead horder ⊢
    have htail : s.root.tail = some y := h.last y (by simp)
    have hy : y ∉ s.gets := by
      have hd := h.distinct
      rw [h.order] at hd
      exact fun hm => (List.nodup_append.mp hd).2.2 y hm y (by simp) rfl
    have hnew : x ∉ ys ++ [y] := by
      intro hm
      exact hx (by rw [h.order]; exact List.mem_append_right _ hm)
    have hne : s.root.head ≠ none := by
      rw [hhead]
      simp
    refine ⟨⟨Function.update (Function.update s.next x none) y (some x), ⟨s.root.head, some x⟩,
      s.puts ++ [x], s.gets⟩, ?_, ?_⟩
    · simp [call, put, hne, htail, Service.access, hy]
    · refine ⟨h.chain.concat hnew, horder, hdistinct, fun z hz => ?_, fun hnil => ?_⟩
      · simpa using hz
      · simp at hnil

/-- A put after the get of the last node writes to that node. -/
theorem Intact.put_fails (h : Intact s xs) (hready : ¬Ready s (.put x)) :
    call put get s (.put x) ≠ .ok t := by
  obtain ⟨hhead, htail⟩ := Classical.not_imp.mp hready
  obtain ⟨y, hy⟩ := Option.ne_none_iff_exists'.mp htail
  have hnil : xs = [] := by
    have hchain := h.chain
    rwa [hhead, chain_none_iff] at hchain
  have hgot := h.stale hnil y hy
  simp [call, Service.access, hy, hgot]

theorem Service.access_ok {p : Option α} {u : Service α} (h : s.access p u = .ok t) : t = u := by
  unfold Service.access at h
  split at h
  next =>
    split at h
    next => cases h
    next => exact (Except.ok.inj h).symm
  next => exact (Except.ok.inj h).symm

theorem meets_fresh (ops : List (QueueOp α)) (h : (s.puts ++ putsOf ops).Nodup) :
    Meets (call put get) Fresh s ops := by
  induction ops generalizing s with
  | nil => trivial
  | cons op ops ih =>
    cases op with
    | get =>
      refine ⟨trivial, fun t ht => ih ?_⟩
      rw [Service.access_ok ht]
      exact h
    | put x =>
      have hputs : s.puts ++ putsOf (.put x :: ops) = s.puts ++ [x] ++ putsOf ops := by
        rw [List.append_assoc]
        rfl
      rw [hputs] at h
      refine ⟨fun hx => ?_, fun t ht => ih ?_⟩
      · have hd := (List.nodup_append.mp (List.nodup_append.mp h).1).2.2
        exact hd x hx x List.mem_cons_self rfl
      · rw [Service.access_ok ht]
        exact h

theorem fifo_iff (next : α → Option α) (ops : List (QueueOp α)) (distinct : (putsOf ops).Nodup) :
    Upholds (call put get) Fifo (.start next ⟨none, none⟩) ops ↔
      Meets (call put get) Ready (.start next ⟨none, none⟩) ops := by
  have hstart : ∃ xs, Intact (Service.start next ⟨none, none⟩) xs :=
    ⟨[], rfl, rfl, List.nodup_nil, nofun, nofun⟩
  have hfresh : Meets (call put get) Fresh (.start next ⟨none, none⟩) ops := meets_fresh ops distinct
  have hfifo : ∀ s : Service α, (∃ xs, Intact s xs) → Fifo s := by
    rintro s ⟨xs, h⟩
    exact ⟨xs, h.chain, h.order⟩
  have hkeeps : ∀ (s : Service α) op, (∃ xs, Intact s xs) → Fresh s op → Ready s op →
      ∃ t, call put get s op = .ok t ∧ ∃ xs, Intact t xs := by
    intro s op hs hop hready
    obtain ⟨xs, h⟩ := hs
    cases op with
    | get =>
      obtain ⟨t, ht, h'⟩ := h.get_step
      exact ⟨t, ht, _, h'⟩
    | put x =>
      obtain ⟨t, ht, h'⟩ := h.put_step hop hready
      exact ⟨t, ht, _, h'⟩
  constructor
  · intro h
    refine meets_of_upholds hkeeps (fun s op t hs _ ht _ => ?_) hstart hfresh h
    obtain ⟨xs, hs⟩ := hs
    cases op with
    | get => trivial
    | put x =>
      by_contra hready
      exact hs.put_fails hready ht
  · intro h
    exact upholds_of_meets hfifo (fun s op hs hop => hkeeps s op hs hop.1 hop.2) hstart
      (hfresh.and h)

end Calls

section Queues

variable [DecidableEq α]

/-- Both queues keep the order of the nodes, lose none, and leave those handed out alone in the runs
in which no put follows the get of the last node. -/
theorem queues_fifo_iff (next : α → Option α) (ops : List (QueueOp α))
    (distinct : (putsOf ops).Nodup) :
    (Upholds queueCall Fifo (.start next queueInit) ops ↔
        Meets queueCall Ready (.start next queueInit) ops) ∧
      (Upholds pathCall Fifo (.start next pathInit) ops ↔
        Meets pathCall Ready (.start next pathInit) ops) :=
  ⟨fifo_iff next ops distinct, fifo_iff next ops distinct⟩

def refilled : List (QueueOp Nat) := [.put 0, .put 1, .get, .put 2, .get, .get]

theorem queues_fifo_refilled :
    Upholds queueCall Fifo (.start (fun _ => none) queueInit) refilled ∧
      Upholds pathCall Fifo (.start (fun _ => none) pathInit) refilled := by
  have h := queues_fifo_iff (fun _ => none) refilled (by decide)
  exact ⟨h.1.mpr (by decide), h.2.mpr (by decide)⟩

/-- A put after the queue has become empty writes to the node that was got. -/
theorem put_after_last :
    ¬Upholds queueCall Fifo (.start (fun _ : Nat => none) queueInit) [.put 0, .get, .put 1] := by
  rintro ⟨-, s₁, h₁, -, s₂, h₂, -, s₃, h₃, -⟩
  obtain rfl := Except.ok.inj h₁
  obtain rfl := Except.ok.inj h₂
  cases h₃

end Queues

end ForkQueues

end TcpAndParallel
