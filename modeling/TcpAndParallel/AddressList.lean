import Mathlib.Data.Char
import Mathlib.Data.List.Sort
import Mathlib.Data.List.TakeWhile
import TcpAndParallel.Chain
import TcpAndParallel.Runs

namespace TcpAndParallel

namespace AddressList

universe u

/-- What a node says of a person; names are strings in the order of `strcmp`. -/
structure Entry (ν : Type u) where
  message : ν
  id : Int

/-- The list with its globals. The fields of a node are read at its address; `live` are the nodes
that are allocated, and `callocs` counts all that ever were. -/
structure Nodes (α ν : Type u) where
  head : Option α
  end_ : Option α
  next : α → Option α
  entry : α → Entry ν
  live : α → Bool
  callocs : Nat

variable {α ν : Type u}

section Source

variable [DecidableEq α]

omit [DecidableEq α] in
/-- The address of a node that is allocated; there is no other to be followed. -/
def deref (d : Nodes α ν) (p : Option α) : Option α := p.filter fun x => d.live x

/-- The node that `calloc` yields at `ptr`, if the name and its NUL have room in the block for
it. -/
def initnode (bytes : ν → Nat) (room : Nat) (d : Nodes α ν) (ptr : α) (e : Entry ν) :
    Option (Nodes α ν) :=
  if bytes e.message < room then
    some { d with
      next := Function.update d.next ptr none
      entry := Function.update d.entry ptr e
      live := Function.update d.live ptr true
      callocs := d.callocs + 1 }
  else none

def add (d : Nodes α ν) (new : α) : Option (Nodes α ν) := do
  let d := if d.head = none then { d with head := some new } else d
  let last ← deref d d.end_
  let d := { d with next := Function.update d.next last (some new) }
  let d := { d with next := Function.update d.next new none }
  some { d with end_ := some new }

omit [DecidableEq α] in
/-- `while (c (ptr->message)) { ptr = ptr->next; if (ptr == NULL) break; }`. A loop that goes on
for more rounds than there ever were nodes does not end. -/
def advance (d : Nodes α ν) (c : ν → Bool) : Nat → Option α → Option (Option α)
  | 0, _ => none
  | fuel + 1, ptr => do
    let x ← deref d ptr
    if c (d.entry x).message then
      match d.next x with
      | none => some none
      | some y => advance d c fuel (some y)
    else some (some x)

/-- `while (prev->next != temp) prev = prev->next`. -/
def previous (d : Nodes α ν) (temp : Option α) : Nat → Option α → Option α
  | 0, _ => none
  | fuel + 1, prev => do
    let x ← deref d prev
    if d.next x ≠ temp then previous d temp fuel (d.next x) else some x

omit [DecidableEq α] in
def searchname [DecidableEq ν] (d : Nodes α ν) (ptr : Option α) (name : ν) : Option (Option α) :=
  advance d (fun message => name ≠ message) d.callocs ptr

def free (d : Nodes α ν) (temp : α) : Nodes α ν :=
  { d with live := Function.update d.live temp false }

def deletenode (d : Nodes α ν) (temp : α) : Option (Nodes α ν) :=
  if some temp = d.head then do
    let first ← deref d d.head
    let d := { d with head := d.next first }
    if d.end_ = some temp then
      let last ← deref d d.end_
      some (free { d with end_ := d.next last } temp)
    else some (free d temp)
  else do
    let prev ← previous d (some temp) d.callocs d.head
    let temp ← deref d (some temp)
    let d := { d with next := Function.update d.next prev (d.next temp) }
    if d.end_ = some temp then some (free { d with end_ := some prev } temp)
    else some (free d temp)

def insertnode [LinearOrder ν] (d : Nodes α ν) (new : α) : Option (Nodes α ν) :=
  match d.head with
  | none => some { d with
      head := some new
      end_ := some new
      next := Function.update d.next new none }
  | some head => do
    let temp ← advance d (fun message => message < (d.entry new).message) d.callocs (some head)
    if temp = some head then
      some { d with
        next := Function.update d.next new (some head)
        head := some new }
    else
      let prev ← previous d temp d.callocs (some head)
      let d := { d with next := Function.update (Function.update d.next prev (some new)) new temp }
      if d.end_ = some prev then some { d with end_ := some new } else some d

end Source

/-- The choices of the menu that edit the list, with the address that `calloc` yields. -/
inductive Choice (α ν : Type u)
  | add (ptr : α) (e : Entry ν)
  | insert (ptr : α) (e : Entry ν)
  | delete (name : ν)

section Menu

variable [DecidableEq α] [LinearOrder ν]

def menu (bytes : ν → Nat) (room : Nat) (d : Nodes α ν) : Choice α ν → Option (Nodes α ν)
  | .add ptr e => do
    let d ← initnode bytes room d ptr e
    add d ptr
  | .insert ptr e => do
    let d ← initnode bytes room d ptr e
    insertnode d ptr
  | .delete name => do
    match ← searchname d d.head name with
    | none => some d
    | some ptr => deletenode d ptr

def Ahead (e e' : Entry ν) : Prop := e.message ≤ e'.message

instance : DecidableRel (Ahead : Entry ν → Entry ν → Prop) :=
  fun e e' => inferInstanceAs (Decidable (e.message ≤ e'.message))

instance : Std.Total (Ahead : Entry ν → Entry ν → Prop) :=
  ⟨fun e e' => le_total e.message e'.message⟩

instance : IsTrans (Entry ν) Ahead := ⟨fun _ _ _ => le_trans⟩

def edit (entries : List (Entry ν)) : Choice α ν → List (Entry ν)
  | .add _ e => entries ++ [e]
  | .insert _ e => entries.orderedInsert Ahead e
  | .delete name => entries.eraseP fun e => e.message = name

/-- The list beside the entries that have been added and not deleted; `appended` says whether
any has been added without `insertnode`. -/
structure Session (α ν : Type u) where
  list : Nodes α ν
  entries : List (Entry ν)
  appended : Bool

def isAdd : Choice α ν → Bool
  | .add _ _ => true
  | _ => false

def call (bytes : ν → Nat) (room : Nat) (s : Session α ν) (i : Choice α ν) :
    Except Unit (Session α ν) :=
  match menu bytes room s.list i with
  | some d => .ok ⟨d, edit s.entries i, s.appended || isAdd i⟩
  | none => .error ()

end Menu

/-- The nodes of the list in order; `end` is the last of them. -/
structure Shape (d : Nodes α ν) (xs : List α) : Prop where
  chain : Chain d.next d.head xs
  last : d.end_ = xs.getLast?
  live : ∀ x ∈ xs, d.live x = true
  count : xs.length ≤ d.callocs

/-- A node that is allocated and not in the list. -/
structure Loose (d : Nodes α ν) (xs : List α) (new : α) : Prop where
  shape : Shape d xs
  live : d.live new = true
  notMem : new ∉ xs
  count : xs.length < d.callocs

section Loops

variable {d : Nodes α ν} {xs us ws : List α} {x : α} {p : Option α} {fuel : Nat}

theorem deref_live (h : d.live x = true) : deref d (some x) = some x := by
  simp [deref, h]

theorem deref_none : deref d none = none := rfl

/-- The loops over the names stop at the first node where the condition fails. -/
theorem advance_eq (c : ν → Bool) (chain : Chain d.next p xs) (live : ∀ x ∈ xs, d.live x = true)
    (hne : xs ≠ []) (enough : xs.length ≤ fuel) :
    advance d c fuel p = some (xs.dropWhile fun x => c (d.entry x).message).head? := by
  induction xs generalizing p fuel with
  | nil => exact absurd rfl hne
  | cons x xs ih =>
    obtain ⟨rfl, hrest⟩ := chain
    obtain ⟨n, rfl⟩ : ∃ n, fuel = n + 1 := ⟨fuel - 1, by simp at enough; omega⟩
    rw [advance, deref_live (live x List.mem_cons_self)]
    simp only [Option.bind_eq_bind, Option.bind_some, List.dropWhile_cons]
    split
    next =>
      cases xs with
      | nil =>
        have hnext : d.next x = none := hrest
        rw [hnext]
        rfl
      | cons y ys =>
        have hnext : d.next x = some y := hrest.1
        rw [hnext]
        simp only
        rw [← hnext]
        exact ih hrest (fun z hz => live z (List.mem_cons_of_mem x hz)) (by simp)
          (by simp at enough ⊢; omega)
    next => rfl

variable [DecidableEq α]

theorem previous_eq (chain : Chain d.next p (us ++ x :: ws))
    (live : ∀ z ∈ us ++ x :: ws, d.live z = true) (enough : (us ++ x :: ws).length ≤ fuel) :
    previous d ws.head? fuel p = some x := by
  induction us generalizing p fuel with
  | nil =>
    obtain ⟨rfl, hrest⟩ := chain
    obtain ⟨n, rfl⟩ : ∃ n, fuel = n + 1 := ⟨fuel - 1, by simp at enough; omega⟩
    rw [previous, deref_live (live x (by simp))]
    simp [hrest.head_eq]
  | cons u us ih =>
    have hnodup := (List.nodup_cons.mp chain.nodup).2
    obtain ⟨rfl, hrest⟩ := chain
    obtain ⟨n, rfl⟩ : ∃ n, fuel = n + 1 := ⟨fuel - 1, by simp at enough; omega⟩
    have hnext : d.next u ≠ ws.head? := by
      rw [hrest.head_eq]
      intro he
      cases us with
      | nil =>
        have hx : x ∈ ws := List.mem_of_mem_head? (he.symm.trans rfl)
        exact (List.nodup_cons.mp hnodup).1 hx
      | cons v vs =>
        have hv : v ∈ ws := List.mem_of_mem_head? (he.symm.trans rfl)
        exact (List.nodup_cons.mp hnodup).1 (by simp [hv])
    rw [previous, deref_live (live u (by simp))]
    simp only [Option.bind_eq_bind, Option.bind_some, if_pos hnext]
    exact ih hrest (fun z hz => live z (List.mem_cons_of_mem u hz)) (by simp at enough ⊢; omega)

end Loops

section Edits

variable [DecidableEq α] {d : Nodes α ν} {xs us ws : List α} {x new ptr : α} {e : Entry ν}

omit [DecidableEq α] in
theorem getLast?_eq_some_iff (us ws : List α) (x : α) (nodup : (us ++ x :: ws).Nodup) :
    (us ++ x :: ws).getLast? = some x ↔ ws = [] := by
  rw [List.getLast?_append_cons]
  cases ws with
  | nil => simp
  | cons w ws =>
    rw [List.getLast?_cons_cons]
    refine ⟨fun hlast => ?_, fun h => absurd h (by simp)⟩
    have hx := List.mem_of_getLast? hlast
    exact absurd hx (List.nodup_cons.mp (List.nodup_append.mp nodup).2.1).1

omit [DecidableEq α] in
theorem head?_ne (us ws : List α) (x : α) (nodup : (us ++ x :: ws).Nodup) :
    ws.head? ≠ (us ++ x :: ws).head? := by
  intro he
  have hmem : ∀ z, (us ++ x :: ws).head? = some z → z ∈ ws := by
    intro z hz
    exact List.mem_of_mem_head? (he.trans hz)
  cases us with
  | nil => exact (List.nodup_cons.mp nodup).1 (hmem x rfl)
  | cons u us => exact (List.nodup_cons.mp nodup).1 (by simp [hmem u rfl])

omit [DecidableEq α] in
theorem Shape.not_live (h : Shape d xs) (fresh : d.live ptr = false) : ptr ∉ xs := by
  intro hm
  simpa [fresh] using h.live ptr hm

theorem Shape.initnode (h : Shape d xs) (fresh : d.live ptr = false) (bytes : ν → Nat)
    {room : Nat} (hroom : bytes e.message < room) :
    ∃ d', initnode bytes room d ptr e = some d' ∧ Loose d' xs ptr ∧ d'.entry ptr = e ∧
      xs.map d'.entry = xs.map d.entry := by
  have hptr := h.not_live fresh
  refine ⟨_, if_pos hroom, ⟨⟨h.chain.update_of_notMem hptr, h.last, fun x hx => ?_, ?_⟩, ?_, hptr,
    ?_⟩, ?_, ?_⟩
  · have hne : x ≠ ptr := fun he => hptr (he ▸ hx)
    exact (Function.update_of_ne hne _ _).trans (h.live x hx)
  · exact Nat.le_succ_of_le h.count
  · exact Function.update_self ..
  · exact Nat.lt_succ_of_le h.count
  · exact Function.update_self ..
  · refine List.map_congr_left fun x hx => Function.update_of_ne ?_ _ _
    exact fun he => hptr (he ▸ hx)

/-- `end` is null as long as the list is empty. -/
theorem Shape.add_nil (h : Shape d []) (new : α) : add d new = none := by
  have hend : d.end_ = none := h.last
  unfold add
  split <;> simp [hend, deref_none]

theorem Loose.add (h : Loose d xs new) (hne : xs ≠ []) :
    ∃ d', add d new = some d' ∧ Shape d' (xs ++ [new]) ∧ d'.entry = d.entry := by
  obtain ⟨ys, y, rfl⟩ := (List.eq_nil_or_concat' xs).resolve_left hne
  have hend : d.end_ = some y := by
    rw [h.shape.last, List.getLast?_concat]
  have hhead : d.head ≠ none := by
    rw [h.shape.chain.head_eq]
    simp
  have hy : y ≠ new := fun he => h.notMem (by simp [← he])
  refine ⟨{ d with
    next := Function.update (Function.update d.next y (some new)) new none
    end_ := some new }, ?_, ⟨?_, ?_, fun z hz => ?_, ?_⟩, rfl⟩
  · simp only [AddressList.add, if_neg hhead, hend, deref_live (h.shape.live y (by simp)),
      Option.bind_eq_bind, Option.bind_some]
  · show Chain (Function.update (Function.update d.next y (some new)) new none) d.head _
    rw [Function.update_comm hy]
    exact h.shape.chain.concat h.notMem
  · exact List.getLast?_concat.symm
  · rcases List.mem_append.mp hz with hz | hz
    · exact h.shape.live z hz
    · rw [List.mem_singleton.mp hz]
      exact h.live
  · have hcount := h.count
    simp only [List.length_append, List.length_singleton] at hcount ⊢
    omega

theorem Loose.push (h : Loose d xs new) {d' : Nodes α ν} (hhead : d'.head = some new)
    (hnext : d'.next = Function.update d.next new d.head)
    (hend : d'.end_ = (new :: xs).getLast?) (hlive : d'.live = d.live)
    (hcallocs : d'.callocs = d.callocs) : Shape d' (new :: xs) := by
  refine ⟨?_, hend, fun z hz => ?_, ?_⟩
  · rw [hhead, hnext]
    exact h.shape.chain.push h.notMem
  · rw [hlive]
    rcases List.mem_cons.mp hz with rfl | hz
    · exact h.live
    · exact h.shape.live z hz
  · rw [hcallocs]
    exact h.count

omit [DecidableEq α] in
theorem advance_split [LinearOrder ν] (h : Loose d (us ++ ws) new) (hne : us ++ ws ≠ [])
    (before : ∀ z ∈ us, (d.entry z).message < (d.entry new).message)
    (behind : ∀ z, ws.head? = some z → ¬(d.entry z).message < (d.entry new).message) :
    advance d (fun message => message < (d.entry new).message) d.callocs d.head =
      some ws.head? := by
  have hdrop : (us ++ ws).dropWhile
      (fun z => decide ((d.entry z).message < (d.entry new).message)) = ws := by
    rw [List.dropWhile_append_of_pos fun z hz => by simpa using before z hz]
    cases ws with
    | nil => rfl
    | cons w ws => exact List.dropWhile_cons_of_neg (by simpa using behind w rfl)
  rw [advance_eq _ h.shape.chain h.shape.live hne h.shape.count, hdrop]

theorem Loose.insert_nil [LinearOrder ν] (h : Loose d [] new) :
    ∃ d', insertnode d new = some d' ∧ Shape d' [new] ∧ d'.entry = d.entry := by
  have hnone : d.head = none := h.shape.chain
  refine ⟨{ d with
    head := some new
    end_ := some new
    next := Function.update d.next new none }, ?_, h.push rfl ?_ rfl rfl rfl, rfl⟩
  · simp only [insertnode, hnone]
  · rw [hnone]

theorem Loose.insert_first [LinearOrder ν] {w : α} (h : Loose d (w :: ws) new)
    (stops : advance d (fun message => message < (d.entry new).message) d.callocs d.head =
      some (some w)) :
    ∃ d', insertnode d new = some d' ∧ Shape d' (new :: w :: ws) ∧ d'.entry = d.entry := by
  have hhead : d.head = some w := h.shape.chain.head_eq
  rw [hhead] at stops
  refine ⟨{ d with
    next := Function.update d.next new (some w)
    head := some new }, ?_, h.push rfl ?_ h.shape.last rfl rfl, rfl⟩
  · rw [insertnode, hhead]
    simp only [stops, Option.bind_eq_bind, Option.bind_some, if_true]
  · rw [hhead]

theorem Loose.insert_after [LinearOrder ν] (h : Loose d (us ++ x :: ws) new)
    (stops : advance d (fun message => message < (d.entry new).message) d.callocs d.head =
      some ws.head?) :
    ∃ d', insertnode d new = some d' ∧ Shape d' (us ++ x :: new :: ws) ∧ d'.entry = d.entry := by
  have hnodup := h.shape.chain.nodup
  obtain ⟨head, hhead⟩ : ∃ head, d.head = some head := by
    rw [h.shape.chain.head_eq]
    cases us with
    | nil => exact ⟨x, rfl⟩
    | cons u us => exact ⟨u, rfl⟩
  have htemp : ws.head? ≠ some head := by
    rw [← hhead, h.shape.chain.head_eq]
    exact head?_ne us ws x hnodup
  have hprevious : previous d ws.head? d.callocs (some head) = some x := by
    rw [← hhead]
    exact previous_eq h.shape.chain h.shape.live h.shape.count
  have hnext : d.next x = ws.head? := h.shape.chain.next_eq
  have hx : x ≠ new := fun he => h.notMem (by simp [← he])
  have hlast : d.end_ = some x ↔ ws = [] := by
    rw [h.shape.last]
    exact getLast?_eq_some_iff us ws x hnodup
  rw [hhead] at stops
  refine ⟨{ d with
    next := Function.update (Function.update d.next x (some new)) new ws.head?
    end_ := if ws = [] then some new else d.end_ }, ?_, ⟨?_, ?_, fun z hz => ?_, ?_⟩, rfl⟩
  · rw [insertnode, hhead]
    simp only [stops, hprevious, Option.bind_eq_bind, Option.bind_some, if_neg htemp]
    by_cases hws : ws = []
    · rw [if_pos (hlast.mpr hws), if_pos hws]
    · rw [if_neg fun he => hws (hlast.mp he), if_neg hws]
  · show Chain (Function.update (Function.update d.next x (some new)) new ws.head?) d.head _
    rw [Function.update_comm hx, ← hnext]
    exact h.shape.chain.insert_after h.notMem
  · show (if ws = [] then some new else d.end_) = _
    cases ws with
    | nil => simp
    | cons w ws =>
      rw [if_neg (by simp), h.shape.last, List.getLast?_append_cons, List.getLast?_append_cons]
      rfl
  · have hz' : z = new ∨ z ∈ us ++ x :: ws := by
      simp only [List.mem_append, List.mem_cons] at hz ⊢
      tauto
    rcases hz' with rfl | hz'
    · exact h.live
    · exact h.shape.live z hz'
  · have hcount := h.count
    simp only [List.length_append, List.length_cons] at hcount ⊢
    omega

theorem Loose.insertnode [LinearOrder ν] (h : Loose d (us ++ ws) new)
    (before : ∀ z ∈ us, (d.entry z).message < (d.entry new).message)
    (behind : ∀ z, ws.head? = some z → ¬(d.entry z).message < (d.entry new).message) :
    ∃ d', insertnode d new = some d' ∧ Shape d' (us ++ new :: ws) ∧ d'.entry = d.entry := by
  have hstops := fun hne => advance_split h hne before behind
  rcases List.eq_nil_or_concat' us with rfl | ⟨vs, v, rfl⟩
  · cases ws with
    | nil => exact h.insert_nil
    | cons w ws => exact h.insert_first (hstops (by simp))
  · have hxs : ∀ zs, vs ++ [v] ++ zs = vs ++ v :: zs := by simp
    have hstop := hstops (by simp)
    rw [hxs] at h ⊢
    exact h.insert_after hstop

theorem Shape.free_live (us : List α) (h : Shape d (us ++ x :: ws)) {z : α} (hz : z ∈ us ++ ws) :
    Function.update d.live x false z = true := by
  have hne : z ≠ x := by
    rintro rfl
    exact (List.nodup_middle.mp h.chain.nodup |> List.nodup_cons.mp).1 hz
  rw [Function.update_of_ne hne]
  refine h.live z ?_
  simp only [List.mem_append, List.mem_cons] at hz ⊢
  tauto

theorem Shape.delete_first (h : Shape d (x :: ws)) :
    ∃ d', deletenode d x = some d' ∧ Shape d' ws ∧ d'.entry = d.entry := by
  have hlive : d.live x = true := h.live x List.mem_cons_self
  have hnext : d.next x = ws.head? := h.chain.2.head_eq
  have hlast : d.end_ = some x ↔ ws = [] := by
    rw [h.last]
    exact getLast?_eq_some_iff [] ws x h.chain.nodup
  refine ⟨free { d with
    head := d.next x
    end_ := if ws = [] then d.next x else d.end_ } x, ?_, ⟨h.chain.2, ?_, fun z hz => ?_, ?_⟩, rfl⟩
  · simp only [deletenode, h.chain.1, if_true, deref_live hlive, Option.bind_eq_bind,
      Option.bind_some]
    by_cases hws : ws = []
    · have hderef : deref { d with head := d.next x } (some x) = some x := deref_live hlive
      rw [if_pos (hlast.mpr hws), if_pos hws, hlast.mpr hws]
      rw [hlast.mpr hws] at hderef
      rw [hderef]
      rfl
    · rw [if_neg fun he => hws (hlast.mp he), if_neg hws]
  · show (if ws = [] then d.next x else d.end_) = ws.getLast?
    cases ws with
    | nil => exact hnext
    | cons w ws =>
      rw [if_neg (by simp), h.last]
      rfl
  · exact Shape.free_live [] h hz
  · have hcount := h.count
    simp only [List.length_cons] at hcount
    exact Nat.le_of_succ_le hcount

theorem Shape.deletenode (h : Shape d (us ++ x :: ws)) :
    ∃ d', deletenode d x = some d' ∧ Shape d' (us ++ ws) ∧ d'.entry = d.entry := by
  rcases List.eq_nil_or_concat' us with rfl | ⟨vs, v, rfl⟩
  · exact h.delete_first
  have hfree := fun z hz => Shape.free_live (vs ++ [v]) h (z := z) hz
  have hxs : vs ++ [v] ++ x :: ws = vs ++ v :: x :: ws := by simp
  have hlast : d.end_ = some x ↔ ws = [] := by
    rw [h.last]
    exact getLast?_eq_some_iff (vs ++ [v]) ws x h.chain.nodup
  rw [hxs] at h
  have hlive : d.live x = true := h.live x (by simp)
  have hhead : some x ≠ d.head := by
    rw [h.chain.head_eq]
    exact head?_ne vs (x :: ws) v h.chain.nodup
  have hprevious : previous d (x :: ws).head? d.callocs d.head = some v :=
    previous_eq h.chain h.live h.count
  rw [List.head?_cons] at hprevious
  refine ⟨free { d with
    next := Function.update d.next v (d.next x)
    end_ := if ws = [] then some v else d.end_ } x, ?_, ⟨?_, ?_, hfree, ?_⟩, rfl⟩
  · simp only [AddressList.deletenode, if_neg hhead, hprevious, deref_live hlive,
      Option.bind_eq_bind, Option.bind_some]
    by_cases hws : ws = []
    · rw [if_pos (hlast.mpr hws), if_pos hws]
    · rw [if_neg fun he => hws (hlast.mp he), if_neg hws]
  · rw [List.append_assoc]
    exact h.chain.remove_after
  · show (if ws = [] then some v else d.end_) = _
    cases ws with
    | nil => simp
    | cons w ws =>
      rw [if_neg (by simp), h.last, List.append_assoc, List.singleton_append,
        List.getLast?_append_cons, List.getLast?_append_cons]
      rfl
  · have hcount := h.count
    simp only [List.length_append, List.length_cons] at hcount
    show (vs ++ [v] ++ ws).length ≤ d.callocs
    simp only [List.length_append, List.length_cons, List.length_nil]
    omega

end Edits

section Runs

variable [DecidableEq α] [LinearOrder ν] {bytes : ν → Nat} {room : Nat} {s t : Session α ν}
  {d : Nodes α ν} {xs : List α} {i : Choice α ν}

def start (next : α → Option α) (entry : α → Entry ν) : Session α ν where
  list := {
    head := none
    end_ := none
    next := next
    entry := entry
    live := fun _ => false
    callocs := 0 }
  entries := []
  appended := false

/-- `calloc` yields no address of a node that is allocated. -/
def Fresh (s : Session α ν) : Choice α ν → Prop
  | .add ptr _ => s.list.live ptr = false
  | .insert ptr _ => s.list.live ptr = false
  | .delete _ => True

instance (s : Session α ν) : ∀ i, Decidable (Fresh s i)
  | .add ptr _ => inferInstanceAs (Decidable (s.list.live ptr = false))
  | .insert ptr _ => inferInstanceAs (Decidable (s.list.live ptr = false))
  | .delete _ => inferInstanceAs (Decidable True)

/-- The list has the entries added and not deleted, `end` is its last node, and it is sorted as
long as no entry was added at its end. -/
def Correct (s : Session α ν) : Prop :=
  ∃ xs, Chain s.list.next s.list.head xs ∧ (∀ x ∈ xs, s.list.live x = true) ∧
    s.list.end_ = xs.getLast? ∧ xs.map s.list.entry = s.entries ∧
    (s.appended = false → s.entries.Pairwise Ahead)

/-- Names have room in the blocks for them, and nothing is added to or sought in an empty list. -/
def Sound (bytes : ν → Nat) (room : Nat) (s : Session α ν) : Choice α ν → Prop
  | .add _ e => s.list.head ≠ none ∧ bytes e.message < room
  | .insert _ e => bytes e.message < room
  | .delete _ => s.list.head ≠ none

instance (s : Session α ν) : ∀ i, Decidable (Sound bytes room s i)
  | .add _ e => inferInstanceAs (Decidable (s.list.head ≠ none ∧ bytes e.message < room))
  | .insert _ e => inferInstanceAs (Decidable (bytes e.message < room))
  | .delete _ => inferInstanceAs (Decidable (s.list.head ≠ none))

def Kept (s : Session α ν) : Prop :=
  ∃ xs, Shape s.list xs ∧ xs.map s.list.entry = s.entries ∧
    (s.appended = false → s.entries.Pairwise Ahead)

omit [DecidableEq α] in
theorem Kept.correct (h : Kept s) : Correct s := by
  obtain ⟨xs, hshape, hentries, hsorted⟩ := h
  exact ⟨xs, hshape.chain, hshape.live, hshape.last, hentries, hsorted⟩

omit [DecidableEq α] in
theorem exists_split (entry : α → Entry ν) (xs : List α) (e : Entry ν) :
    ∃ us ws, xs = us ++ ws ∧ (∀ z ∈ us, (entry z).message < e.message) ∧
      (∀ z, ws.head? = some z → ¬(entry z).message < e.message) ∧
      (xs.map entry).orderedInsert Ahead e = us.map entry ++ e :: ws.map entry := by
  let p : α → Bool := fun z => (entry z).message < e.message
  refine ⟨xs.takeWhile p, xs.dropWhile p, List.takeWhile_append_dropWhile.symm, fun z hz => ?_,
    fun z hz => ?_, ?_⟩
  · simpa [p] using List.mem_takeWhile_imp hz
  · have hnot := List.head?_dropWhile_not p xs
    rw [hz] at hnot
    simpa [p] using hnot
  · have hp : (fun e' : Entry ν => decide (¬Ahead e e')) ∘ entry = p := by
      funext z
      simp [Ahead, p]
    rw [List.orderedInsert_eq_take_drop, List.takeWhile_map, List.dropWhile_map, hp]

omit [DecidableEq α] in
theorem Shape.searchname_eq (h : Shape d xs) (hne : xs ≠ []) (name : ν) :
    searchname d d.head name =
      some (xs.dropWhile fun x => decide (name ≠ (d.entry x).message)).head? :=
  advance_eq _ h.chain h.live hne h.count

theorem call_of_menu (h : menu bytes room s.list i = some d) :
    call bytes room s i = .ok ⟨d, edit s.entries i, s.appended || isAdd i⟩ := by
  rw [call, h]

omit [DecidableEq α] in
theorem exists_found (entry : α → Entry ν) (xs : List α) (name : ν) :
    let found := (xs.dropWhile fun x => decide (name ≠ (entry x).message)).head?
    (found = none ∧ ∀ z ∈ xs, (entry z).message ≠ name) ∨
      ∃ us x ws, xs = us ++ x :: ws ∧ found = some x ∧ (entry x).message = name ∧
        ∀ z ∈ us, (entry z).message ≠ name := by
  let q : α → Bool := fun x => decide (name ≠ (entry x).message)
  have hsplit : xs.takeWhile q ++ xs.dropWhile q = xs := List.takeWhile_append_dropWhile
  have hbefore : ∀ z ∈ xs.takeWhile q, (entry z).message ≠ name := by
    intro z hz
    have hq : q z = true := List.mem_takeWhile_imp hz
    exact (of_decide_eq_true hq).symm
  cases hdrop : xs.dropWhile q with
  | nil =>
    rw [hdrop, List.append_nil] at hsplit
    rw [hsplit] at hbefore
    exact .inl ⟨rfl, hbefore⟩
  | cons x ws =>
    have hx : (entry x).message = name := by
      have hnot := List.head?_dropWhile_not q xs
      rw [hdrop] at hnot
      have hq : q x = false := hnot
      exact (not_not.mp (of_decide_eq_false hq)).symm
    rw [hdrop] at hsplit
    exact .inr ⟨_, x, ws, hsplit.symm, rfl, hx, hbefore⟩

theorem Kept.add_call (h : Kept s) {ptr : α} {e : Entry ν} (fresh : s.list.live ptr = false)
    (hhead : s.list.head ≠ none) (hroom : bytes e.message < room) :
    ∃ t, call bytes room s (.add ptr e) = .ok t ∧ Kept t := by
  obtain ⟨xs, hshape, hentries, -⟩ := h
  have hne : xs ≠ [] := by
    rintro rfl
    exact hhead hshape.chain
  obtain ⟨d₁, hinit, hloose, hptr, hsame⟩ := hshape.initnode fresh bytes hroom
  obtain ⟨d₂, hadd, hshape₂, hentry⟩ := hloose.add hne
  have hmenu : menu bytes room s.list (.add ptr e) = some d₂ := by
    rw [menu, hinit]
    exact hadd
  refine ⟨_, call_of_menu hmenu, xs ++ [ptr], hshape₂, ?_, by simp [isAdd]⟩
  show (xs ++ [ptr]).map d₂.entry = s.entries ++ [e]
  rw [hentry, List.map_append, hsame, hentries, List.map_singleton, hptr]

theorem Kept.insert_call (h : Kept s) {ptr : α} {e : Entry ν} (fresh : s.list.live ptr = false)
    (hroom : bytes e.message < room) :
    ∃ t, call bytes room s (.insert ptr e) = .ok t ∧ Kept t := by
  obtain ⟨xs, hshape, hentries, hsorted⟩ := h
  obtain ⟨d₁, hinit, hloose, hptr, hsame⟩ := hshape.initnode fresh bytes hroom
  obtain ⟨us, ws, rfl, hbefore, hbehind, hinsert⟩ := exists_split d₁.entry xs e
  rw [← hptr] at hbefore hbehind
  obtain ⟨d₂, hrun, hshape₂, hentry⟩ := hloose.insertnode hbefore hbehind
  have hmenu : menu bytes room s.list (.insert ptr e) = some d₂ := by
    rw [menu, hinit]
    exact hrun
  refine ⟨_, call_of_menu hmenu, us ++ ptr :: ws, hshape₂, ?_, fun happ => ?_⟩
  · show (us ++ ptr :: ws).map d₂.entry = s.entries.orderedInsert Ahead e
    rw [← hentries, ← hsame, hinsert, hentry, List.map_append, List.map_cons, hptr]
  · refine (hsorted ?_).orderedInsert e _
    simpa [isAdd] using happ

theorem Kept.delete_call (h : Kept s) {name : ν} (hhead : s.list.head ≠ none) :
    ∃ t, call bytes room s (.delete name) = .ok t ∧ Kept t := by
  obtain ⟨xs, hshape, hentries, hsorted⟩ := h
  have hne : xs ≠ [] := by
    rintro rfl
    exact hhead hshape.chain
  have hsearch := hshape.searchname_eq hne name
  have hkept : (s.appended || isAdd (.delete name : Choice α ν)) = false →
      (s.entries.eraseP fun e => decide (e.message = name)).Pairwise Ahead := by
    intro happ
    refine (hsorted ?_).sublist List.eraseP_sublist
    simpa [isAdd] using happ
  rcases exists_found s.list.entry xs name with ⟨hfound, hnone⟩ | ⟨us, x, ws, rfl, hfound, hx, hus⟩
  · have hedit : s.entries.eraseP (fun e => decide (e.message = name)) = s.entries := by
      rw [← hentries]
      apply List.eraseP_of_forall_not
      simpa using hnone
    have hmenu : menu bytes room s.list (.delete name) = some s.list := by
      rw [menu, hsearch, hfound]
      rfl
    exact ⟨_, call_of_menu hmenu, xs, hshape, hentries.trans hedit.symm, hkept⟩
  · obtain ⟨d', hdelete, hshape', hentry⟩ := hshape.deletenode
    have hedit : s.entries.eraseP (fun e => decide (e.message = name)) =
        (us ++ ws).map s.list.entry := by
      rw [← hentries, List.map_append, List.map_cons, List.map_append, List.eraseP_append_right,
        List.eraseP_cons_of_pos (by simpa using hx)]
      simpa using hus
    have hmenu : menu bytes room s.list (.delete name) = some d' := by
      rw [menu, hsearch, hfound]
      exact hdelete
    refine ⟨_, call_of_menu hmenu, us ++ ws, hshape', ?_, hkept⟩
    show (us ++ ws).map d'.entry = s.entries.eraseP fun e => decide (e.message = name)
    rw [hedit, hentry]

theorem Kept.call (h : Kept s) (fresh : Fresh s i) (sound : Sound bytes room s i) :
    ∃ t, call bytes room s i = .ok t ∧ Kept t := by
  cases i with
  | add ptr e => exact h.add_call fresh sound.1 sound.2
  | insert ptr e => exact h.insert_call fresh sound
  | delete name => exact h.delete_call sound

theorem Kept.sound (h : Kept s) (fresh : Fresh s i)
    (hcall : AddressList.call bytes room s i = .ok t) :
    Sound bytes room s i := by
  obtain ⟨xs, hshape, -⟩ := h
  have hroom : ∀ {ptr e d}, initnode bytes room s.list ptr e = some d → bytes e.message < room := by
    intro ptr e d hinit
    by_contra hnot
    rw [initnode, if_neg hnot] at hinit
    cases hinit
  have hnil : s.list.head = none → xs = [] := by
    intro hhead
    have hchain := hshape.chain
    rwa [hhead, chain_none_iff] at hchain
  unfold AddressList.call at hcall
  split at hcall
  next d hrun =>
    cases i with
    | add ptr e =>
      obtain ⟨d₁, hinit, hadd⟩ := Option.bind_eq_some_iff.mp hrun
      refine ⟨fun hhead => ?_, hroom hinit⟩
      obtain rfl := hnil hhead
      obtain ⟨d₂, hinit', hloose, -⟩ := hshape.initnode fresh bytes (hroom hinit)
      obtain rfl := Option.some.inj (hinit.symm.trans hinit')
      rw [hloose.shape.add_nil] at hadd
      cases hadd
    | insert ptr e =>
      obtain ⟨d₁, hinit, -⟩ := Option.bind_eq_some_iff.mp hrun
      exact hroom hinit
    | delete name =>
      intro hhead
      obtain ⟨found, hfound, -⟩ := Option.bind_eq_some_iff.mp hrun
      rw [searchname, hhead] at hfound
      cases hcallocs : s.list.callocs with
      | zero =>
        rw [hcallocs] at hfound
        cases hfound
      | succ n =>
        rw [hcallocs] at hfound
        cases hfound
  next => cases hcall

/-- The list is right after every choice of a run just where the names have room, and no entry is
added to the end of an empty list or sought in one. -/
theorem correct_iff {next : α → Option α} {entry : α → Entry ν} {is : List (Choice α ν)}
    (fresh : Meets (call bytes room) Fresh (start next entry) is) :
    Upholds (call bytes room) Correct (start next entry) is ↔
      Meets (call bytes room) (Sound bytes room) (start next entry) is := by
  have hstart : Kept (start next entry) :=
    ⟨[], ⟨rfl, rfl, by simp, Nat.le_refl 0⟩, rfl, fun _ => List.Pairwise.nil⟩
  constructor
  · intro h
    exact meets_of_upholds (fun s i hs hf hc => hs.call hf hc)
      (fun s i t hs hf ht _ => hs.sound hf ht) hstart fresh h
  · intro h
    exact upholds_of_meets (fun s hs => hs.correct) (fun s i hs hc => hs.call hc.1 hc.2) hstart
      (fresh.and h)

end Runs

abbrev first : Session Nat Char := start (fun _ => none) fun _ => ⟨'a', 0⟩

theorem correct_of_sound :
    Upholds (call (fun _ => 1) 8) Correct first [.insert 0 ⟨'b', 1⟩, .insert 1 ⟨'a', 2⟩,
      .add 2 ⟨'c', 3⟩, .delete 'b', .delete 'x', .insert 3 ⟨'b', 4⟩] :=
  (correct_iff (by decide)).mpr (by decide)

/-- The first entry cannot be added: `end` is null. -/
theorem add_first :
    Meets (call (fun _ => 1) 8) Fresh first [.add 0 ⟨'a', 1⟩] ∧
      ¬Upholds (call (fun _ => 1) 8) Correct first [.add 0 ⟨'a', 1⟩] := by
  refine ⟨by decide, ?_⟩
  rintro ⟨-, t, ht, -⟩
  cases ht

end AddressList

end TcpAndParallel
