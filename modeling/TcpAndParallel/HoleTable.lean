import TcpAndParallel.Chain
import TcpAndParallel.Extents

namespace TcpAndParallel

/-- The ways in which a call ends without returning. -/
inductive Fault
  /-- A null pointer is followed. -/
  | nullPointer
  /-- A local variable is read that was never assigned. -/
  | unset
  /-- An array is indexed past its end. -/
  | outOfBounds
  /-- `panic("hole table full")`. -/
  | tableFull
  /-- `panic("alloc_mem: sys_memset failed")`. -/
  | memsetFailed
  /-- A `myassert` fails. -/
  | assertion
  /-- A list walk comes round to a slot it has passed. -/
  | endless
  deriving DecidableEq, Repr

def readLocal {α : Type} : Option α → Except Fault α
  | some a => .ok a
  | none => .error .unset

def deref {α : Type} : Option α → Except Fault α
  | some a => .ok a
  | none => .error .nullPointer

/-- One entry of `hole[_NR_HOLES]`; a pointer to an entry is its index. -/
structure Hole (n : Nat) where
  hNext : Option (Fin n)
  hBase : UInt32
  hLen : UInt32
  freelist : Bool
  holelist : Bool
  deriving DecidableEq, Repr

/-- The file's static data. `cleared` records what `sys_memset` was asked to clear,
as address and size in bytes, the latest first. -/
structure Table (n : Nat) where
  hole : Fin n → Hole n
  holeHead : Option (Fin n)
  freeSlots : Option (Fin n)
  cleared : List (UInt32 × UInt32)

/-- `struct memory`, an entry of the boot loader's list of free chunks. -/
structure Memory where
  base : UInt32
  size : UInt32
  deriving DecidableEq, Repr

variable {n : Nat}

namespace Table

def next (t : Table n) (i : Fin n) : Option (Fin n) := (t.hole i).hNext

def modify (t : Table n) (i : Fin n) (f : Hole n → Hole n) : Table n :=
  { t with hole := Function.update t.hole i (f (t.hole i)) }

end Table

/-- The last three lines of `del_slot`. -/
def Table.recycle (t : Table n) (hp : Fin n) : Table n :=
  { t.modify hp fun h => { h with hNext := t.freeSlots, hBase := 0, hLen := 0 } with
    freeSlots := some hp }

/-- Take `hp`, which follows `prev`, off the hole list and put it on the free slots. -/
def delSlot (prev : Option (Fin n)) (hp : Fin n) (t : Table n) : Except Fault (Table n) :=
  if t.holeHead = some hp then .ok (Table.recycle { t with holeHead := t.next hp } hp)
  else match prev with
    | some prev => .ok ((t.modify prev fun h => { h with hNext := t.next hp }).recycle hp)
    | none => .error .nullPointer

def abuts (t : Table n) (hp nextPtr : Fin n) : Bool :=
  (t.hole hp).hBase + (t.hole hp).hLen == (t.hole nextPtr).hBase

/-- The body of both `if`s of `merge`. -/
def absorbNext (hp nextPtr : Fin n) (t : Table n) : Except Fault (Table n) :=
  delSlot (some hp) nextPtr
    (t.modify hp fun h => { h with hLen := h.hLen + (t.hole nextPtr).hLen })

/-- The second half of `merge`. -/
def mergeNext (hp : Fin n) (t : Table n) : Except Fault (Table n) :=
  match t.next hp with
  | none => .ok t
  | some nextPtr => if abuts t hp nextPtr then absorbNext hp nextPtr t else .ok t

def merge (hp : Fin n) (t : Table n) : Except Fault (Table n) :=
  match t.next hp with
  | none => .ok t
  | some nextPtr =>
    if abuts t hp nextPtr then absorbNext hp nextPtr t >>= mergeNext hp else mergeNext nextPtr t

/-- The `while` loop of `free_mem`: the last hole that begins below `base`. A list
without repetition has at most `n` entries, which bounds the loop. -/
def findPrev (base : UInt32) (t : Table n) :
    Nat → Option (Fin n) → Option (Fin n) → Except Fault (Option (Fin n))
  | _, prev, none => .ok prev
  | 0, _, some _ => .error .endless
  | fuel + 1, prev, some hp =>
    if (t.hole hp).hBase < base then findPrev base t fuel (some hp) (t.next hp) else .ok prev

def Table.takeSlot (t : Table n) (newPtr : Fin n) (base clicks : UInt32) : Table n :=
  { t.modify newPtr fun h => { h with hBase := base, hLen := clicks } with
    freeSlots := t.next newPtr }

/-- "Block to be freed goes on front of the hole list." -/
def Table.insertFront (t : Table n) (newPtr : Fin n) : Table n :=
  { t.modify newPtr fun h => { h with hNext := t.holeHead } with holeHead := some newPtr }

/-- "Insert block after 'prev_ptr'." -/
def Table.insertAfter (t : Table n) (prev newPtr : Fin n) : Table n :=
  (t.modify newPtr fun h => { h with hNext := t.next prev }).modify prev
    fun h => { h with hNext := some newPtr }

def freeMem (base clicks : UInt32) (t : Table n) : Except Fault (Table n) :=
  if clicks = 0 then .ok t
  else match t.freeSlots with
    | none => .error .tableFull
    | some newPtr =>
      let t := t.takeSlot newPtr base clicks
      if t.holeHead.all fun hp => base ≤ (t.hole hp).hBase then
        merge newPtr (t.insertFront newPtr)
      else match findPrev base t n none t.holeHead with
        | .error fault => .error fault
        | .ok none => .error .nullPointer
        | .ok (some prev) => merge prev (t.insertAfter prev newPtr)

/-- The table after the first loop of `mem_init`: every slot is free. -/
def Table.unused (n : Nat) : Table n where
  hole i := ⟨if h : i + 1 < n then some ⟨i + 1, h⟩ else none, 0, 0, false, false⟩
  holeHead := none
  freeSlots := if h : 0 < n then some ⟨0, h⟩ else none
  cleared := []

/-- `mem_init` without the statistics it keeps for the paged mode. The chunks are freed
from the last entry of the list to the first. -/
def memInit (n : Nat) (chunks : List Memory) : Except Fault (Table n) :=
  chunks.foldr (fun c t => t >>= fun t => if 0 < c.size then freeMem c.base c.size t else .ok t)
    (.ok (Table.unused n))

@[simp] theorem Table.modify_self (t : Table n) (i : Fin n) (f : Hole n → Hole n) :
    (t.modify i f).hole i = f (t.hole i) := Function.update_self ..

theorem Table.modify_of_ne (t : Table n) {i j : Fin n} (h : j ≠ i) (f : Hole n → Hole n) :
    (t.modify i f).hole j = t.hole j := Function.update_of_ne h ..

@[simp] theorem Table.modify_holeHead (t : Table n) (i : Fin n) (f : Hole n → Hole n) :
    (t.modify i f).holeHead = t.holeHead := rfl

@[simp] theorem Table.modify_freeSlots (t : Table n) (i : Fin n) (f : Hole n → Hole n) :
    (t.modify i f).freeSlots = t.freeSlots := rfl

theorem Table.modify_next (t : Table n) (i : Fin n) (f : Hole n → Hole n) :
    (t.modify i f).next = Function.update t.next i (f (t.hole i)).hNext := by
  funext j
  by_cases h : j = i
  · subst h
    simp [Table.next]
  · simp [Table.next, Table.modify_of_ne t h, Function.update_of_ne h]

def Hole.extent (h : Hole n) : Extent := ⟨h.hBase.toNat, h.hLen.toNat⟩

/-- The extents of the listed slots. -/
def Table.extents (t : Table n) (is : List (Fin n)) : List Extent :=
  is.map fun i => (t.hole i).extent

/-- The hole list runs through `hs`, the free slots through `fs`, and every slot is on
exactly one of the two. -/
structure Threads (t : Table n) (hs fs : List (Fin n)) : Prop where
  holes : Chain t.next t.holeHead hs
  free : Chain t.next t.freeSlots fs
  apart : (hs ++ fs).Nodup
  all : ∀ i, i ∈ hs ∨ i ∈ fs

end TcpAndParallel
