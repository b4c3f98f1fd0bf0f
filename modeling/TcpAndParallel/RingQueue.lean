import Mathlib.Data.List.Basic
import Mathlib.Logic.Function.Basic

namespace TcpAndParallel

structure Ring where
  buf : Nat → Int32
  head : Nat
  tail : Nat
  full : Bool
  empty : Bool

namespace Ring

/-- What is in `buf` comes from `malloc`. -/
def queueInit (buf : Nat → Int32) : Ring := ⟨buf, 0, 0, false, true⟩

def store (value : Int32) (q : Ring) : Ring := { q with buf := Function.update q.buf q.tail value }

def tailUp (q : Ring) : Ring := { q with tail := q.tail + 1 }

def tailWrap (size : Nat) (q : Ring) : Ring := if q.tail = size then { q with tail := 0 } else q

def markFull (q : Ring) : Ring := if q.tail = q.head then { q with full := true } else q

def clearEmpty (q : Ring) : Ring := { q with empty := false }

def queueAdd (size : Nat) (q : Ring) (value : Int32) : Ring :=
  (((q.store value).tailUp.tailWrap size).markFull).clearEmpty

def load (q : Ring) : Int32 := q.buf q.head

def headUp (q : Ring) : Ring := { q with head := q.head + 1 }

def headWrap (size : Nat) (q : Ring) : Ring := if q.head = size then { q with head := 0 } else q

def markEmpty (q : Ring) : Ring := if q.head = q.tail then { q with empty := true } else q

def clearFull (q : Ring) : Ring := { q with full := false }

def queueDel (size : Nat) (q : Ring) : Int32 × Ring :=
  (q.load, ((q.headUp.headWrap size).markEmpty).clearFull)

/-- The cell `i` places behind the head, around the end of the buffer. -/
def slot (size head i : Nat) : Nat := if head + i < size then head + i else head + i - size

/-- The ring holds the values of `xs`, the oldest at its head, and its flags tell so. -/
structure Holds (size : Nat) (q : Ring) (xs : List Int32) : Prop where
  fits : xs.length ≤ size
  head_lt : q.head < size
  tail_eq : q.tail = slot size q.head xs.length
  cells : ∀ (i : Nat) (hi : i < xs.length), q.buf (slot size q.head i) = xs[i]
  full : q.full = true ↔ xs.length = size
  empty : q.empty = true ↔ xs.length = 0

variable {size : Nat} {q : Ring} {xs : List Int32} {x : Int32}

theorem slot_lt {head i : Nat} (hh : head < size) (hi : i ≤ size) : slot size head i < size := by
  unfold slot
  split <;> omega

theorem Holds.tail_lt (h : q.Holds size xs) : q.tail < size := by
  rw [h.tail_eq]
  exact slot_lt h.head_lt h.fits

theorem queueInit_holds (buf : Nat → Int32) (hsize : 1 ≤ size) : (queueInit buf).Holds size [] where
  fits := by simp
  head_lt := hsize
  tail_eq := by simp [queueInit, slot]
  cells i hi := by simp at hi
  full := by
    simp only [queueInit, List.length_nil, Bool.false_eq_true, false_iff]
    omega
  empty := by simp [queueInit]

theorem tailWrap_eq (q : Ring) :
    q.tailWrap size = { q with tail := if q.tail = size then 0 else q.tail } := by
  unfold tailWrap
  split <;> rfl

theorem markFull_eq (q : Ring) : q.markFull = { q with full := q.full || decide (q.tail = q.head) } := by
  unfold markFull
  split
  next h => simp [h]
  next h => simp [h]

theorem headWrap_eq (q : Ring) :
    q.headWrap size = { q with head := if q.head = size then 0 else q.head } := by
  unfold headWrap
  split <;> rfl

theorem markEmpty_eq (q : Ring) : q.markEmpty = { q with empty := q.empty || decide (q.head = q.tail) } := by
  unfold markEmpty
  split
  next h => simp [h]
  next h => simp [h]

theorem queueAdd_eq (q : Ring) (value : Int32) : q.queueAdd size value =
    { buf := Function.update q.buf q.tail value
      head := q.head
      tail := if q.tail + 1 = size then 0 else q.tail + 1
      full := q.full || decide ((if q.tail + 1 = size then 0 else q.tail + 1) = q.head)
      empty := false } := by
  unfold queueAdd
  rw [markFull_eq, tailWrap_eq]
  rfl

theorem queueDel_eq (q : Ring) : q.queueDel size =
    (q.buf q.head,
      { buf := q.buf
        head := if q.head + 1 = size then 0 else q.head + 1
        tail := q.tail
        full := false
        empty := q.empty || decide ((if q.head + 1 = size then 0 else q.head + 1) = q.tail) }) := by
  unfold queueDel
  rw [markEmpty_eq, headWrap_eq]
  rfl

/-- The tail catches up with the head when the last cell is filled, and only then. -/
theorem queueAdd_holds (h : q.Holds size xs) (room : xs.length < size) :
    (q.queueAdd size x).Holds size (xs ++ [x]) := by
  have hhead := h.head_lt
  have htail := h.tail_eq
  have hfull := h.full
  rw [queueAdd_eq]
  constructor
  · simp only [List.length_append, List.length_singleton]
    omega
  · exact hhead
  · simp only [List.length_append, List.length_singleton, htail]
    unfold slot
    split <;> split <;> split <;> omega
  · intro i hi
    simp only [List.length_append, List.length_singleton] at hi
    show Function.update q.buf q.tail x (slot size q.head i) = _
    by_cases hlast : i = xs.length
    · subst hlast
      simp [htail]
    · have hne : slot size q.head i ≠ q.tail := by
        rw [htail]
        unfold slot
        split <;> split <;> omega
      rw [Function.update_of_ne hne, h.cells i (by omega), List.getElem_append_left]
  · simp only [Bool.or_eq_true, decide_eq_true_eq, List.length_append, List.length_singleton, hfull, htail]
    unfold slot
    split <;> split <;> omega
  · simp

theorem queueDel_holds (h : q.Holds size (x :: xs)) :
    (q.queueDel size).1 = x ∧ (q.queueDel size).2.Holds size xs := by
  have hhead := h.head_lt
  have htail := h.tail_eq
  have hempty := h.empty
  have hfits := h.fits
  simp only [List.length_cons] at htail hempty hfits
  rw [queueDel_eq]
  refine ⟨?_, ?_, ?_, ?_, ?_, ?_, ?_⟩
  · have hfirst := h.cells 0 (by simp)
    simpa [slot, hhead] using hfirst
  · omega
  · show (if q.head + 1 = size then 0 else q.head + 1) < size
    split <;> omega
  · show q.tail = slot size (if q.head + 1 = size then 0 else q.head + 1) xs.length
    rw [htail]
    unfold slot
    split <;> split <;> split <;> omega
  · intro i hi
    have hcell := h.cells (i + 1) (by simpa using hi)
    have hslot : slot size (if q.head + 1 = size then 0 else q.head + 1) i = slot size q.head (i + 1) := by
      unfold slot
      split <;> split <;> split <;> omega
    show q.buf (slot size (if q.head + 1 = size then 0 else q.head + 1) i) = xs[i]
    rw [hslot, hcell, List.getElem_cons_succ]
  · simp only [Bool.false_eq_true, false_iff]
    omega
  · simp only [Bool.or_eq_true, decide_eq_true_eq, hempty, htail]
    unfold slot
    split <;> split <;> omega

end Ring

end TcpAndParallel
