import Mathlib.Data.List.Basic
import Mathlib.Data.List.TakeWhile

namespace TcpAndParallel

namespace CStrings

/-- The bytes up to and including the first newline, and no more than so many. -/
def firstLine : Nat → List UInt8 → List UInt8
  | 0, _ => []
  | _, [] => []
  | room + 1, c :: file => if c = 10 then [c] else c :: firstLine room file

def text (buffer : List UInt8) : List UInt8 := buffer.takeWhile (· ≠ 0)

/-- `strncpy` of a string without its NUL; there is no writing behind the end of the buffer. -/
def strncpy (dest src : List UInt8) (n : Nat) : Option (List UInt8) :=
  if n ≤ dest.length then some (src.take n ++ List.replicate (n - src.length) 0 ++ dest.drop n)
  else none

/-- `strcpy`, which reads up to the NUL and writes it too; `none` where it leaves a buffer. -/
def strcpy (dest src : List UInt8) : Option (List UInt8) :=
  if 0 ∈ src ∧ (text src).length < dest.length then
    some (text src ++ 0 :: dest.drop ((text src).length + 1))
  else none

def isDigit (c : UInt8) : Bool := 48 ≤ c && c ≤ 57

def isSpace (c : UInt8) : Bool := c = 32 || 9 ≤ c && c ≤ 13

def intMax : Nat := 2147483647

/-- The value of decimal digits. -/
def number (digits : List UInt8) : Nat := digits.foldl (fun v d => 10 * v + (d.toNat - 48)) 0

def sign : List UInt8 → Bool × List UInt8
  | 45 :: s => (true, s)
  | 43 :: s => (false, s)
  | s => (false, s)

/-- `atoi` of what stands in a buffer: it has no value where the digits go on to the end of the
buffer or their number does not fit. -/
def atoi (buffer : List UInt8) : Option Int :=
  let (negative, s) := sign (buffer.dropWhile isSpace)
  if s.dropWhile isDigit = [] then none
  else if negative then
    if number (s.takeWhile isDigit) ≤ intMax + 1 then some (-(number (s.takeWhile isDigit) : Int))
    else none
  else if number (s.takeWhile isDigit) ≤ intMax then some (number (s.takeWhile isDigit)) else none

theorem firstLine_append {room : Nat} {line : List UInt8} (rest : List UInt8) (plain : 10 ∉ line)
    (short : line.length < room) : firstLine room (line ++ 10 :: rest) = line ++ [10] := by
  induction line generalizing room with
  | nil =>
    obtain ⟨room, rfl⟩ : ∃ k, room = k + 1 := ⟨room - 1, by simp at short; omega⟩
    exact if_pos rfl
  | cons c line ih =>
    obtain ⟨room, rfl⟩ : ∃ k, room = k + 1 := ⟨room - 1, by simp at short; omega⟩
    have hc : c ≠ 10 := fun he => plain (he ▸ List.mem_cons_self)
    have hlen : line.length < room := by simpa using short
    have hrest := ih (fun hm => plain (List.mem_cons_of_mem c hm)) hlen
    show (if c = 10 then [c] else c :: firstLine room (line ++ 10 :: rest)) = _
    rw [if_neg hc, hrest]
    rfl

theorem firstLine_full {line : List UInt8} (rest : List UInt8) (plain : 10 ∉ line) :
    firstLine line.length (line ++ rest) = line := by
  induction line with
  | nil => cases rest <;> rfl
  | cons c line ih =>
    have hc : c ≠ 10 := fun he => plain (he ▸ List.mem_cons_self)
    have hrest := ih fun hm => plain (List.mem_cons_of_mem c hm)
    show (if c = 10 then [c] else c :: firstLine line.length (line ++ rest)) = _
    rw [if_neg hc, hrest]

theorem firstLine_last {room : Nat} {line : List UInt8} (plain : 10 ∉ line)
    (short : line.length ≤ room) : firstLine room line = line := by
  induction line generalizing room with
  | nil => cases room <;> rfl
  | cons c line ih =>
    obtain ⟨room, rfl⟩ : ∃ k, room = k + 1 := ⟨room - 1, by simp at short; omega⟩
    have hc : c ≠ 10 := fun he => plain (he ▸ List.mem_cons_self)
    have hlen : line.length ≤ room := by simpa using short
    have hrest := ih (fun hm => plain (List.mem_cons_of_mem c hm)) hlen
    show (if c = 10 then [c] else c :: firstLine room line) = _
    rw [if_neg hc, hrest]

theorem text_append {line : List UInt8} (rest : List UInt8) (plain : 0 ∉ line) :
    text (line ++ 0 :: rest) = line := by
  have hall : ∀ c ∈ line, decide (c ≠ 0) = true := by
    intro c hc
    simpa using fun he : c = 0 => plain (he ▸ hc)
  unfold text
  rw [List.takeWhile_append_of_pos hall]
  simp

theorem text_append_of_mem {buffer : List UInt8} (rest : List UInt8) (h : 0 ∈ buffer) :
    text (buffer ++ rest) = text buffer := by
  obtain ⟨us, vs, rfl, hus⟩ := List.eq_append_cons_of_mem h
  rw [List.append_assoc, List.cons_append, text_append _ hus, text_append _ hus]

theorem text_eq_self {line : List UInt8} (plain : 0 ∉ line) : text line = line := by
  refine List.takeWhile_eq_self_iff.mpr fun c hc => ?_
  simpa using fun he : c = 0 => plain (he ▸ hc)

/-- The NUL of a string is where the buffer has the first one. -/
theorem length_text_lt_iff {buffer : List UInt8} {room : Nat} :
    0 ∈ buffer ∧ (text buffer).length < room ↔ ∃ k, k < room ∧ buffer[k]? = some 0 := by
  induction buffer generalizing room with
  | nil => simp
  | cons c buffer ih =>
    by_cases hc : c = 0
    · subst hc
      constructor
      · rintro ⟨-, hroom⟩
        exact ⟨0, hroom, rfl⟩
      · rintro ⟨k, hk, -⟩
        exact ⟨List.mem_cons_self, Nat.zero_lt_of_lt hk⟩
    · have htext : text (c :: buffer) = c :: text buffer :=
        List.takeWhile_cons_of_pos (by simpa using hc)
      rw [htext, List.mem_cons, or_iff_right (Ne.symm hc), List.length_cons]
      constructor
      · rintro ⟨hmem, hroom⟩
        have hrest : (text buffer).length < room - 1 := by omega
        obtain ⟨k, hk, hget⟩ := ih.mp ⟨hmem, hrest⟩
        exact ⟨k + 1, by omega, by simpa using hget⟩
      · rintro ⟨k, hk, hget⟩
        cases k with
        | zero => exact absurd (Option.some.inj hget) hc
        | succ k =>
          have hk' : k < room - 1 := by omega
          obtain ⟨hmem, hlen⟩ := ih.mpr ⟨k, hk', by simpa using hget⟩
          exact ⟨hmem, by omega⟩

theorem length_strncpy {dest src copied : List UInt8} {n : Nat}
    (h : strncpy dest src n = some copied) : copied.length = dest.length := by
  unfold strncpy at h
  split at h
  next hn =>
    obtain rfl := Option.some.inj h
    simp only [List.length_append, List.length_take, List.length_replicate, List.length_drop]
    omega
  next => simp at h

theorem atoi_cons {c : UInt8} {rest : List UInt8} (hc : isDigit c = true ∨ c = 0) :
    atoi (c :: rest) =
      if (c :: rest).dropWhile isDigit = [] then none
      else if number ((c :: rest).takeWhile isDigit) ≤ intMax then
        some (number ((c :: rest).takeWhile isDigit) : Int)
      else none := by
  have hspace : isSpace c = false := by
    rcases hc with hc | rfl
    · simp only [isDigit, Bool.and_eq_true, decide_eq_true_eq] at hc
      simp only [isSpace, Bool.or_eq_false_iff, Bool.and_eq_false_iff, decide_eq_false_iff_not]
      have h := UInt8.le_iff_toNat_le.mp hc.1
      refine ⟨?_, .inr ?_⟩
      · rintro rfl
        exact absurd h (by decide)
      · rw [UInt8.le_iff_toNat_le]
        have : (48 : UInt8).toNat = 48 := rfl
        have : (13 : UInt8).toNat = 13 := rfl
        omega
    · rfl
  have hsign : sign (c :: rest) = (false, c :: rest) := by
    unfold sign
    split
    next he =>
      obtain ⟨rfl, -⟩ := List.cons.inj he
      rcases hc with hc | hc <;> exact absurd hc (by decide)
    next he =>
      obtain ⟨rfl, -⟩ := List.cons.inj he
      rcases hc with hc | hc <;> exact absurd hc (by decide)
    next => rfl
  unfold atoi
  rw [List.dropWhile_cons_of_neg (by simp [hspace]), hsign]
  rfl

end CStrings

end TcpAndParallel
