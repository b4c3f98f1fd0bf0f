import Mathlib.Data.List.Basic
import Mathlib.Data.Nat.Notation

namespace TcpAndParallel

namespace Hide

/-- The value of `buffer` after a byte was read into it; a plain `char` is signed or not. -/
def charValue (signed : Bool) (byte : UInt8) : Int :=
  if signed then byte.toInt8.toInt else byte.toNat

/-- The common loop of `encode` and `decode`, with what it writes and the `d` it ends with. -/
def shift (signed : Bool) (d : UInt8) : List UInt8 → List UInt8 × UInt8
  | [] => ([], d)
  | byte :: rest =>
    let buffer := charValue signed byte
    let e := UInt8.ofInt buffer
    let temp := UInt8.ofNat (e.toNat >>> 4 ||| d.toNat)
    let next := shift signed (UInt8.ofInt (buffer * 16)) rest
    (temp :: next.1, next.2)

def encode (signed : Bool) (sh : List UInt8) : List UInt8 :=
  (shift signed 0 sh).1 ++ [(shift signed 0 sh).2]

/-- `buffer` is a global, so zero when the first read finds the end of the file. -/
def decode (signed : Bool) : List UInt8 → List UInt8
  | [] => (shift signed (UInt8.ofInt (0 * 16)) []).1
  | byte :: rest => (shift signed (UInt8.ofInt (charValue signed byte * 16)) rest).1

/-- The half bytes of a file, the high one of each byte first. -/
def nibbles (bytes : List UInt8) : List Nat := bytes.flatMap fun b => [b.toNat / 16, b.toNat % 16]

@[simp] theorem nibbles_nil : nibbles [] = [] := rfl

@[simp] theorem nibbles_cons (b : UInt8) (bs : List UInt8) :
    nibbles (b :: bs) = b.toNat / 16 :: b.toNat % 16 :: nibbles bs := rfl

theorem nibbles_append (as bs : List UInt8) : nibbles (as ++ bs) = nibbles as ++ nibbles bs := by
  unfold nibbles
  exact List.flatMap_append

theorem length_nibbles (bytes : List UInt8) : (nibbles bytes).length = 2 * bytes.length := by
  induction bytes with
  | nil => rfl
  | cons b bs ih =>
    simp only [nibbles_cons, List.length_cons, ih]
    omega

theorem nibbles_injective {as bs : List UInt8} (h : nibbles as = nibbles bs) : as = bs := by
  induction as generalizing bs with
  | nil =>
    cases bs with
    | nil => rfl
    | cons b bs => simp at h
  | cons a as ih =>
    cases bs with
    | nil => simp at h
    | cons b bs =>
      simp only [nibbles_cons, List.cons.injEq] at h
      obtain ⟨hhigh, hlow, hrest⟩ := h
      have hab : a.toNat = b.toNat := by omega
      rw [UInt8.toNat_inj.mp hab, ih hrest]

theorem toNat_ofInt (x : Int) : (UInt8.ofInt x).toNat = (x % 256).toNat := by
  unfold UInt8.ofInt
  rw [UInt8.toNat_ofNat']
  omega

theorem charValue_mod (signed : Bool) (byte : UInt8) : charValue signed byte % 256 = byte.toNat := by
  have hlt := byte.toNat_lt
  unfold charValue
  split
  next =>
    rw [← Int8.toInt_toBitVec, BitVec.toInt_eq_toNat_bmod]
    have hbmod : Int.bmod byte.toNat 256 % (256 : Nat) = byte.toNat % (256 : Nat) := Int.bmod_emod
    show Int.bmod byte.toNat 256 % (256 : Nat) = byte.toNat
    omega
  next => omega

theorem toNat_e (signed : Bool) (byte : UInt8) :
    (UInt8.ofInt (charValue signed byte)).toNat = byte.toNat := by
  rw [toNat_ofInt, charValue_mod, Int.toNat_natCast]

theorem toNat_d (signed : Bool) (byte : UInt8) :
    (UInt8.ofInt (charValue signed byte * 16)).toNat = byte.toNat % 16 * 16 := by
  have hmod := charValue_mod signed byte
  rw [toNat_ofInt]
  omega

theorem toNat_temp {e d : Nat} (he : e < 256) (hd : d < 256) (low : d % 16 = 0) :
    (UInt8.ofNat (e >>> 4 ||| d)).toNat = d + e / 16 := by
  have hor : e >>> 4 ||| d = d + e / 16 := by
    obtain ⟨k, rfl⟩ := Nat.dvd_of_mod_eq_zero low
    rw [Nat.shiftRight_eq_div_pow, Nat.or_comm]
    exact (Nat.two_pow_add_eq_or_of_lt (by omega : e / 2 ^ 4 < 2 ^ 4) k).symm
  rw [hor, UInt8.toNat_ofNat']
  omega

/-- The loop moves every half byte on by one place. -/
theorem nibbles_shift (signed : Bool) {d : UInt8} (low : d.toNat % 16 = 0) (bytes : List UInt8) :
    nibbles (shift signed d bytes).1 ++ [(shift signed d bytes).2.toNat / 16] =
        d.toNat / 16 :: nibbles bytes ∧
      (shift signed d bytes).2.toNat % 16 = 0 := by
  induction bytes generalizing d with
  | nil => exact ⟨rfl, low⟩
  | cons byte rest ih =>
    have hd := toNat_d signed byte
    obtain ⟨hmoved, hlow⟩ := ih (d := UInt8.ofInt (charValue signed byte * 16)) (by omega)
    have htemp := toNat_temp byte.toNat_lt d.toNat_lt low
    have hlt := byte.toNat_lt
    refine ⟨?_, hlow⟩
    unfold shift
    simp only [nibbles_cons, List.cons_append, hmoved, toNat_e, htemp, List.cons.injEq]
    refine ⟨?_, ?_, ?_, trivial⟩
    · omega
    · omega
    · omega

theorem nibbles_encode (signed : Bool) (s : List UInt8) :
    nibbles (encode signed s) = 0 :: (nibbles s ++ [0]) := by
  obtain ⟨hmoved, hlow⟩ := nibbles_shift signed (d := 0) rfl s
  unfold encode
  rw [nibbles_append, nibbles_cons, hlow, nibbles_nil]
  calc nibbles (shift signed 0 s).1 ++ [(shift signed 0 s).2.toNat / 16, 0]
      = (nibbles (shift signed 0 s).1 ++ [(shift signed 0 s).2.toNat / 16]) ++ [0] := by simp
    _ = 0 :: (nibbles s ++ [0]) := by rw [hmoved]; rfl

theorem nibbles_decode (signed : Bool) (t : List UInt8) :
    nibbles (decode signed t) = (nibbles t).tail.dropLast := by
  cases t with
  | nil => rfl
  | cons byte rest =>
    have hd := toNat_d signed byte
    obtain ⟨hmoved, -⟩ := nibbles_shift signed (d := UInt8.ofInt (charValue signed byte * 16))
      (by omega) rest
    have hhalf : byte.toNat % 16 * 16 / 16 = byte.toNat % 16 := by omega
    rw [hd, hhalf] at hmoved
    show nibbles (shift signed (UInt8.ofInt (charValue signed byte * 16)) rest).1 = _
    rw [nibbles_cons, List.tail_cons, ← hmoved, List.dropLast_concat]

theorem length_encode (signed : Bool) (s : List UInt8) :
    (encode signed s).length = s.length + 1 := by
  have h := congrArg List.length (nibbles_encode signed s)
  simp only [length_nibbles, List.length_cons, List.length_append, List.length_nil] at h
  omega

theorem length_decode (signed : Bool) (t : List UInt8) :
    (decode signed t).length = t.length - 1 := by
  have h := congrArg List.length (nibbles_decode signed t)
  simp only [length_nibbles, List.length_dropLast, List.length_tail] at h
  omega

theorem decode_encode (signed : Bool) (s : List UInt8) : decode signed (encode signed s) = s := by
  apply nibbles_injective
  rw [nibbles_decode, nibbles_encode, List.tail_cons, List.dropLast_concat]

theorem encode_decode (signed : Bool) {t : List UInt8} {first last : UInt8}
    (hfirst : t.head? = some first) (hlast : t.getLast? = some last) (high : first.toNat / 16 = 0)
    (low : last.toNat % 16 = 0) : encode signed (decode signed t) = t := by
  apply nibbles_injective
  rw [nibbles_encode, nibbles_decode]
  obtain ⟨rest, rfl⟩ := List.head?_eq_some_iff.mp hfirst
  obtain ⟨front, hfront⟩ := List.getLast?_eq_some_iff.mp hlast
  have hends : nibbles (first :: rest) = nibbles front ++ [last.toNat / 16] ++ [0] := by
    rw [hfront, nibbles_append, nibbles_cons, low]
    simp
  have hstart : nibbles (first :: rest) = 0 :: (nibbles (first :: rest)).tail := by
    rw [nibbles_cons, high]
    rfl
  have htail : (nibbles (first :: rest)).tail ≠ [] := by simp
  have hzero : (nibbles (first :: rest)).tail.getLast htail = 0 := by
    rw [List.getLast_tail]
    simp [hends]
  calc 0 :: ((nibbles (first :: rest)).tail.dropLast ++ [0])
      = 0 :: (nibbles (first :: rest)).tail := by
        rw [← hzero, List.dropLast_append_getLast htail]
    _ = nibbles (first :: rest) := hstart.symm

/-- Each of the two undoes the other; `encode` adds the byte that `decode` takes away. -/
theorem inverse (signed : Bool) :
    (∀ s, decode signed (encode signed s) = s ∧ (encode signed s).length = s.length + 1) ∧
    (∀ t n, t.length = n + 1 → (decode signed t).length = n) ∧
    ∀ t first last, t.head? = some first → t.getLast? = some last →
      first.toNat / 16 = 0 → last.toNat % 16 = 0 → encode signed (decode signed t) = t := by
  refine ⟨fun s => ⟨decode_encode signed s, length_encode signed s⟩, fun t n ht => ?_, ?_⟩
  · rw [length_decode, ht]
    omega
  · intro t first last hfirst hlast high low
    exact encode_decode signed hfirst hlast high low

/-- Two bytes that keep a half byte above `0x7f` between them. -/
theorem inverse_bytes : (encode true (decode true [0x0f, 0xa0]) = [0x0f, 0xa0] ∧
    (decode true [0x0f, 0xa0]).length = 1) ∧ decode true (encode true [0xfa]) = [0xfa] :=
  ⟨⟨(inverse true).2.2 [0x0f, 0xa0] 0x0f 0xa0 rfl rfl rfl rfl,
    (inverse true).2.1 [0x0f, 0xa0] 1 rfl⟩, ((inverse true).1 [0xfa]).1⟩

end Hide

end TcpAndParallel
