import Mathlib.Tactic.FieldSimp
import Mathlib.Tactic.LinearCombination
import TcpAndParallel.ComplexInversion
import TcpAndParallel.GaussJordan

namespace TcpAndParallel

namespace ComplexInversion

open NodeTables

def OnAxis (z : ℂ) : Prop := z.re = 0 ∨ z.im = 0

theorem roundUp_eq_self_iff {x : ℝ} : roundUp x = x ↔ ∃ k : ℤ, x * 1000000 = k := by
  unfold roundUp
  refine ⟨fun h => ⟨⌈x * 1000000⌉, ?_⟩, fun ⟨k, hk⟩ => ?_⟩
  · rw [div_eq_iff (by norm_num)] at h
    exact h.symm
  · rw [hk, Int.ceil_intCast, ← hk]
    norm_num

theorem roundUp_zero : roundUp (0 : ℝ) = 0 :=
  roundUp_eq_self_iff.mpr ⟨0, by simp⟩

theorem up_eq_self_iff {z : ℂ} : up z = z ↔ Millionths z := by
  rw [Complex.ext_iff]
  unfold up Millionths
  rw [roundUp_eq_self_iff, roundUp_eq_self_iff]
  constructor
  · rintro ⟨⟨j, hj⟩, k, hk⟩
    exact ⟨j, k, hj, hk⟩
  · rintro ⟨j, k, hj, hk⟩
    exact ⟨⟨j, hj⟩, k, hk⟩

theorem up_millionths (z : ℂ) : Millionths (up z) := by
  refine ⟨⌈z.re * 1000000⌉, ⌈z.im * 1000000⌉, ?_, ?_⟩
  · exact div_mul_cancel₀ _ (by norm_num)
  · exact div_mul_cancel₀ _ (by norm_num)

theorem up_zero : up 0 = 0 :=
  up_eq_self_iff.mpr ⟨0, 0, by simp, by simp⟩

theorem roundUp_eq_neg {x : ℝ} (h : roundUp x = -x) : x = 0 := by
  obtain ⟨k, hk⟩ : ∃ k : ℤ, x * 1000000 = k := by
    refine ⟨-⌈x * 1000000⌉, ?_⟩
    unfold roundUp at h
    rw [div_eq_iff (by norm_num)] at h
    push_cast
    linarith
  rw [roundUp_eq_self_iff.mpr ⟨k, hk⟩] at h
  linarith

theorem Millionths.neg {z : ℂ} (h : Millionths z) : Millionths (-z) := by
  obtain ⟨j, k, hj, hk⟩ := h
  refine ⟨-j, -k, ?_, ?_⟩
  · rw [Complex.neg_re, neg_mul, hj, Int.cast_neg]
  · rw [Complex.neg_im, neg_mul, hk, Int.cast_neg]

theorem Millionths.sub {z w : ℂ} (hz : Millionths z) (hw : Millionths w) : Millionths (z - w) := by
  obtain ⟨j, k, hj, hk⟩ := hz
  obtain ⟨j', k', hj', hk'⟩ := hw
  refine ⟨j - j', k - k', ?_, ?_⟩
  · rw [Complex.sub_re, sub_mul, hj, hj', Int.cast_sub]
  · rw [Complex.sub_im, sub_mul, hk, hk', Int.cast_sub]

theorem Millionths.double {z : ℂ} (h : Millionths z) : Millionths (2 * z) := by
  have hsub := h.sub h.neg
  rw [sub_neg_eq_add, ← two_mul] at hsub
  exact hsub

theorem normalised_zero (p : ℂ) : normalised p 0 = 0 := by
  simp [normalised, up_zero]

theorem conjugate_eq {p : ℂ} (h : OnAxis p) : (divisor p : ℂ) = p * conjugate p := by
  unfold divisor
  apply Complex.ext
  · simp
  · rw [Complex.ofReal_im]
    unfold conjugate
    by_cases him : p.im = 0
    · simp [him]
    · have hre : p.re = 0 := h.resolve_right him
      simp [him, hre]

theorem OnAxis.inv {z : ℂ} (h : OnAxis z) : OnAxis z⁻¹ := by
  unfold OnAxis
  rcases h with h | h
  · simp [h]
  · simp [h]

theorem divisor_ne_zero {p : ℂ} (h : OnAxis p) (hp : p ≠ 0) : divisor p ≠ 0 := by
  rw [← Complex.ofReal_ne_zero, conjugate_eq h]
  apply mul_ne_zero hp
  unfold conjugate
  split
  next => exact hp
  next => exact one_ne_zero

theorem normalised_eq {p : ℂ} (h : OnAxis p) (hp : p ≠ 0) (x : ℂ) :
    normalised p x = up (x / p) := by
  have hne := divisor_ne_zero h hp
  rw [← Complex.ofReal_ne_zero, conjugate_eq h] at hne
  unfold normalised
  rw [conjugate_eq h, mul_div_mul_right _ _ (right_ne_zero_of_mul hne)]

theorem skew_eq (x y : ℂ) : skew x y = x * y + 2 * (x.im * y.im : ℝ) := by
  apply Complex.ext
  · simp [skew, Complex.mul_re]
    ring
  · simp [skew, Complex.mul_im]

theorem skew_neg (x y : ℂ) : skew x (-y) = -skew x y := by
  rw [skew_eq, skew_eq, Complex.neg_im]
  push_cast
  ring

/-- Beside a factor on an axis the rounding and the slip do not make up for each other. -/
theorem up_eq_of_skew {z w : ℂ} (axis : OnAxis w) (hw : w ≠ 0) (h : skew (up z) w = z * w) :
    up z = z := by
  rcases axis with hre | him
  · have him : w.im ≠ 0 := fun him => hw (Complex.ext hre him)
    rw [Complex.ext_iff, Complex.mul_re, Complex.mul_im, hre] at h
    simp only [skew, hre, mul_zero, zero_add, zero_sub, add_zero] at h
    have hzre : (up z).re = z.re := mul_right_cancel₀ him h.2
    have hzim : (up z).im = -z.im := by
      apply mul_right_cancel₀ him
      rw [h.1, neg_mul]
    have hzero := roundUp_eq_neg hzim
    refine Complex.ext hzre ?_
    rw [hzim, hzero, neg_zero]
  · rw [skew_eq, him, mul_zero, Complex.ofReal_zero, mul_zero, add_zero] at h
    exact mul_right_cancel₀ hw h

theorem skew_eq_mul_iff {x y : ℂ} : skew x y = x * y ↔ x.im * y.im = 0 := by
  rw [skew_eq]
  constructor
  · intro h
    have h2 : (2 : ℂ) * (x.im * y.im : ℝ) = 0 := by linear_combination h
    rcases mul_eq_zero.mp h2 with h3 | h3
    · norm_num at h3
    · exact_mod_cast h3
  · intro h
    rw [h]
    simp

/-- From the third column on the matrix is the identity, so that two rounds are enough. -/
def Trimmed {n : Nat} (A : Matrix (Fin n) (Fin n) ℂ) : Prop :=
  2 ≤ n ∧ ∀ i j : Fin n, 2 ≤ j.val → A i j = if i = j then 1 else 0

/-- Rounding up changes nothing: the pivots are on the axes, and what they leave of the corner
`a b` over `c d` are whole numbers of millionths. -/
structure ExactCorner (a b c d : ℂ) : Prop where
  firstPivot : OnAxis a
  secondPivot : OnAxis ((a * d - b * c) / a)
  reciprocal : Millionths (1 / a)
  right : Millionths (b / a)
  diagonal : Millionths (a / (a * d - b * c))
  below : Millionths (c / (a * d - b * c))

/-- The slip of the sign adds nothing in the rows of the corner. -/
structure UnsignedCorner (a b c d : ℂ) : Prop where
  first : c.im * (1 / a).im = 0
  below : (b / a).im * (c / (a * d - b * c)).im = 0
  diagonal : (b / a).im * (a / (a * d - b * c)).im = 0

structure UnsignedRow (a b c d x y : ℂ) : Prop where
  first : x.im * (1 / a).im = (y - x * (b / a)).im * (c / (a * d - b * c)).im
  second : (y - x * (b / a)).im * (a / (a * d - b * c)).im = 0

/-- The pivots are on the axes, and where the first is real its reciprocal is not rounded to make up
for a slip of the sign. -/
structure AlignedCorner (a b c d : ℂ) : Prop where
  firstPivot : OnAxis a
  secondPivot : OnAxis ((a * d - b * c) / a)
  reciprocal : a.im = 0 → Millionths (1 / a) ∨ (b / a).im * (c / (a * d - b * c)).im = 0

section Corner

variable {n : Nat} {A Y : Matrix (Fin n) (Fin n) ℂ} {p q : Fin n}

theorem corner_ne (hp : p.val = 0) (hq : q.val = 1) : p ≠ q := by
  rintro rfl
  omega

theorem row_ne (hp : p.val = 0) (hq : q.val = 1) {i : Fin n} (hi : 2 ≤ i.val) :
    i ≠ p ∧ i ≠ q := by
  constructor
  all_goals
    rintro rfl
    omega

theorem corner_cases (hp : p.val = 0) (hq : q.val = 1) (k : Fin n) :
    k = p ∨ k = q ∨ 2 ≤ k.val := by
  by_contra hno
  push Not at hno
  have hkp : k.val ≠ p.val := fun he => hno.1 (Fin.ext he)
  have hkq : k.val ≠ q.val := fun he => hno.2.1 (Fin.ext he)
  omega

theorem mul_apply_trimmed (h : ∀ i j : Fin n, 2 ≤ j.val → A i j = if i = j then 1 else 0)
    (hp : p.val = 0) (hq : q.val = 1) (i c : Fin n) :
    (A * Y) i c = A i p * Y p c + A i q * Y q c + if 2 ≤ i.val then Y i c else 0 := by
  have hpq := corner_ne hp hq
  have hlow : ¬2 ≤ p.val ∧ ¬2 ≤ q.val := by omega
  have hterm : ∀ k, A i k * Y k c = (if k = p then A i p * Y p c else 0) +
      (if k = q then A i q * Y q c else 0) +
      (if k = i then (if 2 ≤ i.val then Y i c else 0) else 0) := by
    intro k
    rcases corner_cases hp hq k with rfl | rfl | hk
    · by_cases hki : k = i
      · subst hki
        simp [hpq, hlow.1]
      · simp [hpq, hki]
    · by_cases hki : k = i
      · subst hki
        simp [hpq.symm, hlow.2]
      · simp [hpq.symm, hki]
    · obtain ⟨hkp, hkq⟩ := row_ne hp hq hk
      rw [h i k hk]
      by_cases hki : k = i
      · subst hki
        simp [hkp, hkq, hk]
      · have hik : ¬i = k := fun he => hki he.symm
        simp [hkp, hkq, hki, hik]
  rw [Matrix.mul_apply, Finset.sum_congr rfl fun k _ => hterm k, Finset.sum_add_distrib,
    Finset.sum_add_distrib]
  simp

/-- The first two columns of the inverse, in the rows of the corner, and what makes the rows below
vanish. -/
structure InverseColumns (A Y : Matrix (Fin n) (Fin n) ℂ) (p q : Fin n) : Prop where
  corner : Y p p = A q q / (A p p * A q q - A p q * A q p)
  below : Y q p = -(A q p / (A p p * A q q - A p q * A q p))
  above : Y p q = -(A p q / (A p p * A q q - A p q * A q p))
  diagonal : Y q q = A p p / (A p p * A q q - A p q * A q p)
  rows : ∀ i : Fin n, 2 ≤ i.val →
    A i p * Y p p + A i q * Y q p + Y i p = 0 ∧ A i p * Y p q + A i q * Y q q + Y i q = 0

theorem InverseColumns.of_mul_eq_one
    (h : ∀ i j : Fin n, 2 ≤ j.val → A i j = if i = j then 1 else 0) (hp : p.val = 0)
    (hq : q.val = 1) (hD : A p p * A q q - A p q * A q p ≠ 0) (hmul : A * Y = 1) :
    InverseColumns A Y p q := by
  have hpq := corner_ne hp hq
  have hentry : ∀ i c : Fin n, A i p * Y p c + A i q * Y q c +
      (if 2 ≤ i.val then Y i c else 0) = if i = c then 1 else 0 := by
    intro i c
    rw [← mul_apply_trimmed h hp hq, hmul, Matrix.one_apply]
  have hpp := hentry p p
  have hqp := hentry q p
  have hpc := hentry p q
  have hqc := hentry q q
  simp only [hp, hq, hpq, hpq.symm, if_true, if_false, Nat.reduceLeDiff, add_zero]
    at hpp hqp hpc hqc
  refine ⟨?_, ?_, ?_, ?_, fun i hi => ?_⟩
  · rw [eq_div_iff hD]
    linear_combination A q q * hpp - A p q * hqp
  · rw [← neg_div, eq_div_iff hD]
    linear_combination A p p * hqp - A q p * hpp
  · rw [← neg_div, eq_div_iff hD]
    linear_combination A q q * hpc - A p q * hqc
  · rw [eq_div_iff hD]
    linear_combination A p p * hqc - A q p * hpc
  · obtain ⟨hip, hiq⟩ := row_ne hp hq hi
    have hfirst := hentry i p
    have hsecond := hentry i q
    rw [if_pos hi, if_neg hip] at hfirst
    rw [if_pos hi, if_neg hiq] at hsecond
    exact ⟨hfirst, hsecond⟩

theorem mul_eq_one_iff (h : ∀ i j : Fin n, 2 ≤ j.val → A i j = if i = j then 1 else 0)
    (hp : p.val = 0) (hq : q.val = 1)
    (hY : ∀ i j : Fin n, 2 ≤ j.val → Y i j = if i = j then 1 else 0)
    (hD : A p p * A q q - A p q * A q p ≠ 0) : A * Y = 1 ↔ InverseColumns A Y p q := by
  refine ⟨InverseColumns.of_mul_eq_one h hp hq hD, fun ⟨hpp, hqp, hpq', hqq, hrows⟩ => ?_⟩
  have hpq := corner_ne hp hq
  have hlow : ¬2 ≤ p.val ∧ ¬2 ≤ q.val := by omega
  ext i c
  rw [mul_apply_trimmed h hp hq, Matrix.one_apply]
  rcases corner_cases hp hq c with rfl | rfl | hc
  · rcases corner_cases hp hq i with rfl | rfl | hi
    · rw [if_neg hlow.1, if_pos rfl, hpp, hqp, add_zero, ← div_self hD]
      ring
    · rw [if_neg hlow.2, if_neg hpq.symm, hpp, hqp]
      ring
    · rw [if_pos hi, if_neg (row_ne hp hq hi).1, (hrows i hi).1]
  · rcases corner_cases hp hq i with rfl | rfl | hi
    · rw [if_neg hlow.1, if_neg hpq, hpq', hqq]
      ring
    · rw [if_neg hlow.2, if_pos rfl, hpq', hqq, add_zero, ← div_self hD]
      ring
    · rw [if_pos hi, if_neg (row_ne hp hq hi).2, (hrows i hi).2]
  · obtain ⟨hpc, hqc⟩ := row_ne hp hq hc
    rw [hY p c hc, hY q c hc, hY i c hc, if_neg hpc.symm, if_neg hqc.symm]
    rcases corner_cases hp hq i with rfl | rfl | hi
    · simp [hp, hpc.symm]
    · simp [hq, hqc.symm]
    · simp [hi]

end Corner

section Rounds

variable {n : Nat} {A : Matrix (Fin n) (Fin n) ℂ} {p q : Fin n}

theorem stage_one (hp : p.val = 0) : stage A 1 = (matrixStep A p, augmentStep A 1 p) := by
  have hlt : 0 < n := by
    have h := p.isLt
    omega
  have he : (⟨0, hlt⟩ : Fin n) = p := Fin.ext hp.symm
  simp [stage, hlt, he]

theorem stage_two (hp : p.val = 0) (hq : q.val = 1) :
    (stage A 2).2 = augmentStep (matrixStep A p) (augmentStep A 1 p) q := by
  have hlt : 1 < n := by
    have h := q.isLt
    omega
  have he : (⟨1, hlt⟩ : Fin n) = q := Fin.ext hq.symm
  rw [stage, dif_pos hlt, he, stage_one hp]

/-- The entries of the augment after both rounds, from the second pivot, the entry to the right of
the first pivot and the first entry of its row in the augment. -/
structure TwoRounds (A Y : Matrix (Fin n) (Fin n) ℂ) (p q : Fin n) (pivot right inverse : ℂ) :
    Prop where
  diagonal : Y q q = normalised pivot 1
  below : Y q p = normalised pivot (-skew (A q p) inverse)
  corner : Y p p = inverse - skew right (Y q p)
  above : Y p q = -skew right (Y q q)
  rowFirst : ∀ i : Fin n, 2 ≤ i.val →
    Y i p = -skew (A i p) inverse - skew (A i q - A i p * right) (Y q p)
  rowSecond : ∀ i : Fin n, 2 ≤ i.val → Y i q = -skew (A i q - A i p * right) (Y q q)
  rest : ∀ i j : Fin n, 2 ≤ j.val → Y i j = if i = j then 1 else 0

theorem twoRounds (hp : p.val = 0) (hq : q.val = 1) :
    TwoRounds A (stage A 2).2 p q (A q q - A q p * normalised (A p p) (A p q))
      (normalised (A p p) (A p q)) (normalised (A p p) 1) := by
  have hpq := corner_ne hp hq
  have hqp := hpq.symm
  have hle : p.val ≤ q.val ∧ ¬q.val ≤ p.val := by omega
  obtain ⟨h1, h2⟩ := hle
  rw [stage_two hp hq]
  refine ⟨?_, ?_, ?_, ?_, fun i hi => ?_, fun i hi => ?_, fun i j hj => ?_⟩
  · simp [augmentStep, matrixStep, hqp, h1, h2]
  · simp [augmentStep, matrixStep, hqp, h1]
  · simp [augmentStep, matrixStep, hqp, hpq, h1]
  · simp [augmentStep, matrixStep, hqp, hpq, h1, h2, normalised_zero]
  · obtain ⟨hip, hiq⟩ := row_ne hp hq hi
    simp [augmentStep, matrixStep, hqp, hip, hiq, h1]
  · obtain ⟨hip, hiq⟩ := row_ne hp hq hi
    simp [augmentStep, matrixStep, hqp, hip, hiq, h1, h2]
  · obtain ⟨hjp, hjq⟩ := row_ne hp hq hj
    have hlt : ¬j.val ≤ p.val ∧ ¬j.val ≤ q.val := by omega
    by_cases hiq : i = q
    · subst hiq
      simp [augmentStep, matrixStep, hqp, hjq.symm, hlt.1, normalised_zero]
    · by_cases hip : i = p
      · subst hip
        simp [augmentStep, hpq, hjp.symm, hlt.2, normalised_zero]
      · simp [augmentStep, hip, hiq, hlt.1, hlt.2, Matrix.one_apply]

end Rounds

section Exact

variable {a b c d : ℂ}

/-- With the first pivot on an axis the slip of the sign is a part of `c / a`, so that it stays a
whole number of millionths. -/
theorem millionths_slip {w : ℂ} (ha : OnAxis a) (hw : OnAxis w) (h : Millionths (c / a * w)) :
    Millionths ((c.im * (1 / a).im : ℝ) * w) := by
  obtain ⟨j, k, hj, hk⟩ := h
  by_cases him : a.im = 0
  · refine ⟨0, 0, ?_, ?_⟩ <;> simp [him]
  have hre : a.re = 0 := ha.resolve_right him
  have hslip : (c / a).re = -(c.im * (1 / a).im) := by
    rw [div_eq_mul_one_div, Complex.mul_re]
    simp [hre]
  rw [Complex.mul_re, hslip] at hj
  rw [Complex.mul_im, hslip] at hk
  rcases hw with hwre | hwim
  · refine ⟨0, -k, ?_, ?_⟩
    · simp [hwre]
    · rw [Complex.im_ofReal_mul, Int.cast_neg, ← hk, hwre]
      ring
  · refine ⟨-j, 0, ?_, ?_⟩
    · rw [Complex.re_ofReal_mul, Int.cast_neg, ← hj, hwim]
      ring
    · simp [hwim]

theorem normalised_second (ha : a ≠ 0) (hD : a * d - b * c ≠ 0)
    (axis : OnAxis ((a * d - b * c) / a)) (x : ℂ) :
    normalised (d - c * (b / a)) x = up (x * (a / (a * d - b * c))) := by
  have hpivot : d - c * (b / a) = (a * d - b * c) / a := by
    field_simp
  rw [hpivot, normalised_eq axis (div_ne_zero hD ha), div_div_eq_mul_div, mul_div_assoc]

theorem ExactCorner.values (h : ExactCorner a b c d) (ha : a ≠ 0) (hD : a * d - b * c ≠ 0) :
    normalised a b = b / a ∧ normalised a 1 = 1 / a ∧
      normalised (d - c * (b / a)) 1 = a / (a * d - b * c) ∧
      normalised (d - c * (b / a)) (-skew c (1 / a)) = -(c / (a * d - b * c)) -
        2 * ((c.im * (1 / a).im : ℝ) * (a / (a * d - b * c))) := by
  have haxis : OnAxis (a / (a * d - b * c)) := by
    rw [← inv_div]
    exact h.secondPivot.inv
  refine ⟨?_, ?_, ?_, ?_⟩
  · rw [normalised_eq h.firstPivot ha, up_eq_self_iff]
    exact h.right
  · rw [normalised_eq h.firstPivot ha, up_eq_self_iff]
    exact h.reciprocal
  · rw [normalised_second ha hD h.secondPivot, one_mul, up_eq_self_iff]
    exact h.diagonal
  · have hprod : c / a * (a / (a * d - b * c)) = c / (a * d - b * c) := by
      rw [div_mul_div_cancel₀ ha]
    have hslip := millionths_slip h.firstPivot haxis (hprod ▸ h.below)
    have hskew : -skew c (1 / a) * (a / (a * d - b * c)) = -(c / (a * d - b * c)) -
        2 * ((c.im * (1 / a).im : ℝ) * (a / (a * d - b * c))) := by
      rw [skew_eq, ← hprod]
      ring
    rw [normalised_second ha hD h.secondPivot, hskew, up_eq_self_iff]
    exact h.below.neg.sub hslip.double

theorem corner_eq (ha : a ≠ 0) (hD : a * d - b * c ≠ 0) :
    1 / a + b / a * (c / (a * d - b * c)) = d / (a * d - b * c) := by
  field_simp
  ring

theorem above_eq (ha : a ≠ 0) : b / a * (a / (a * d - b * c)) = b / (a * d - b * c) :=
  div_mul_div_cancel₀ ha

theorem two_mul_ofReal_eq_zero {s : ℝ} : (2 : ℂ) * s = 0 ↔ s = 0 := by
  rw [mul_eq_zero, Complex.ofReal_eq_zero]
  simp

theorem unsignedRow_iff {x y : ℂ} (ha : a ≠ 0) (hD : a * d - b * c ≠ 0) :
    (x * (d / (a * d - b * c)) + y * -(c / (a * d - b * c)) +
        (-skew x (1 / a) - skew (y - x * (b / a)) (-(c / (a * d - b * c)))) = 0 ∧
      x * -(b / (a * d - b * c)) + y * (a / (a * d - b * c)) +
        -skew (y - x * (b / a)) (a / (a * d - b * c)) = 0) ↔ UnsignedRow a b c d x y := by
  have hcorner := corner_eq ha hD
  have habove := above_eq (b := b) (c := c) (d := d) ha
  have hfirst : x * (d / (a * d - b * c)) + y * -(c / (a * d - b * c)) +
      (-skew x (1 / a) - skew (y - x * (b / a)) (-(c / (a * d - b * c)))) =
      2 * (((y - x * (b / a)).im * (c / (a * d - b * c)).im - x.im * (1 / a).im : ℝ) : ℂ) := by
    rw [skew_neg, skew_eq, skew_eq, Complex.ofReal_sub]
    linear_combination -x * hcorner
  have hsecond : x * -(b / (a * d - b * c)) + y * (a / (a * d - b * c)) +
      -skew (y - x * (b / a)) (a / (a * d - b * c)) =
      2 * ((-((y - x * (b / a)).im * (a / (a * d - b * c)).im) : ℝ) : ℂ) := by
    rw [skew_eq, Complex.ofReal_neg]
    linear_combination x * habove
  rw [hfirst, hsecond, two_mul_ofReal_eq_zero, two_mul_ofReal_eq_zero, sub_eq_zero, neg_eq_zero]
  constructor
  · rintro ⟨h1, h2⟩
    exact ⟨h1.symm, h2⟩
  · rintro ⟨h1, h2⟩
    exact ⟨h1.symm, h2⟩

/-- Where rounding up changes nothing, the augment is the inverse if and only if the slip of the sign
adds nothing. -/
theorem mul_stage_eq_one_iff {n : Nat} {A : Matrix (Fin n) (Fin n) ℂ} {p q : Fin n}
    (hp : p.val = 0) (hq : q.val = 1) (trimmed : Trimmed A)
    (exact : ExactCorner (A p p) (A p q) (A q p) (A q q)) (ha : A p p ≠ 0)
    (hD : A p p * A q q - A p q * A q p ≠ 0) :
    A * (stage A 2).2 = 1 ↔ UnsignedCorner (A p p) (A p q) (A q p) (A q q) ∧
      ∀ i : Fin n, 2 ≤ i.val →
        UnsignedRow (A p p) (A p q) (A q p) (A q q) (A i p) (A i q) := by
  have hrounds := twoRounds (A := A) hp hq
  obtain ⟨hright, hinverse, hdiagonal, hbelow⟩ := exact.values ha hD
  rw [hright, hinverse] at hrounds
  obtain ⟨Y, hY⟩ : ∃ Y, Y = (stage A 2).2 := ⟨_, rfl⟩
  rw [← hY] at hrounds ⊢
  obtain ⟨hqq, hqp, hpp, hpq, hfirst, hsecond, hrest⟩ := hrounds
  rw [hdiagonal] at hqq
  rw [hbelow] at hqp
  rw [mul_eq_one_iff trimmed.2 hp hq hrest hD]
  have hcorner := corner_eq ha hD
  have habove := above_eq (b := A p q) (c := A q p) (d := A q q) ha
  -- The rows below the corner, once the corner is the inverse.
  have hrow : Y p p = A q q / (A p p * A q q - A p q * A q p) →
      Y q p = -(A q p / (A p p * A q q - A p q * A q p)) →
      Y p q = -(A p q / (A p p * A q q - A p q * A q p)) → ∀ i : Fin n, 2 ≤ i.val →
      (A i p * Y p p + A i q * Y q p + Y i p = 0 ∧ A i p * Y p q + A i q * Y q q + Y i q = 0 ↔
        UnsignedRow (A p p) (A p q) (A q p) (A q q) (A i p) (A i q)) := by
    intro h1 h2 h3 i hi
    rw [hfirst i hi, hsecond i hi, h1, h2, h3, hqq]
    exact unsignedRow_iff ha hD
  constructor
  · rintro ⟨hpp', hqp', hpq', -, hrows⟩
    refine ⟨⟨?_, ?_, ?_⟩, fun i hi => (hrow hpp' hqp' hpq' i hi).mp (hrows i hi)⟩
    · have hzero : 2 * (((A q p).im * (1 / A p p).im : ℝ) : ℂ) *
          (A p p / (A p p * A q q - A p q * A q p)) = 0 := by
        linear_combination hqp - hqp'
      rw [mul_eq_zero, or_iff_left (div_ne_zero ha hD), two_mul_ofReal_eq_zero] at hzero
      exact hzero
    · apply skew_eq_mul_iff.mp
      rw [hpp, hqp', skew_neg] at hpp'
      linear_combination hpp' - hcorner
    · apply skew_eq_mul_iff.mp
      rw [hpq, hqq] at hpq'
      linear_combination -hpq' - habove
  · rintro ⟨⟨hs, hb, hdg⟩, hrows⟩
    have hqp' : Y q p = -(A q p / (A p p * A q q - A p q * A q p)) := by
      rw [hqp, hs]
      simp
    have hpp' : Y p p = A q q / (A p p * A q q - A p q * A q p) := by
      rw [hpp, hqp', skew_neg, skew_eq_mul_iff.mpr hb, sub_neg_eq_add, hcorner]
    have hpq' : Y p q = -(A p q / (A p p * A q q - A p q * A q p)) := by
      rw [hpq, hqq, skew_eq_mul_iff.mpr hdg, habove]
    exact ⟨hpp', hqp', hpq', hqq, fun i hi => (hrow hpp' hqp' hpq' i hi).mpr (hrows i hi)⟩

/-- With the pivots on the axes the augment is the inverse only where rounding up changes nothing. -/
theorem exactCorner_of_aligned {n : Nat} {A : Matrix (Fin n) (Fin n) ℂ} {p q : Fin n}
    (hp : p.val = 0) (hq : q.val = 1) (trimmed : Trimmed A)
    (aligned : AlignedCorner (A p p) (A p q) (A q p) (A q q)) (ha : A p p ≠ 0)
    (hD : A p p * A q q - A p q * A q p ≠ 0) (h : A * (stage A 2).2 = 1) :
    ExactCorner (A p p) (A p q) (A q p) (A q q) := by
  have hrounds := twoRounds (A := A) hp hq
  obtain ⟨hpp', hqp', hpq', hqq', -⟩ := InverseColumns.of_mul_eq_one trimmed.2 hp hq hD h
  have haxis : OnAxis (A p p / (A p p * A q q - A p q * A q p)) := by
    rw [← inv_div]
    exact aligned.secondPivot.inv
  have hright : up (A p q / A p p) = A p q / A p p := by
    have habove := hrounds.above
    rw [hpq', hqq', normalised_eq aligned.firstPivot ha, neg_inj,
      ← above_eq (b := A p q) (c := A q p) (d := A q q) ha] at habove
    exact up_eq_of_skew haxis (div_ne_zero ha hD) habove.symm
  rw [normalised_eq aligned.firstPivot ha, normalised_eq aligned.firstPivot ha, hright] at hrounds
  have hdiagonal := hrounds.diagonal
  have hbelow := hrounds.below
  rw [hqq', normalised_second ha hD aligned.secondPivot, one_mul] at hdiagonal
  rw [hqp', normalised_second ha hD aligned.secondPivot] at hbelow
  have hmillionths := (hbelow ▸ up_millionths _ : Millionths (-_)).neg
  rw [neg_neg] at hmillionths
  refine ⟨aligned.firstPivot, aligned.secondPivot, ?_, up_eq_self_iff.mp hright,
    up_eq_self_iff.mp hdiagonal.symm, hmillionths⟩
  -- The reciprocal of the first pivot can differ from what is computed by the slip only.
  have hcorner := hrounds.corner
  rw [hpp', hqp', skew_neg, skew_eq, ← corner_eq ha hD] at hcorner
  have hslip : up (1 / A p p) = 1 / A p p -
      2 * (((A p q / A p p).im * (A q p / (A p p * A q q - A p q * A q p)).im : ℝ) : ℂ) := by
    linear_combination -hcorner
  by_cases him : (A p p).im = 0
  · rcases aligned.reciprocal him with hm | hzero
    · exact hm
    · rw [hzero, Complex.ofReal_zero, mul_zero, sub_zero] at hslip
      exact up_eq_self_iff.mp hslip
  · -- The first pivot is imaginary: nothing is left of the real part, where the slip would show.
    have hre : (1 / A p p).re = 0 := by
      rw [one_div, Complex.inv_re, aligned.firstPivot.resolve_right him, zero_div]
    have hup : (up (1 / A p p)).re = 0 := by
      unfold up
      rw [hre, roundUp_zero]
    have hzero := congrArg Complex.re hslip
    rw [Complex.sub_re, hup, hre] at hzero
    have htwice : (A p q / A p p).im * (A q p / (A p p * A q q - A p q * A q p)).im = 0 := by
      simpa using hzero
    rw [htwice, Complex.ofReal_zero, mul_zero, sub_zero] at hslip
    exact up_eq_self_iff.mp hslip

end Exact

end ComplexInversion

end TcpAndParallel
