import Mathlib.Algebra.BigOperators.Field
import Mathlib.LinearAlgebra.Matrix.NonsingularInverse
import Mathlib.LinearAlgebra.Matrix.ToLinearEquiv

namespace TcpAndParallel

namespace GaussJordan

variable {K : Type*} [Field K] {n : ℕ}

/-- The row of the pivot over the pivot, and from each other row its multiple that clears the
column of the pivot; the pivot and the multipliers are those of `A`. -/
def eliminate (A M : Matrix (Fin n) (Fin n) K) (r : Fin n) : Matrix (Fin n) (Fin n) K := fun i j =>
  if i = r then M r j / A r r else M i j - A i r * (M r j / A r r)

/-- No leading principal minor is zero, so no rows need be exchanged. -/
def LeadingMinors (A : Matrix (Fin n) (Fin n) K) : Prop :=
  ∀ k (h : k ≤ n), (A.submatrix (Fin.castLE h) (Fin.castLE h)).det ≠ 0

variable {A M N B : Matrix (Fin n) (Fin n) K} {r : Fin n}

theorem eliminate_mul (A M B : Matrix (Fin n) (Fin n) K) (r : Fin n) :
    eliminate A M r * B = eliminate A (M * B) r := by
  ext i j
  rw [Matrix.mul_apply]
  unfold eliminate
  by_cases hi : i = r
  · simp only [hi, if_true, Matrix.mul_apply]
    rw [Finset.sum_div]
    exact Finset.sum_congr rfl fun k _ => by ring
  · simp only [hi, if_false, Matrix.mul_apply]
    rw [Finset.sum_div, Finset.mul_sum, ← Finset.sum_sub_distrib]
    exact Finset.sum_congr rfl fun k _ => by ring

/-- What holds after the first `r` pivots, of the matrix `M` and of its companion `N`, which began
as the matrix to invert and the identity. -/
structure Reduced (A : Matrix (Fin n) (Fin n) K) (r : ℕ) (M N : Matrix (Fin n) (Fin n) K) :
    Prop where
  product : N * A = M
  cleared : ∀ i j : Fin n, j.val < r → M i j = if i = j then 1 else 0
  untouched : ∀ i j : Fin n, r ≤ j.val → N i j = if i = j then 1 else 0

theorem reduced_start : Reduced A 0 A 1 :=
  ⟨Matrix.one_mul A, fun _ _ h => by omega, fun _ _ _ => Matrix.one_apply⟩

/-- A pivot is not zero, as its row in the companion would make the rows of a leading block
dependent. -/
theorem Reduced.pivot_ne (h : Reduced A r.val M N) (minors : LeadingMinors A) : M r r ≠ 0 := by
  intro hzero
  have hle : r.val + 1 ≤ n := r.isLt
  apply minors (r.val + 1) hle
  apply Matrix.exists_vecMul_eq_zero_iff.mp
  refine ⟨fun k => N r (Fin.castLE hle k), ?_, ?_⟩
  · intro hv
    have hone := congrFun hv (Fin.last r.val)
    have hcast : Fin.castLE hle (Fin.last r.val) = r := rfl
    simp only [hcast, h.untouched r r le_rfl, if_true, Pi.zero_apply] at hone
    exact one_ne_zero hone
  · ext j
    have hentry : M r (Fin.castLE hle j) = 0 := by
      by_cases hj : j.val < r.val
      · have hne : ¬r = Fin.castLE hle j := by
          intro he
          have hval := congrArg Fin.val he
          simp only [Fin.val_castLE] at hval
          omega
        rw [h.cleared r (Fin.castLE hle j) hj, if_neg hne]
      · have he : Fin.castLE hle j = r := by
          ext
          simp only [Fin.val_castLE]
          omega
        rw [he, hzero]
    rw [← h.product, Matrix.mul_apply] at hentry
    rw [Pi.zero_apply, ← hentry]
    apply Fintype.sum_of_injective (Fin.castLE hle) (Fin.castLE_injective hle)
    · intro k hk
      have hlt : r.val < k.val := by
        by_contra hge
        exact hk ⟨⟨k.val, by omega⟩, rfl⟩
      have hne : ¬r = k := by
        rintro rfl
        omega
      rw [h.untouched r k (by omega), if_neg hne, zero_mul]
    · exact fun k => rfl

theorem Reduced.eliminate (h : Reduced A r.val M N) (pivot : M r r ≠ 0) :
    Reduced A (r.val + 1) (eliminate M M r) (eliminate M N r) := by
  refine ⟨?_, fun i j hj => ?_, fun i j hj => ?_⟩
  · rw [eliminate_mul, h.product]
  · unfold GaussJordan.eliminate
    by_cases hjr : j = r
    · subst hjr
      split
      next => simp [pivot]
      next => simp [pivot]
    · have hlt : j.val < r.val := by
        have hne : j.val ≠ r.val := fun he => hjr (Fin.ext he)
        omega
      have hrj : ¬r = j := fun he => hjr he.symm
      have hrow := h.cleared r j hlt
      rw [if_neg hrj] at hrow
      split
      next hi => simp [hi, hrow, hrj]
      next => simp [hrow, h.cleared i j hlt]
  · have hrj : ¬r = j := by
      rintro rfl
      omega
    have hrow := h.untouched r j (by omega)
    rw [if_neg hrj] at hrow
    unfold GaussJordan.eliminate
    split
    next hi => simp [hi, hrow, hrj]
    next => simp [hrow, h.untouched i j (by omega)]

theorem Reduced.product_eq_one (h : Reduced A n M N) : N * A = 1 := by
  rw [h.product]
  ext i j
  rw [h.cleared i j j.isLt, Matrix.one_apply]

theorem leadingMinors_two {a b c d : K} (ha : a ≠ 0) (hd : a * d - b * c ≠ 0) :
    LeadingMinors !![a, b; c, d] := by
  intro k hk
  have hcases : k = 0 ∨ k = 1 ∨ k = 2 := by omega
  rcases hcases with rfl | rfl | rfl
  · simp
  · simpa [Matrix.det_fin_one] using ha
  · simpa [Matrix.det_fin_two] using hd

theorem LeadingMinors.first (minors : LeadingMinors A) {p : Fin n} (hp : p.val = 0) :
    A p p ≠ 0 := by
  have hle : 1 ≤ n := by
    have h := p.isLt
    omega
  have hdet := minors 1 hle
  have he : Fin.castLE hle 0 = p := Fin.ext hp.symm
  rwa [Matrix.det_fin_one, Matrix.submatrix_apply, he] at hdet

theorem LeadingMinors.second (minors : LeadingMinors A) {p q : Fin n} (hp : p.val = 0)
    (hq : q.val = 1) : A p p * A q q - A p q * A q p ≠ 0 := by
  have hle : 2 ≤ n := by
    have h := q.isLt
    omega
  have hdet := minors 2 hle
  have he : Fin.castLE hle 0 = p := Fin.ext hp.symm
  have he' : Fin.castLE hle 1 = q := Fin.ext hq.symm
  simpa only [Matrix.det_fin_two, Matrix.submatrix_apply, he, he'] using hdet

end GaussJordan

end TcpAndParallel
