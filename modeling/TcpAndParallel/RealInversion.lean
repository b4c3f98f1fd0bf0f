import TcpAndParallel.GaussJordan
import TcpAndParallel.NodeTablesRound

namespace TcpAndParallel

namespace RealInversion

open NodeTables GaussJordan

variable {K : Type*} [Field K]

section Source

variable [DecidableEq K]

def divideArray (array : List (Node K)) (denominator : K) : Option (List (Node K)) :=
  if denominator = 0 then none
  else some (array.map fun node =>
    { node with real := node.real / denominator, imag := node.imag / denominator })

def multRowByConjugate (row : List (Node K)) (conj : Node K) : List (Node K) :=
  row.map fun node =>
    { node with
      real := node.real * conj.real - node.imag * conj.imag
      imag := node.real * conj.imag + node.imag * conj.real }

/-- The rows of the pivot, of the matrix and of the augment, divided by the real part that the pivot
had; `conj` is the pivot itself and multiplies the row of the augment. -/
def normalise (r : Nat) (Rr Ar : List (Node K)) :
    Option (List (Node K) × List (Node K)) := do
  let pivot ← Rr[r]?
  let Ar := if pivot.imag ≠ 0 then multRowByConjugate Ar pivot else Ar
  let Rr ← divideArray Rr pivot.real
  let Ar ← divideArray Ar pivot.real
  some (Rr, Ar)

/-- `copy_row_to_table` writes the values of a node. -/
def copyNode (node entry : Node K) : Node K :=
  { node with real := entry.real, imag := entry.imag }

def invert (n : Nat) (Rr Ar : Fin n → Node K) (m : Tables K) : Option (Tables K) :=
  NodeTables.invert copyNode normalise n n Rr Ar m

omit [Field K] [DecidableEq K] in
theorem writesEntry_copyNode : WritesEntry (K := K) copyNode := by
  rintro ⟨row, col, real, imag⟩ ⟨row', col', real', imag'⟩ rfl rfl
  rfl

theorem normalise_rowNodes {n : Nat} {r : Fin n} {v w : Fin n → K} (pivot : v r ≠ 0) :
    normalise r (rowNodes r fun c => (v c, 0)) (rowNodes r fun c => (w c, 0)) =
      some (rowNodes r fun c => (v c / v r, 0), rowNodes r fun c => (w c / v r, 0)) := by
  have hdivide : ∀ u : Fin n → K, divideArray (rowNodes r.val fun c => (u c, 0)) (v r) =
      some (rowNodes r fun c => (u c / v r, 0)) := by
    intro u
    unfold divideArray rowNodes
    simp [pivot, List.map_ofFn, Function.comp_def]
  unfold normalise
  simp [hdivide]

end Source

def realEntries {n : Nat} (X : Matrix (Fin n) (Fin n) K) : Matrix (Fin n) (Fin n) (K × K) :=
  fun i j => (X i j, 0)

variable {n : Nat} {A X Y : Matrix (Fin n) (Fin n) K} {r : Fin n}

/-- The columns already cleared need no subtraction, as the row of the pivot is zero there. -/
theorem nextMatrix_realEntries (h : Reduced A r.val X Y) :
    nextMatrix (realEntries X) r (fun c => (X r c / X r r, 0)) =
      realEntries (eliminate X X r) := by
  funext k c
  unfold nextMatrix realEntries eliminate mulValue
  by_cases hk : k = r
  · simp [hk]
  · by_cases hc : r.val ≤ c.val
    · simp [hk, hc]
    · have hne : ¬r = c := by
        rintro rfl
        omega
      simp [hk, hc, h.cleared r c (by omega), hne]

theorem nextAugment_realEntries (h : Reduced A r.val X Y) :
    nextAugment (realEntries X) (realEntries Y) r (fun c => (Y r c / X r r, 0)) =
      realEntries (eliminate X Y r) := by
  funext k c
  unfold nextAugment realEntries eliminate augMulValue
  by_cases hk : k = r
  · simp [hk]
  · by_cases hc : c.val ≤ r.val
    · simp [hk, hc]
    · have hne : ¬r = c := by
        rintro rfl
        omega
      simp [hk, hc, h.untouched r c (by omega), hne]

theorem invert_inverse [DecidableEq K] (A : Matrix (Fin n) (Fin n) K) (minors : LeadingMinors A)
    (m : Tables K) (matrix : Holds m .mytable (realEntries A))
    (identity : Holds (n := n) m .augment (realEntries 1)) (Rr Ar : Fin n → Node K) :
    ∃ m', invert n Rr Ar m = some m' ∧ Holds m' .augment (realEntries A⁻¹) ∧
      A * A⁻¹ = 1 ∧ A⁻¹ * A = 1 ∧ Holds m' .mytable (realEntries A) := by
  have hinvert : ∃ m' M' N', invert n Rr Ar m = some m' ∧
      (∃ X Y, M' = realEntries X ∧ N' = realEntries Y ∧ Reduced A n X Y) ∧
      Holds m' .augment N' ∧ m' .mytable = m .mytable := by
    apply invert_rule writesEntry_copyNode matrix identity Rr Ar le_rfl
      (fun r M N => ∃ X Y, M = realEntries X ∧ N = realEntries Y ∧ Reduced A r X Y)
    · exact ⟨A, 1, rfl, rfl, reduced_start⟩
    · rintro r M N - ⟨X, Y, rfl, rfl, h⟩
      have hpivot := h.pivot_ne minors
      exact ⟨_, _, normalise_rowNodes hpivot, _, _, nextMatrix_realEntries h,
        nextAugment_realEntries h, h.eliminate hpivot⟩
  obtain ⟨m', M', N', hm', ⟨X, Y, rfl, rfl, h⟩, haugment, hkept⟩ := hinvert
  have hleft : Y * A = 1 := h.product_eq_one
  have hinv : A⁻¹ = Y := Matrix.inv_eq_left_inv hleft
  rw [hinv]
  refine ⟨m', hm', haugment, mul_eq_one_comm.mp hleft, hleft, fun c => ?_⟩
  rw [hkept]
  exact matrix c

theorem invert_inverse_two :
    ∃ m', invert 2 (fun i => ⟨0, i, 0, 0⟩) (fun i => ⟨0, i, 0, 0⟩)
      (givenTables (realEntries !![(2 : ℚ), 1; 6, 5]) (realEntries 1)) = some m' ∧
      Holds m' .augment (realEntries !![(2 : ℚ), 1; 6, 5]⁻¹) ∧
      !![(2 : ℚ), 1; 6, 5] * !![(2 : ℚ), 1; 6, 5]⁻¹ = 1 ∧
      !![(2 : ℚ), 1; 6, 5]⁻¹ * !![(2 : ℚ), 1; 6, 5] = 1 ∧
      Holds m' .mytable (realEntries !![(2 : ℚ), 1; 6, 5]) :=
  invert_inverse _ (leadingMinors_two (by norm_num) (by norm_num)) _ (givenTables_mytable _ _)
    (givenTables_augment _ _) _ _

end RealInversion

end TcpAndParallel
