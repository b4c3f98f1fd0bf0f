import Mathlib.Algebra.Order.Archimedean.Real.Basic
import Mathlib.Algebra.Order.Floor.Ring
import Mathlib.Data.Complex.Basic
import Mathlib.Order.Lattice
import TcpAndParallel.NodeTablesRound

namespace TcpAndParallel

namespace ComplexInversion

open NodeTables

section Source

variable {K : Type*} [Field K] [LinearOrder K] [FloorRing K]

/-- `ceil(x*1000000)/1000000`. -/
def roundUp (x : K) : K := (⌈x * 1000000⌉ : K) / 1000000

def divideArrayByDouble (array : List (Node K)) (denominator : K) : Option (List (Node K)) :=
  if denominator = 0 then none
  else some (array.map fun node =>
    { node with
      real := roundUp (node.real / denominator)
      imag := roundUp (node.imag / denominator) })

def multArrayByNode (row : List (Node K)) (node : Node K) : List (Node K) :=
  row.map fun x =>
    { x with
      real := x.real * node.real - x.imag * node.imag
      imag := x.real * node.imag + x.imag * node.real }

/-- The rows of the pivot, of the matrix and of the augment, multiplied by `conj`, which is the
pivot itself, and divided by the real part that the pivot then has. -/
def normalise (r : Nat) (Rr Ar : List (Node K)) :
    Option (List (Node K) × List (Node K)) := do
  let conj ← Rr[r]?
  let (Rr, Ar) :=
    if conj.imag ≠ 0 then (multArrayByNode Rr conj, multArrayByNode Ar conj) else (Rr, Ar)
  let pivot ← Rr[r]?
  let Rr ← divideArrayByDouble Rr pivot.real
  let Ar ← divideArrayByDouble Ar pivot.real
  some (Rr, Ar)

/-- `copy_row_to_table` copies a node whole; the loop over the pivots ends after two. -/
def invert (n : Nat) (Rr Ar : Fin n → Node K) (m : Tables K) : Option (Tables K) :=
  NodeTables.invert (fun _ entry => entry) normalise n 2 Rr Ar m

end Source

def complexEntries {n : Nat} (X : Matrix (Fin n) (Fin n) ℂ) :
    Matrix (Fin n) (Fin n) (ℝ × ℝ) :=
  fun i j => ((X i j).re, (X i j).im)

noncomputable def up (z : ℂ) : ℂ := ⟨roundUp z.re, roundUp z.im⟩

/-- Both parts are whole numbers of millionths. -/
def Millionths (z : ℂ) : Prop := ∃ j k : ℤ, z.re * 1000000 = j ∧ z.im * 1000000 = k

/-- What a row is multiplied by before it is divided. -/
noncomputable def conjugate (p : ℂ) : ℂ := if p.im ≠ 0 then p else 1

/-- What a row is divided by, the pivot having been multiplied too. -/
noncomputable def divisor (p : ℂ) : ℝ := (p * conjugate p).re

noncomputable def normalised (p x : ℂ) : ℂ := up (x * conjugate p / divisor p)

/-- The product that is subtracted from the entries of the augment. -/
def skew (x y : ℂ) : ℂ := ⟨x.re * y.re + x.im * y.im, x.re * y.im + x.im * y.re⟩

variable {n : Nat}

def complexRow (r : Nat) (v : Fin n → ℂ) : List (Node ℝ) :=
  rowNodes r fun c => ((v c).re, (v c).im)

theorem multArrayByNode_complexRow {r : Nat} {v : Fin n → ℂ} {p : Node ℝ} {z : ℂ}
    (hre : p.real = z.re) (him : p.imag = z.im) :
    multArrayByNode (complexRow r v) p = complexRow r fun c => v c * z := by
  unfold multArrayByNode complexRow rowNodes
  simp [List.map_ofFn, Function.comp_def, hre, him, Complex.mul_re, Complex.mul_im]

theorem divideArrayByDouble_complexRow {r : Nat} {v : Fin n → ℂ} {d : ℝ} (hd : d ≠ 0) :
    divideArrayByDouble (complexRow r v) d = some (complexRow r fun c => up (v c / d)) := by
  unfold divideArrayByDouble complexRow rowNodes up
  simp [hd, List.map_ofFn, Function.comp_def, Complex.div_ofReal_re, Complex.div_ofReal_im]

theorem normalise_complexRow {r : Fin n} {v w : Fin n → ℂ} :
    normalise r (complexRow r v) (complexRow r w) =
      if divisor (v r) = 0 then none
      else some (complexRow r fun c => normalised (v r) (v c),
        complexRow r fun c => normalised (v r) (w c)) := by
  have hentry : ∀ u : Fin n → ℂ,
      (complexRow r.val u)[r.val]? = some ⟨r, r, (u r).re, (u r).im⟩ := by
    intro u
    unfold complexRow
    rw [List.getElem?_eq_getElem (by simp), getElem_rowNodes]
  unfold normalise divisor normalised divisor conjugate
  by_cases him : (v r).im = 0
  · simp only [him, ne_eq, not_true_eq_false, if_false, hentry, mul_one, Option.bind_eq_bind,
      Option.bind_some]
    by_cases hd : (v r).re = 0
    · simp [divideArrayByDouble, hd]
    · simp only [divideArrayByDouble_complexRow hd, hd, if_false, Option.bind_some]
  · simp only [him, ne_eq, not_false_eq_true, if_true, hentry, Option.bind_eq_bind,
      Option.bind_some]
    rw [multArrayByNode_complexRow (z := v r) rfl rfl,
      multArrayByNode_complexRow (z := v r) rfl rfl, hentry]
    by_cases hd : (v r * v r).re = 0
    · simp only [divideArrayByDouble, hd, if_true, Option.bind_none, Option.bind_some]
    · simp only [divideArrayByDouble_complexRow hd, hd, if_false, Option.bind_some]

noncomputable def matrixStep (X : Matrix (Fin n) (Fin n) ℂ) (r : Fin n) :
    Matrix (Fin n) (Fin n) ℂ := fun k c =>
  if k = r then normalised (X r r) (X r c)
  else if r.val ≤ c.val then X k c - X k r * normalised (X r r) (X r c)
  else X k c

noncomputable def augmentStep (X Y : Matrix (Fin n) (Fin n) ℂ) (r : Fin n) :
    Matrix (Fin n) (Fin n) ℂ := fun k c =>
  if k = r then normalised (X r r) (Y r c)
  else if c.val ≤ r.val then Y k c - skew (X k r) (normalised (X r r) (Y r c))
  else Y k c

theorem nextMatrix_complexEntries (X : Matrix (Fin n) (Fin n) ℂ) (r : Fin n) :
    nextMatrix (complexEntries X) r (fun c =>
      ((normalised (X r r) (X r c)).re, (normalised (X r r) (X r c)).im)) =
      complexEntries (matrixStep X r) := by
  funext k c
  unfold nextMatrix complexEntries matrixStep mulValue
  split
  next => rfl
  next =>
    split
    next => simp [Complex.mul_re, Complex.mul_im]
    next => rfl

theorem nextAugment_complexEntries (X Y : Matrix (Fin n) (Fin n) ℂ) (r : Fin n) :
    nextAugment (complexEntries X) (complexEntries Y) r (fun c =>
      ((normalised (X r r) (Y r c)).re, (normalised (X r r) (Y r c)).im)) =
      complexEntries (augmentStep X Y r) := by
  funext k c
  unfold nextAugment complexEntries augmentStep augMulValue
  split
  next => rfl
  next =>
    split
    next => simp [skew]
    next => rfl

noncomputable def stage (A : Matrix (Fin n) (Fin n) ℂ) :
    Nat → Matrix (Fin n) (Fin n) ℂ × Matrix (Fin n) (Fin n) ℂ
  | 0 => (A, 1)
  | r + 1 =>
    if h : r < n then
      (matrixStep (stage A r).1 ⟨r, h⟩, augmentStep (stage A r).1 (stage A r).2 ⟨r, h⟩)
    else stage A r

/-- There is a row of the round `r`, and it is not divided by zero. -/
def Divides (A : Matrix (Fin n) (Fin n) ℂ) (r : Nat) : Prop :=
  ∃ h : r < n, divisor ((stage A r).1 ⟨r, h⟩ ⟨r, h⟩) ≠ 0

section Run

variable {A : Matrix (Fin n) (Fin n) ℂ} {m : Tables ℝ}

theorem exists_next {r : Fin n} {M N : Matrix (Fin n) (Fin n) (ℝ × ℝ)} (hr : Divides A r)
    (h : M = complexEntries (stage A r).1 ∧ N = complexEntries (stage A r).2) :
    ∃ v w, normalise r (rowNodes r (M r)) (rowNodes r (N r)) =
      some (rowNodes r v, rowNodes r w) ∧
      nextMatrix M r v = complexEntries (stage A (r.val + 1)).1 ∧
      nextAugment M N r w = complexEntries (stage A (r.val + 1)).2 := by
  obtain ⟨hlt, hdivisor⟩ := hr
  obtain ⟨rfl, rfl⟩ := h
  have hnorm := normalise_complexRow (r := r) (v := (stage A r).1 r) (w := (stage A r).2 r)
  rw [if_neg hdivisor] at hnorm
  refine ⟨_, _, hnorm, ?_, ?_⟩
  · rw [nextMatrix_complexEntries]
    simp [stage, hlt]
  · rw [nextAugment_complexEntries]
    simp [stage, hlt]

theorem invert_stage (matrix : Holds m .mytable (complexEntries A))
    (identity : Holds (n := n) m .augment (complexEntries 1)) (Rr Ar : Fin n → Node ℝ)
    (first : Divides A 0) (second : Divides A 1) :
    ∃ m', invert n Rr Ar m = some m' ∧ Holds m' .augment (complexEntries (stage A 2).2) := by
  have hinvert : ∃ m' M' N', invert n Rr Ar m = some m' ∧
      (M' = complexEntries (stage A 2).1 ∧ N' = complexEntries (stage A 2).2) ∧
      Holds m' .augment N' ∧ m' .mytable = m .mytable := by
    apply invert_rule (fun _ _ _ _ => rfl) matrix identity Rr Ar second.1
      (fun r M N => M = complexEntries (stage A r).1 ∧ N = complexEntries (stage A r).2)
    · exact ⟨rfl, rfl⟩
    · intro r M N hr h
      have hcases : r.val = 0 ∨ r.val = 1 := by omega
      apply exists_next _ h
      rcases hcases with h0 | h1
      · rw [h0]
        exact first
      · rw [h1]
        exact second
  obtain ⟨m', M', N', hm', ⟨-, rfl⟩, haugment, -⟩ := hinvert
  exact ⟨m', hm', haugment⟩

theorem normalise_short {r : Nat} {Rr Ar : List (Node ℝ)} (h : Rr.length ≤ r) :
    normalise r Rr Ar = none := by
  unfold normalise
  rw [List.getElem?_eq_none h]
  rfl

theorem invert_stuck {r : Nat} (matrix : Holds m .mytable (complexEntries A))
    (identity : Holds (n := n) m .augment (complexEntries 1)) (Rr Ar : Fin n → Node ℝ)
    (hr : r < 2) (earlier : ∀ k, k < r → Divides A k) (stuck : ¬Divides A r) :
    invert n Rr Ar m = none := by
  have hn : r ≤ n := by
    by_contra hgt
    obtain ⟨hlt, -⟩ := earlier n (by omega)
    omega
  apply invert_none (fun _ _ _ _ => rfl) matrix identity Rr Ar hr hn
    (fun r M N => M = complexEntries (stage A r).1 ∧ N = complexEntries (stage A r).2)
    ⟨rfl, rfl⟩
  · exact fun k M N hk h => exists_next (earlier k hk) h
  · rintro s M N hready ⟨rfl, rfl⟩
    by_cases hlt : r < n
    · have hrow := copyRowFromTable_eq (r := ⟨r, hlt⟩) hready.matrix hready.pivotRow
      have hrow' := copyRowFromTable_eq (r := ⟨r, hlt⟩) hready.companion hready.augmentRow
      have hdivisor : divisor ((stage A r).1 ⟨r, hlt⟩ ⟨r, hlt⟩) = 0 := by
        by_contra hne
        exact stuck ⟨hlt, hne⟩
      have hnorm := normalise_complexRow (r := ⟨r, hlt⟩) (v := (stage A r).1 ⟨r, hlt⟩)
        (w := (stage A r).2 ⟨r, hlt⟩)
      rw [if_pos hdivisor] at hnorm
      rw [hrow, hrow']
      exact hnorm
    · apply normalise_short
      rw [copyRowFromTable, List.length_mapIdx, hready.pivotRow]
      omega

end Run

end ComplexInversion

end TcpAndParallel
