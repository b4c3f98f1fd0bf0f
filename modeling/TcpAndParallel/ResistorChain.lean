import Mathlib.Algebra.Order.Archimedean.Basic
import Mathlib.Algebra.Order.Field.Basic
import Mathlib.Algebra.Order.Ring.Rat
import Mathlib.Data.Rat.Floor
import Mathlib.Order.Bounds.Basic
import Mathlib.Tactic.Linarith
import Mathlib.Tactic.Ring
import TcpAndParallel.Jacobi
import TcpAndParallel.Runs

namespace TcpAndParallel

namespace ResistorChain

open Jacobi

/-- The right-hand side; its greatest entry is `max_b`. -/
def b (i : Nat) : ℚ := if i = 0 then 10 else 0

def maxB : ℚ := 10

def setEnds (n : Nat) (x : Nat → ℚ) : Nat → ℚ :=
  Function.update (Function.update x 0 10) (n - 1) 0

/-- The sum over a row without the diagonal, from one vector before it and another behind it. -/
def sumRow (n i : Nat) (before behind : Nat → ℚ) : ℚ :=
  (List.range n).foldl (fun sum j =>
    if j < i then sum + a n i j * before j
    else if i < j then sum + a n i j * behind j
    else sum) 0

section Rows

variable {n i : Nat}

theorem sumRow_eq (before behind : Nat → ℚ) :
    sumRow n i before behind = offDiagonal n i fun j => if j < i then before j else behind j := by
  unfold sumRow offDiagonal
  congr 1
  funext sum j
  rcases Nat.lt_trichotomy j i with hlt | rfl | hgt
  · have hne : i ≠ j := by omega
    simp only [if_pos hlt, if_pos hne]
  · simp
  · have hne : i ≠ j := by omega
    have hnlt : ¬j < i := by omega
    simp only [if_neg hnlt, if_pos hgt, if_pos hne]

theorem neighbours_inner (first : 0 < i) (last : i + 1 < n) : neighbours n i = {i - 1, i + 1} := by
  ext j
  simp only [neighbours, Finset.mem_filter, Finset.mem_range, Finset.mem_insert,
    Finset.mem_singleton]
  omega

theorem offDiagonal_inner (first : 0 < i) (last : i + 1 < n) (x : Nat → ℚ) :
    offDiagonal n i x = x (i - 1) + x (i + 1) := by
  rw [offDiagonal_eq, neighbours_inner first last]
  exact Finset.sum_pair (by omega)

theorem diagonal_inner (first : 0 < i) (last : i + 1 < n) : (a n i i : ℚ) = 2 := by
  rw [a, if_pos rfl, rowSum_eq, neighbours_inner first last, Finset.card_pair (by omega)]
  rfl

theorem b_inner (first : 0 < i) : b i = 0 := if_neg (by omega)

theorem solved_inner (first : 0 < i) (last : i + 1 < n) (before behind : Nat → ℚ) :
    (b i - sumRow n i before behind) / a n i i = -(before (i - 1) + behind (i + 1)) / 2 := by
  rw [sumRow_eq, offDiagonal_inner first last, diagonal_inner first last, b_inner first,
    if_pos (by omega), if_neg (by omega), zero_sub]

theorem setEnds_first (hn : 2 ≤ n) (x : Nat → ℚ) : setEnds n x 0 = 10 := by
  rw [setEnds, Function.update_of_ne (by omega), Function.update_self]

theorem setEnds_last (x : Nat → ℚ) : setEnds n x (n - 1) = 0 := Function.update_self _ _ _

theorem setEnds_inner (first : 0 < i) (last : i + 1 < n) (x : Nat → ℚ) : setEnds n x i = x i := by
  rw [setEnds, Function.update_of_ne (by omega), Function.update_of_ne (by omega)]

end Rows

/-- `y` is `x` with the inner nodes solved one after the other, each for the new voltage before it
and the old one behind it. -/
structure Settled (n : Nat) (x y : Nat → ℚ) : Prop where
  inner : ∀ i, 0 < i → i + 1 < n → y i = -(y (i - 1) + x (i + 1)) / 2
  outer : ∀ i, i = 0 ∨ n ≤ i + 1 → y i = x i

section Contraction

variable {n : Nat} {x y z : Nat → ℚ} {M : ℚ}

/-- Along the chain the differences of two sweeps are held down by those before them. -/
theorem Settled.difference_le {x' y' : Nat → ℚ} (h : Settled n x y) (h' : Settled n x' y')
    (outer : ∀ i, i < n → i = 0 ∨ n ≤ i + 1 → x' i = x i)
    (hM : ∀ i, 0 < i → i + 1 < n → |x' i - x i| ≤ M) (M0 : 0 ≤ M) (i : Nat) (hi : i + 1 < n) :
    |y' i - y i| ≤ (1 - (1 / 2) ^ i) * M := by
  induction i with
  | zero =>
    rw [h'.outer 0 (.inl rfl), h.outer 0 (.inl rfl), outer 0 (by omega) (.inl rfl)]
    simp
  | succ i ih =>
    have hbehind : |x' (i + 2) - x (i + 2)| ≤ M := by
      by_cases hlast : i + 2 + 1 < n
      · exact hM (i + 2) (by omega) hlast
      · rw [outer (i + 2) (by omega) (.inr (by omega))]
        simpa using M0
    have hchange : y' (i + 1) - y (i + 1) =
        -((y' i - y i) + (x' (i + 2) - x (i + 2))) / 2 := by
      rw [h'.inner (i + 1) (by omega) hi, h.inner (i + 1) (by omega) hi]
      simp only [Nat.add_sub_cancel]
      ring
    have hbefore := ih (by omega)
    have htri := abs_add_le (y' i - y i) (x' (i + 2) - x (i + 2))
    rw [hchange, abs_div, abs_neg, abs_two, div_le_iff₀ two_pos, pow_succ]
    linarith

theorem Settled.change_le (h : Settled n x y) (h' : Settled n y z)
    (hM : ∀ i, 0 < i → i + 1 < n → |y i - x i| ≤ M) (M0 : 0 ≤ M) (i : Nat) (hi : i + 1 < n) :
    |z i - y i| ≤ (1 - (1 / 2) ^ i) * M :=
  h.difference_le h' (fun i _ => h.outer i) hM M0 i hi

/-- The factor of the contraction for a chain of `n` nodes. -/
def shrink (n : Nat) : ℚ := 1 - (1 / 2) ^ (n - 2)

theorem Settled.change_le_shrink (h : Settled n x y) (h' : Settled n y z)
    (hM : ∀ i, 0 < i → i + 1 < n → |y i - x i| ≤ M) (M0 : 0 ≤ M) (i : Nat) (hi : i + 1 < n) :
    |z i - y i| ≤ shrink n * M := by
  refine (h.change_le h' hM M0 i hi).trans (mul_le_mul_of_nonneg_right ?_ M0)
  have hpow : (1 / 2 : ℚ) ^ (n - 2) ≤ (1 / 2) ^ i :=
    pow_le_pow_of_le_one (by norm_num) (by norm_num) (by omega)
  unfold shrink
  linarith

end Contraction

section Signs

variable {n : Nat} {x y : Nat → ℚ}

/-- The voltages change their sign from node to node. -/
def Alternates (n : Nat) (x : Nat → ℚ) : Prop :=
  ∀ i, i < n → -1 ≤ (-1) ^ i * x i ∧ (-1) ^ i * x i ≤ 10

theorem setEnds_alternates (hn : 2 ≤ n) : Alternates n (setEnds n fun _ => 1) := by
  intro i hi
  rcases Nat.eq_zero_or_pos i with rfl | first
  · rw [setEnds_first hn]
    norm_num
  by_cases last : i + 1 < n
  · rw [setEnds_inner first last]
    rcases neg_one_pow_eq_or ℚ i with h | h <;> rw [h] <;> norm_num
  · have hi' : i = n - 1 := by omega
    rw [hi', setEnds_last]
    norm_num

/-- With the alternating signs a settled node is the mean of its neighbours. -/
theorem Settled.signed (h : Settled n x y) {i : Nat} (hi : i + 2 < n) :
    (-1) ^ (i + 1) * y (i + 1) = ((-1) ^ i * y i + (-1) ^ (i + 2) * x (i + 2)) / 2 := by
  rw [h.inner (i + 1) (by omega) hi]
  simp only [Nat.add_sub_cancel]
  ring

theorem Settled.alternates (h : Settled n x y) (hx : Alternates n x) : Alternates n y := by
  intro i hi
  induction i with
  | zero =>
    rw [h.outer 0 (.inl rfl)]
    exact hx 0 hi
  | succ i ih =>
    by_cases hlast : i + 2 < n
    · have hbefore := ih (by omega)
      have hbehind := hx (i + 2) hlast
      rw [h.signed hlast]
      constructor <;> linarith [hbefore.1, hbefore.2, hbehind.1, hbehind.2]
    · rw [h.outer (i + 1) (.inr (by omega))]
      exact hx (i + 1) hi

theorem Settled.second_neg (h : Settled n x y) (hn : 3 ≤ n) (hx : Alternates n x)
    (source : x 0 = 10) : y 1 < 0 := by
  have hsecond := h.signed (show 0 + 2 < n by omega)
  have hbehind := (hx 2 (by omega)).1
  rw [h.outer 0 (.inl rfl), source] at hsecond
  linarith

end Signs

def changes (n : Nat) (x y : Nat → ℚ) : Set ℚ := {d | ∃ i, 0 < i ∧ i + 1 < n ∧ d = |y i - x i|}

/-- A sweep that has done the nodes below `i`; `M` is the largest change so far. -/
structure Partway (n : Nat) (x : Nat → ℚ) (i : Nat) (y : Nat → ℚ) (M : ℚ) : Prop where
  inner : ∀ j, 0 < j → j + 1 < n → j < i → y j = -(y (j - 1) + x (j + 1)) / 2
  outer : ∀ j, j = 0 ∨ n ≤ j + 1 ∨ i ≤ j → y j = x j
  bound : ∀ j, 0 < j → j + 1 < n → j < i → |y j - x j| ≤ M
  attained : M = 0 ∨ ∃ j, 0 < j ∧ j + 1 < n ∧ j < i ∧ M = |y j - x j|

section Loop

variable {n i : Nat} {x y : Nat → ℚ} {M : ℚ}

theorem Partway.start (n : Nat) (x : Nat → ℚ) : Partway n x 0 x 0 where
  inner _ _ _ hj := absurd hj (by omega)
  outer _ _ := rfl
  bound _ _ _ hj := absurd hj (by omega)
  attained := .inl rfl

theorem Partway.outer_step (h : Partway n x i y M) (hi : i = 0 ∨ n ≤ i + 1) :
    Partway n x (i + 1) y M where
  inner j first last _ := h.inner j first last (by omega)
  outer j hj := h.outer j (by omega)
  bound j first last _ := h.bound j first last (by omega)
  attained := by
    rcases h.attained with hzero | ⟨j, first, last, _, hj⟩
    · exact .inl hzero
    · exact .inr ⟨j, first, last, by omega, hj⟩

theorem Partway.inner_step (h : Partway n x i y M) (first : 0 < i) (last : i + 1 < n) {v : ℚ}
    (hv : v = -(y (i - 1) + y (i + 1)) / 2) :
    Partway n x (i + 1) (Function.update y i v) (if M < |y i - v| then |y i - v| else M) := by
  have hold : y i = x i := h.outer i (.inr (.inr le_rfl))
  have hchange : |Function.update y i v i - x i| = |y i - v| := by
    rw [Function.update_self, hold, abs_sub_comm]
  have hother : ∀ j, j < i → Function.update y i v j = y j := fun j hj =>
    Function.update_of_ne (by omega) _ _
  have hmax : M ≤ (if M < |y i - v| then |y i - v| else M) := by
    split
    next hlt => exact hlt.le
    next => exact le_rfl
  refine ⟨fun j first' last' hj => ?_, fun j hj => ?_, fun j first' last' hj => ?_, ?_⟩
  · rcases Nat.lt_succ_iff_lt_or_eq.mp hj with hlt | rfl
    · rw [hother j hlt, hother (j - 1) (by omega)]
      exact h.inner j first' last' hlt
    · rw [Function.update_self, hother (j - 1) (by omega), hv]
      rw [h.outer (j + 1) (.inr (.inr (by omega)))]
  · rw [Function.update_of_ne (by omega)]
    exact h.outer j (by omega)
  · rcases Nat.lt_succ_iff_lt_or_eq.mp hj with hlt | rfl
    · rw [hother j hlt]
      exact (h.bound j first' last' hlt).trans hmax
    · rw [hchange]
      split
      next => exact le_rfl
      next hnlt => exact not_lt.mp hnlt
  · split
    next => exact .inr ⟨i, first, last, by omega, hchange.symm⟩
    next =>
      rcases h.attained with hzero | ⟨j, first', last', hj, hM⟩
      · exact .inl hzero
      · exact .inr ⟨j, first', last', by omega, by rw [hother j hj]; exact hM⟩

theorem Partway.settled (h : Partway n x n y M) : Settled n x y where
  inner i first last := h.inner i first last (by omega)
  outer i hi := h.outer i (by omega)

theorem Partway.greatest (h : Partway n x n y M) (hn : 3 ≤ n) : IsGreatest (changes n x y) M := by
  refine ⟨?_, ?_⟩
  · rcases h.attained with rfl | ⟨i, first, last, -, hM⟩
    · have hzero := h.bound 1 (by omega) (by omega) (by omega)
      exact ⟨1, by omega, by omega, le_antisymm (abs_nonneg _) hzero⟩
    · exact ⟨i, first, last, hM⟩
  · rintro d ⟨i, first, last, rfl⟩
    exact h.bound i first last (by omega)

end Loop

section Sweeps

variable {n : Nat}

theorem Settled.greatest_le {x y z : Nat → ℚ} {M M' : ℚ} (h : Settled n x y)
    (h' : Settled n y z) (hM : IsGreatest (changes n x y) M)
    (hM' : IsGreatest (changes n y z) M') : M' ≤ shrink n * M := by
  obtain ⟨i, first, last, rfl⟩ := hM'.1
  refine h.change_le_shrink h' (fun j first last => hM.2 ⟨j, first, last, rfl⟩) ?_ i last
  obtain ⟨j, -, -, rfl⟩ := hM.1
  exact abs_nonneg _

theorem shrink_nonneg (n : Nat) : 0 ≤ shrink n := by
  have hpow : (1 / 2 : ℚ) ^ (n - 2) ≤ 1 := pow_le_one₀ (by norm_num) (by norm_num)
  unfold shrink
  linarith

theorem shrink_lt_one (n : Nat) : shrink n < 1 := by
  have hpow : (0 : ℚ) < (1 / 2) ^ (n - 2) := by positivity
  unfold shrink
  linarith

variable {x : Nat → Nat → ℚ} {M : Nat → ℚ}

theorem greatest_le_pow (settled : ∀ k, Settled n (x k) (x (k + 1)))
    (greatest : ∀ k, IsGreatest (changes n (x k) (x (k + 1))) (M k)) (k : Nat) :
    M k ≤ shrink n ^ k * M 0 := by
  induction k with
  | zero => simp
  | succ k ih =>
    calc M (k + 1) ≤ shrink n * M k :=
          (settled k).greatest_le (settled (k + 1)) (greatest k) (greatest (k + 1))
      _ ≤ shrink n * (shrink n ^ k * M 0) := mul_le_mul_of_nonneg_left ih (shrink_nonneg n)
      _ = shrink n ^ (k + 1) * M 0 := by ring

theorem exists_greatest_lt (settled : ∀ k, Settled n (x k) (x (k + 1)))
    (greatest : ∀ k, IsGreatest (changes n (x k) (x (k + 1))) (M k)) {bound : ℚ}
    (hbound : 0 < bound) : ∃ k, M k < bound := by
  have hfirst : 0 ≤ M 0 := by
    obtain ⟨j, -, -, hj⟩ := (greatest 0).1
    rw [hj]
    exact abs_nonneg _
  obtain ⟨k, hk⟩ := exists_pow_lt_of_lt_one (show 0 < bound / (M 0 + 1) by positivity)
    (shrink_lt_one n)
  refine ⟨k, (greatest_le_pow settled greatest k).trans_lt ?_⟩
  have hpow : 0 ≤ shrink n ^ k := pow_nonneg (shrink_nonneg n) k
  rw [lt_div_iff₀ (by positivity)] at hk
  calc shrink n ^ k * M 0 ≤ shrink n ^ k * (M 0 + 1) :=
        mul_le_mul_of_nonneg_left (by linarith) hpow
    _ < bound := hk

theorem exists_error_le (settled : ∀ k, Settled n (x k) (x (k + 1)))
    (greatest : ∀ k, IsGreatest (changes n (x k) (x (k + 1))) (M k)) {tolerance : ℚ}
    (htolerance : 0 < tolerance) : ∃ k, M k / maxB ≤ tolerance := by
  have hmax : 0 < maxB := by norm_num [maxB]
  obtain ⟨k, hk⟩ := exists_greatest_lt settled greatest (mul_pos htolerance hmax)
  exact ⟨k, (div_le_iff₀ hmax).mpr hk.le⟩

end Sweeps

end ResistorChain

end TcpAndParallel
