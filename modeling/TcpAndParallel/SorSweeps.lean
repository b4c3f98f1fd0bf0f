import TcpAndParallel.ResistorChain

namespace TcpAndParallel

namespace SorSweeps

open Jacobi ResistorChain

/-- The variables that the loop of `main` keeps from round to round. -/
structure State where
  x : Nat → ℚ
  xK : Nat → ℚ
  kX : Nat → ℚ
  maxDiff : ℚ
  error : ℚ

def start (n : Nat) : State :=
  ⟨setEnds n fun _ => 1, setEnds n fun _ => 1, setEnds n fun _ => 2, 0, 10⟩

def w : ℚ := 2 / 3

def row (n : Nat) (s : State) (i : Nat) : State :=
  let sum := sumRow n i s.x s.kX
  let s :=
    if i ≠ n - 1 ∧ i ≠ 0 then
      let xK := Function.update s.xK i (w * (b i - sum) / a n i i + (1 - w) * s.x i)
      { s with
        xK := xK
        kX := Function.update s.kX i (s.x i)
        x := Function.update s.x i (xK i) }
    else s
  let tDiff := |s.kX i - s.x i|
  { s with maxDiff := if s.maxDiff < tDiff then tDiff else s.maxDiff }

def sweep (n : Nat) (s : State) : State :=
  let s := (List.range n).foldl (row n) { s with maxDiff := 0 }
  { s with error := s.maxDiff / maxB }

def run (n k : Nat) : State := (sweep n)^[k] (start n)

/-- The sums over the row of node `i` before and behind the diagonal. -/
def sumBefore (n i : Nat) (x : Nat → ℚ) : ℚ := ∑ j ∈ Finset.range n with j < i, a n i j * x j

def sumBehind (n i : Nat) (x : Nat → ℚ) : ℚ := ∑ j ∈ Finset.range n with i < j, a n i j * x j

/-- `y` comes from `x` by one sweep of the method. -/
structure SorSweep (n : Nat) (x y : Nat → ℚ) : Prop where
  inner : ∀ i, 0 < i → i + 1 < n →
    y i = (1 - w) * x i + w * (b i - sumBefore n i y - sumBehind n i x) / a n i i
  first : y 0 = x 0
  last : y (n - 1) = x (n - 1)

variable {n i : Nat} {s : State}

theorem sumRow_split (n i : Nat) (before behind : Nat → ℚ) :
    sumRow n i before behind = sumBefore n i before + sumBehind n i behind := by
  rw [sumRow_eq, offDiagonal, foldl_add_eq_sum n (fun j => i ≠ j), sumBefore, sumBehind]
  simp only [Finset.sum_filter]
  rw [← Finset.sum_add_distrib]
  refine Finset.sum_congr rfl fun j _ => ?_
  rcases Nat.lt_trichotomy j i with hlt | rfl | hgt
  · have hne : i ≠ j := by omega
    have hngt : ¬i < j := by omega
    rw [if_pos hne, if_pos hlt, if_pos hlt, if_neg hngt, add_zero]
  · simp
  · have hne : i ≠ j := by omega
    have hnlt : ¬j < i := by omega
    rw [if_pos hne, if_neg hnlt, if_neg hnlt, if_pos hgt, zero_add]

def relaxed (old before behind : ℚ) : ℚ := (1 - w) * old + w * (-(before + behind) / 2)

theorem relaxed_eq (first : 0 < i) (last : i + 1 < n) (old : ℚ) (before behind : Nat → ℚ) :
    (1 - w) * old + w * (b i - sumBefore n i before - sumBehind n i behind) / a n i i =
      relaxed old (before (i - 1)) (behind (i + 1)) := by
  have hsolved := solved_inner first last before behind
  rw [sumRow_split, ← sub_sub] at hsolved
  rw [relaxed, ← hsolved, mul_div_assoc]

/-- A sweep that has done the nodes below `i`: from the nodes behind `i`, `kX` has what it had
before, and below `i` what `x` had before. -/
structure Partway (n : Nat) (x k : Nat → ℚ) (i : Nat) (s : State) : Prop where
  inner : ∀ j, 0 < j → j + 1 < n → j < i → s.x j = relaxed (x j) (s.x (j - 1)) (k (j + 1))
  outer : ∀ j, j = 0 ∨ n ≤ j + 1 ∨ i ≤ j → s.x j = x j
  shifted : ∀ j, 0 < j → j + 1 < n → j < i → s.kX j = x j
  kept : ∀ j, j = 0 ∨ n ≤ j + 1 ∨ i ≤ j → s.kX j = k j

theorem row_outer (hi : ¬(i ≠ n - 1 ∧ i ≠ 0)) : (row n s i).x = s.x ∧ (row n s i).kX = s.kX := by
  unfold row
  simp only [if_neg hi, and_self]

theorem row_inner (first : 0 < i) (last : i + 1 < n) :
    (row n s i).x = Function.update s.x i (relaxed (s.x i) (s.x (i - 1)) (s.kX (i + 1))) ∧
      (row n s i).kX = Function.update s.kX i (s.x i) := by
  have hi : i ≠ n - 1 ∧ i ≠ 0 := by omega
  have hvalue : w * (b i - sumRow n i s.x s.kX) / a n i i + (1 - w) * s.x i =
      relaxed (s.x i) (s.x (i - 1)) (s.kX (i + 1)) := by
    rw [← relaxed_eq first last, sumRow_split, ← sub_sub, add_comm]
  unfold row
  simp only [if_pos hi, hvalue, Function.update_self, and_self]

theorem Partway.outer_step {x k : Nat → ℚ} (h : Partway n x k i s) (hi : i = 0 ∨ i + 1 = n) :
    Partway n x k (i + 1) (row n s i) := by
  have hrow := row_outer (n := n) (i := i) (s := s) (by omega)
  refine ⟨fun j first last _ => ?_, fun j hj => ?_, fun j first last _ => ?_, fun j hj => ?_⟩
  · rw [hrow.1]
    exact h.inner j first last (by omega)
  · rw [hrow.1]
    exact h.outer j (by omega)
  · rw [hrow.2]
    exact h.shifted j first last (by omega)
  · rw [hrow.2]
    exact h.kept j (by omega)

theorem Partway.inner_step {x k : Nat → ℚ} (h : Partway n x k i s) (first : 0 < i)
    (last : i + 1 < n) : Partway n x k (i + 1) (row n s i) := by
  have hrow := row_inner (s := s) first last
  have hold : s.x i = x i := h.outer i (.inr (.inr le_rfl))
  have hbehind : s.kX (i + 1) = k (i + 1) := h.kept (i + 1) (.inr (.inr (by omega)))
  refine ⟨fun j first' last' hj => ?_, fun j hj => ?_, fun j first' last' hj => ?_, fun j hj => ?_⟩
  · rw [hrow.1, Function.update_of_ne (show j - 1 ≠ i by omega)]
    rcases Nat.lt_succ_iff_lt_or_eq.mp hj with hlt | rfl
    · rw [Function.update_of_ne (by omega)]
      exact h.inner j first' last' hlt
    · rw [Function.update_self, hold, hbehind]
  · rw [hrow.1, Function.update_of_ne (by omega)]
    exact h.outer j (by omega)
  · rw [hrow.2]
    rcases Nat.lt_succ_iff_lt_or_eq.mp hj with hlt | rfl
    · rw [Function.update_of_ne (by omega)]
      exact h.shifted j first' last' hlt
    · rw [Function.update_self, hold]
  · rw [hrow.2, Function.update_of_ne (by omega)]
    exact h.kept j (by omega)

/-- A whole sweep takes the values behind each node from `kX`, and leaves in `kX` what `x` was
before it. -/
theorem sweep_partway (n : Nat) (s : State) : Partway n s.x s.kX n (sweep n s) := by
  have hloop := foldl_range (n := n) (s := { s with maxDiff := 0 }) (row n)
    (fun i t => Partway n s.x s.kX i t) ?_ ?_
  · exact ⟨hloop.inner, hloop.outer, hloop.shifted, hloop.kept⟩
  · refine ⟨?_, fun _ _ => rfl, ?_, fun _ _ => rfl⟩ <;> intro j _ _ hj <;> omega
  · intro i t hi hpart
    by_cases hinner : 0 < i ∧ i + 1 < n
    · exact hpart.inner_step hinner.1 hinner.2
    · exact hpart.outer_step (by omega)

/-- What `kX` has behind an inner node must be what `x` has there. -/
theorem sweep_sor_iff (hn : 3 ≤ n) (s : State) :
    SorSweep n s.x (sweep n s).x ↔ ∀ j, 2 ≤ j → j < n → s.kX j = s.x j := by
  have h := sweep_partway n s
  constructor
  · intro hsor j hlow hlast
    obtain ⟨i, rfl⟩ : ∃ i, j = i + 1 := ⟨j - 1, by omega⟩
    have hcode := h.inner i (by omega) hlast (by omega)
    rw [hsor.inner i (by omega) hlast, relaxed_eq (by omega) hlast] at hcode
    unfold relaxed w at hcode
    linarith
  · intro hk
    refine ⟨fun i first last => ?_, h.outer 0 (.inl rfl), h.outer (n - 1) (.inr (by omega))⟩
    rw [relaxed_eq first last, h.inner i first last (by omega), hk (i + 1) (by omega) last]

theorem run_succ (k : Nat) : run n (k + 1) = sweep n (run n k) :=
  Function.iterate_succ_apply' _ _ _

theorem run_last (hn : 3 ≤ n) (k : Nat) : (run n k).kX (n - 1) = (run n k).x (n - 1) := by
  induction k with
  | zero => exact (setEnds_last _).trans (setEnds_last _).symm
  | succ k ih =>
    have h := sweep_partway n (run n k)
    rw [run_succ, h.kept (n - 1) (.inr (by omega)), h.outer (n - 1) (.inr (by omega))]
    exact ih

theorem start_ne (hn : 4 ≤ n) : (start n).kX 2 ≠ (start n).x 2 := by
  have hk : (start n).kX 2 = 2 := setEnds_inner (by omega) (by omega) _
  have hx : (start n).x 2 = 1 := setEnds_inner (by omega) (by omega) _
  rw [hk, hx]
  norm_num

/-- A sweep is one of the method just where `kX` and `x` agree from the third node on; in a run
that is so of every sweep only where there is one inner node. -/
theorem sweep_sor (hn : 3 ≤ n) :
    (∀ s, SorSweep n s.x (sweep n s).x ↔ ∀ j, 2 ≤ j → j < n → s.kX j = s.x j) ∧
      ((∀ k, SorSweep n (run n k).x (run n (k + 1)).x) ↔ n = 3) := by
  refine ⟨sweep_sor_iff hn, ?_⟩
  simp only [run_succ, sweep_sor_iff hn]
  constructor
  · intro h
    by_contra hne
    exact start_ne (by omega) (h 0 2 (by omega) (by omega))
  · rintro rfl k j hlow hlast
    obtain rfl : j = 3 - 1 := by omega
    exact run_last (by omega) k

theorem sweep_sor_three :
    (∀ k, SorSweep 3 (run 3 k).x (run 3 (k + 1)).x) ∧
      ¬∀ k, SorSweep 4 (run 4 k).x (run 4 (k + 1)).x :=
  ⟨(sweep_sor (le_refl 3)).2.mpr rfl, fun h => by cases (sweep_sor (by decide)).2.mp h⟩

/-- With four nodes the second takes 2 for the third, which has 1. -/
theorem sweep_not_sor : ¬SorSweep 4 (start 4).x (sweep 4 (start 4)).x := by
  intro h
  exact start_ne (le_refl 4) ((sweep_sor_iff (by decide) (start 4)).mp h 2 (by decide) (by decide))

end SorSweeps

end TcpAndParallel
