import TcpAndParallel.ResistorChain

namespace TcpAndParallel

namespace JacobiArrays

open Jacobi ResistorChain

/-- The variables that the loop of `main` keeps from round to round. -/
structure State where
  x : Nat → ℚ
  xK : Nat → ℚ
  maxDiff : ℚ
  error : ℚ

def start (n : Nat) : State := ⟨setEnds n fun _ => 1, fun _ => 1, 0, 10⟩

def row (n : Nat) (s : State) (i : Nat) : State :=
  let sum := offDiagonal n i s.x
  let s := { s with xK := Function.update s.xK i ((b i - sum) / a n i i) }
  let tDiff := |s.x i - s.xK i|
  if i ≠ 0 ∧ i ≠ n - 1 then
    { s with
      x := Function.update s.x i (s.xK i)
      maxDiff := if s.maxDiff < tDiff then tDiff else s.maxDiff }
  else s

def sweep (n : Nat) (s : State) : State :=
  let s := (List.range n).foldl (row n) { s with maxDiff := 0 }
  { s with error := s.maxDiff / maxB }

/-- `while (error>0.000000001)`. -/
def test (s : State) : Bool := 1 / 1000000000 < s.error

def main (n fuel : Nat) : Option State := whileLoop test (sweep n) fuel (start n)

def run (n k : Nat) : State := (sweep n)^[k] (start n)

/-- The sum over the row of node `i` without the diagonal. -/
def others (n i : Nat) (x : Nat → ℚ) : ℚ := ∑ j ∈ Finset.range n with i ≠ j, a n i j * x j

/-- The voltage `x i` solves the equation of node `i`. -/
def Solves (n : Nat) (x : Nat → ℚ) (i : Nat) : Prop := x i = (b i - others n i x) / a n i i

/-- `y` comes from `x` by one sweep of the method. -/
structure JacobiSweep (n : Nat) (x y : Nat → ℚ) (maxDiff : ℚ) : Prop where
  inner : ∀ i, 0 < i → i + 1 < n → y i = (b i - others n i x) / a n i i
  first : y 0 = x 0
  last : y (n - 1) = x (n - 1)
  greatest : IsGreatest (changes n x y) maxDiff

def InRange (n : Nat) (x : Nat → ℚ) : Prop := ∀ i, i < n → 0 ≤ x i ∧ x i ≤ 10

variable {n i : Nat} {s : State}

theorem others_eq (n i : Nat) (x : Nat → ℚ) : others n i x = offDiagonal n i x :=
  (foldl_add_eq_sum n (fun j => i ≠ j) fun j => a n i j * x j).symm

theorem others_solved (first : 0 < i) (last : i + 1 < n) (x : Nat → ℚ) :
    (b i - others n i x) / a n i i = -(x (i - 1) + x (i + 1)) / 2 := by
  rw [others_eq, offDiagonal_inner first last, diagonal_inner first last, b_inner first, zero_sub]

theorem row_outer (hi : ¬(i ≠ 0 ∧ i ≠ n - 1)) :
    (row n s i).x = s.x ∧ (row n s i).maxDiff = s.maxDiff := by
  unfold row
  rw [if_neg hi]
  exact ⟨rfl, rfl⟩

theorem row_inner (first : 0 < i) (last : i + 1 < n) :
    (row n s i).x = Function.update s.x i (-(s.x (i - 1) + s.x (i + 1)) / 2) ∧
      (row n s i).maxDiff =
        if s.maxDiff < |s.x i - -(s.x (i - 1) + s.x (i + 1)) / 2| then
          |s.x i - -(s.x (i - 1) + s.x (i + 1)) / 2|
        else s.maxDiff := by
  have hi : i ≠ 0 ∧ i ≠ n - 1 := by omega
  have hvalue : (b i - offDiagonal n i s.x) / a n i i = -(s.x (i - 1) + s.x (i + 1)) / 2 := by
    rw [← others_eq, others_solved first last]
  unfold row
  simp only [if_pos hi, hvalue, Function.update_self, and_self]

theorem sweep_settles (hn : 3 ≤ n) (s : State) :
    Settled n s.x (sweep n s).x ∧
      IsGreatest (changes n s.x (sweep n s).x) (sweep n s).maxDiff := by
  have hloop := foldl_range (n := n) (s := { s with maxDiff := 0 }) (row n)
    (fun i t => Partway n s.x i t.x t.maxDiff) (.start n s.x) ?_
  · exact ⟨hloop.settled, hloop.greatest hn⟩
  · intro i t hi hpart
    by_cases hinner : i ≠ 0 ∧ i ≠ n - 1
    · have first : 0 < i := by omega
      have last : i + 1 < n := by omega
      rw [(row_inner first last).1, (row_inner first last).2]
      exact hpart.inner_step first last rfl
    · rw [(row_outer hinner).1, (row_outer hinner).2]
      exact hpart.outer_step (by omega)

theorem run_succ (k : Nat) : run n (k + 1) = sweep n (run n k) :=
  Function.iterate_succ_apply' _ _ _

theorem run_error (k : Nat) : (run n (k + 1)).error = (run n (k + 1)).maxDiff / maxB := by
  rw [run_succ]
  rfl

theorem run_settled (hn : 3 ≤ n) (k : Nat) : Settled n (run n k).x (run n (k + 1)).x := by
  rw [run_succ]
  exact (sweep_settles hn _).1

theorem run_greatest (hn : 3 ≤ n) (k : Nat) :
    IsGreatest (changes n (run n k).x (run n (k + 1)).x) (run n (k + 1)).maxDiff := by
  rw [run_succ]
  exact (sweep_settles hn _).2

theorem main_stops (hn : 3 ≤ n) : ∃ fuel s, main n fuel = some s := by
  obtain ⟨k, hk⟩ := exists_error_le (run_settled hn) (run_greatest hn)
    (show (0 : ℚ) < 1 / 1000000000 by norm_num)
  refine exists_whileLoop (k + 1) ?_
  show test (run n (k + 1)) = false
  rw [test, decide_eq_false_iff_not, run_error, not_lt]
  exact hk

section Order

variable {x y : Nat → ℚ}

/-- The value that leaks into the row of a node is that of the node before it. -/
theorem settled_jacobi_iff (h : Settled n x y) :
    (∀ i, 0 < i → i + 1 < n → y i = (b i - others n i x) / a n i i) ↔
      ∀ i, 0 < i → i + 2 < n → Solves n x i := by
  constructor
  · intro hy i first last
    have hnext := hy (i + 1) (by omega) last
    rw [others_solved (by omega) last, h.inner (i + 1) (by omega) last] at hnext
    have hold : y i = x i := by
      simp only [Nat.add_sub_cancel] at hnext
      linarith
    rw [Solves, ← hold]
    exact hy i first (by omega)
  · intro hx i first last
    have hbefore : ∀ j, j + 2 < n → y j = x j := by
      intro j hj
      induction j with
      | zero => exact h.outer 0 (.inl rfl)
      | succ j ih =>
        have hsolves : x (j + 1) = (b (j + 1) - others n (j + 1) x) / a n (j + 1) (j + 1) :=
          hx (j + 1) (by omega) hj
        rw [h.inner (j + 1) (by omega) (by omega), Nat.add_sub_cancel, ih (by omega), hsolves,
          others_solved (by omega) (by omega)]
        rfl
    rw [h.inner i first last, hbefore (i - 1) (by omega), others_solved first last]

end Order

theorem sweep_jacobi_iff (hn : 3 ≤ n) (s : State) :
    JacobiSweep n s.x (sweep n s).x (sweep n s).maxDiff ↔
      ∀ i, 0 < i → i + 2 < n → Solves n s.x i := by
  obtain ⟨hsettled, hgreatest⟩ := sweep_settles hn s
  rw [← settled_jacobi_iff hsettled]
  constructor
  · intro h
    exact h.inner
  · intro h
    exact ⟨h, hsettled.outer 0 (.inl rfl), hsettled.outer (n - 1) (.inr (by omega)), hgreatest⟩

theorem start_not_solved (hn : 4 ≤ n) : ¬Solves n (start n).x 1 := by
  intro h
  have hone : (start n).x 1 = 1 := setEnds_inner (by omega) (by omega) _
  have htwo : (start n).x 2 = 1 := setEnds_inner (by omega) (by omega) _
  have hzero : (start n).x 0 = 10 := setEnds_first (by omega) _
  rw [Solves, others_solved (by omega) (by omega), hone] at h
  simp only [Nat.sub_self, Nat.reduceAdd, hzero, htwo] at h
  norm_num at h

/-- A sweep is one of the method just where all inner nodes but the last solve their equations
before it; in a run that is so of every sweep only where there is one inner node. -/
theorem sweep_jacobi (hn : 3 ≤ n) :
    (∀ s, JacobiSweep n s.x (sweep n s).x (sweep n s).maxDiff ↔
        ∀ i, 0 < i → i + 2 < n → Solves n s.x i) ∧
      ((∀ k, JacobiSweep n (run n k).x (run n (k + 1)).x (run n (k + 1)).maxDiff) ↔ n = 3) := by
  refine ⟨sweep_jacobi_iff hn, ?_⟩
  simp only [run_succ, sweep_jacobi_iff hn]
  constructor
  · intro h
    by_contra hne
    exact start_not_solved (by omega) (h 0 1 (by omega) (by omega))
  · intro h k i first last
    omega

/-- One inner node has no other to take a new value from, two have. -/
theorem sweep_jacobi_three :
    (∀ k, JacobiSweep 3 (run 3 k).x (run 3 (k + 1)).x (run 3 (k + 1)).maxDiff) ∧
      ¬∀ k, JacobiSweep 4 (run 4 k).x (run 4 (k + 1)).x (run 4 (k + 1)).maxDiff :=
  ⟨(sweep_jacobi (le_refl 3)).2.mpr rfl, fun h => by
    cases (sweep_jacobi (by decide)).2.mp h⟩

/-- With four nodes the third already takes the new voltage of the second. -/
theorem sweep_not_jacobi :
    ¬JacobiSweep 4 (start 4).x (sweep 4 (start 4)).x (sweep 4 (start 4)).maxDiff := by
  intro h
  exact start_not_solved (le_refl 4)
    ((sweep_jacobi_iff (by decide) (start 4)).mp h 1 (by decide) (by decide))

theorem run_alternates (hn : 3 ≤ n) (k : Nat) :
    Alternates n (run n k).x ∧ (run n k).x 0 = 10 := by
  induction k with
  | zero => exact ⟨setEnds_alternates (by omega), setEnds_first (by omega) _⟩
  | succ k ih =>
    have hsettled := run_settled hn k
    exact ⟨hsettled.alternates ih.1, (hsettled.outer 0 (.inl rfl)).trans ih.2⟩

theorem start_inRange (hn : 3 ≤ n) : InRange n (start n).x := by
  intro i hi
  show 0 ≤ setEnds n (fun _ => 1) i ∧ setEnds n (fun _ => 1) i ≤ 10
  rcases Nat.eq_zero_or_pos i with rfl | first
  · rw [setEnds_first (by omega)]
    norm_num
  by_cases last : i + 1 < n
  · rw [setEnds_inner first last]
    norm_num
  · have hi' : i = n - 1 := by omega
    rw [hi', setEnds_last]
    norm_num

/-- The voltages are between ground and source before the first sweep and after none. -/
theorem run_inRange_iff (hn : 3 ≤ n) (k : Nat) : InRange n (run n k).x ↔ k = 0 := by
  constructor
  · intro h
    cases k with
    | zero => rfl
    | succ k =>
      obtain ⟨halt, hsource⟩ := run_alternates hn k
      have hneg := (run_settled hn k).second_neg hn halt hsource
      exact absurd (h 1 (by omega)).1 (not_le.mpr hneg)
  · rintro rfl
    exact start_inRange hn

theorem run_inRange_zero : InRange 3 (run 3 0).x := (run_inRange_iff (le_refl 3) 0).mpr rfl

/-- The middle one of three nodes is at -5 after one sweep. -/
theorem run_not_inRange : (run 3 1).x 1 = -5 ∧ ¬InRange 3 (run 3 1).x := by
  have hmiddle : (run 3 1).x 1 = -5 := by decide +kernel
  refine ⟨hmiddle, fun h => ?_⟩
  have hlow := (h 1 (by decide)).1
  rw [hmiddle] at hlow
  norm_num at hlow

end JacobiArrays

end TcpAndParallel
