import TcpAndParallel.ResistorChain

namespace TcpAndParallel

namespace GaussSeidel

open Jacobi ResistorChain

/-- The variables that the loop of `main` keeps from round to round. -/
structure State where
  x : Nat → ℚ
  xK : Nat → ℚ
  maxDiff : ℚ
  error : ℚ

def start (n : Nat) : State := ⟨setEnds n fun _ => 1, setEnds n fun _ => 1, 0, 10⟩

def row (n : Nat) (s : State) (i : Nat) : State :=
  let sum := sumRow n i s.xK s.x
  let s :=
    if i ≠ 0 ∧ i ≠ n - 1 then { s with xK := Function.update s.xK i ((b i - sum) / a n i i) }
    else { s with x := Function.update s.x i (s.xK i) }
  let tDiff := |s.x i - s.xK i|
  if i ≠ 0 ∧ i ≠ n - 1 then
    { s with
      x := Function.update s.x i (s.xK i)
      maxDiff := if s.maxDiff < tDiff then tDiff else s.maxDiff }
  else s

def sweep (n : Nat) (s : State) : State :=
  let s := (List.range n).foldl (row n) { s with maxDiff := 0 }
  { s with error := s.maxDiff / maxB }

/-- `while (error>0.0000001)`. -/
def test (s : State) : Bool := 1 / 10000000 < s.error

def main (n fuel : Nat) : Option State := whileLoop test (sweep n) fuel (start n)

def run (n k : Nat) : State := (sweep n)^[k] (start n)

variable {n i : Nat} {s : State}

theorem row_outer (step : s.x = s.xK) (hi : ¬(i ≠ 0 ∧ i ≠ n - 1)) : row n s i = s := by
  have hcopy : Function.update s.x i (s.xK i) = s.x := by
    rw [← step, Function.update_eq_self]
  unfold row
  rw [if_neg hi, if_neg hi, hcopy]

theorem row_inner (step : s.x = s.xK) (first : 0 < i) (last : i + 1 < n) :
    row n s i =
      { s with
        x := Function.update s.x i (-(s.x (i - 1) + s.x (i + 1)) / 2)
        xK := Function.update s.x i (-(s.x (i - 1) + s.x (i + 1)) / 2)
        maxDiff :=
          if s.maxDiff < |s.x i - -(s.x (i - 1) + s.x (i + 1)) / 2| then
            |s.x i - -(s.x (i - 1) + s.x (i + 1)) / 2|
          else s.maxDiff } := by
  have hi : i ≠ 0 ∧ i ≠ n - 1 := by omega
  unfold row
  simp only [if_pos hi, solved_inner first last, ← step, Function.update_self]

/-- A sweep settles the nodes in order, in both vectors. -/
theorem sweep_settles (hn : 3 ≤ n) (step : s.x = s.xK) :
    (sweep n s).x = (sweep n s).xK ∧ Settled n s.x (sweep n s).x ∧
      IsGreatest (changes n s.x (sweep n s).x) (sweep n s).maxDiff := by
  have hloop := foldl_range (n := n) (s := { s with maxDiff := 0 }) (row n)
    (fun i t => t.x = t.xK ∧ Partway n s.x i t.x t.maxDiff) ⟨step, .start n s.x⟩ ?_
  · exact ⟨hloop.1, hloop.2.settled, hloop.2.greatest hn⟩
  · intro i t hi ⟨hstep, hpart⟩
    by_cases hinner : i ≠ 0 ∧ i ≠ n - 1
    · have first : 0 < i := by omega
      have last : i + 1 < n := by omega
      rw [row_inner hstep first last]
      exact ⟨rfl, hpart.inner_step first last rfl⟩
    · rw [row_outer hstep hinner]
      exact ⟨hstep, hpart.outer_step (by omega)⟩

theorem run_succ (k : Nat) : run n (k + 1) = sweep n (run n k) :=
  Function.iterate_succ_apply' _ _ _

theorem run_error (k : Nat) : (run n (k + 1)).error = (run n (k + 1)).maxDiff / maxB := by
  rw [run_succ]
  rfl

theorem run_step (hn : 3 ≤ n) (k : Nat) : (run n k).x = (run n k).xK := by
  induction k with
  | zero => rfl
  | succ k ih =>
    rw [run_succ]
    exact (sweep_settles hn ih).1

theorem run_settled (hn : 3 ≤ n) (k : Nat) : Settled n (run n k).x (run n (k + 1)).x := by
  rw [run_succ]
  exact (sweep_settles hn (run_step hn k)).2.1

theorem run_greatest (hn : 3 ≤ n) (k : Nat) :
    IsGreatest (changes n (run n k).x (run n (k + 1)).x) (run n (k + 1)).maxDiff := by
  rw [run_succ]
  exact (sweep_settles hn (run_step hn k)).2.2

theorem run_shrinks (hn : 3 ≤ n) (k : Nat) :
    (run n (k + 2)).maxDiff ≤ shrink n * (run n (k + 1)).maxDiff :=
  (run_settled hn k).greatest_le (run_settled hn (k + 1)) (run_greatest hn k)
    (run_greatest hn (k + 1))

theorem main_stops (hn : 3 ≤ n) : ∃ fuel s, main n fuel = some s := by
  obtain ⟨k, hk⟩ := exists_error_le (run_settled hn) (run_greatest hn)
    (show (0 : ℚ) < 1 / 10000000 by norm_num)
  refine exists_whileLoop (k + 1) ?_
  show test (run n (k + 1)) = false
  rw [test, decide_eq_false_iff_not, run_error, not_lt]
  exact hk

/-- The loop ends; each sweep settles the nodes in both vectors, keeps the ends of the chain and
finds its greatest change, which from the second one on is less than the one before. -/
theorem main_terminates (hn : 3 ≤ n) :
    (∃ fuel s, main n fuel = some s) ∧
      (∀ k, (run n (k + 1)).x 0 = (run n k).x 0 ∧
        (run n (k + 1)).x (n - 1) = (run n k).x (n - 1)) ∧
      (∀ k, (run n (k + 2)).maxDiff ≤ (1 - (1 / 2) ^ (n - 2)) * (run n (k + 1)).maxDiff) ∧
      ∀ k, (run n k).x = (run n k).xK ∧ Settled n (run n k).x (run n (k + 1)).x ∧
        IsGreatest (changes n (run n k).x (run n (k + 1)).x) (run n (k + 1)).maxDiff := by
  refine ⟨main_stops hn, fun k => ⟨?_, ?_⟩, run_shrinks hn,
    fun k => ⟨run_step hn k, run_settled hn k, run_greatest hn k⟩⟩
  · exact (run_settled hn k).outer 0 (.inl rfl)
  · exact (run_settled hn k).outer (n - 1) (.inr (by omega))

theorem main_terminates_three :
    (∃ fuel s, main 3 fuel = some s) ∧
      (∀ k, (run 3 (k + 1)).x 0 = (run 3 k).x 0 ∧
        (run 3 (k + 1)).x (3 - 1) = (run 3 k).x (3 - 1)) ∧
      (∀ k, (run 3 (k + 2)).maxDiff ≤ (1 - (1 / 2) ^ (3 - 2)) * (run 3 (k + 1)).maxDiff) ∧
      ∀ k, (run 3 k).x = (run 3 k).xK ∧ Settled 3 (run 3 k).x (run 3 (k + 1)).x ∧
        IsGreatest (changes 3 (run 3 k).x (run 3 (k + 1)).x) (run 3 (k + 1)).maxDiff :=
  main_terminates (by decide)

end GaussSeidel

end TcpAndParallel
