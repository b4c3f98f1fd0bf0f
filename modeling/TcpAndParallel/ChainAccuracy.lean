import TcpAndParallel.GaussSeidel
import TcpAndParallel.JacobiArrays
import TcpAndParallel.SorSweeps
import Mathlib.Order.Interval.Finset.Nat

namespace TcpAndParallel

namespace ResistorChain

open Jacobi

/-- The voltages that solve every equation of the chain: those of a voltage divider, with the sign
changed at every other node. -/
def exact (n i : Nat) : ℚ := (-1) ^ i * (10 * (1 - i / (n - 1)))

section Exact

variable {n i : Nat}

theorem exact_first (n : Nat) : exact n 0 = 10 := by simp [exact]

theorem exact_last (hn : 2 ≤ n) : exact n (n - 1) = 0 := by
  have hpos : (n : ℚ) - 1 ≠ 0 := by
    have hcast : (2 : ℚ) ≤ n := by exact_mod_cast hn
    linarith
  have hcast : ((n - 1 : Nat) : ℚ) = n - 1 := by
    rw [Nat.cast_sub (by omega), Nat.cast_one]
  rw [exact, hcast, div_self hpos]
  ring

theorem exact_inner (hn : 2 ≤ n) (first : 0 < i) :
    exact n i = -(exact n (i - 1) + exact n (i + 1)) / 2 := by
  obtain ⟨j, rfl⟩ : ∃ j, i = j + 1 := ⟨i - 1, by omega⟩
  have hpos : (n : ℚ) - 1 ≠ 0 := by
    have hcast : (2 : ℚ) ≤ n := by exact_mod_cast hn
    linarith
  simp only [exact, Nat.add_sub_cancel, pow_succ, Nat.cast_add, Nat.cast_one]
  field_simp
  ring

theorem exact_settled (hn : 2 ≤ n) : Settled n (exact n) (exact n) :=
  ⟨fun _ first _ => exact_inner hn first, fun _ _ => rfl⟩

theorem abs_exact_le (hi : i < n) : |exact n i| ≤ 10 := by
  have hfrac : (i : ℚ) / (n - 1) ≤ 1 := by
    rcases Nat.lt_or_ge n 2 with hn | hn
    · obtain rfl : i = 0 := by omega
      simp
    · have hcast : (i : ℚ) ≤ n - 1 := by
        have hle : (i : ℚ) + 1 ≤ n := by exact_mod_cast hi
        linarith
      have hpos : (0 : ℚ) < n - 1 := by
        have htwo : (2 : ℚ) ≤ n := by exact_mod_cast hn
        linarith
      exact (div_le_one hpos).mpr hcast
  have hnonneg : (0 : ℚ) ≤ i / (n - 1) := by
    rcases Nat.eq_zero_or_pos i with rfl | hpos
    · simp
    · have hone : (1 : ℚ) ≤ n := by exact_mod_cast (by omega : 1 ≤ n)
      exact div_nonneg (Nat.cast_nonneg i) (by linarith)
  rw [exact, abs_mul, abs_pow, abs_neg, abs_one, one_pow, one_mul, abs_mul, abs_of_nonneg (by norm_num),
    abs_of_nonneg (by linarith)]
  linarith

end Exact

/-- What a sweep over a chain is told apart by: the ends, and how far inner voltages are from the exact
ones. -/
structure Near (n : Nat) (x : Nat → ℚ) (M : ℚ) : Prop where
  ends : ∀ i, i < n → i = 0 ∨ i + 1 = n → x i = exact n i
  inner : ∀ i, 0 < i → i + 1 < n → |x i - exact n i| ≤ M

section Convergence

variable {n : Nat} {x y : Nat → ℚ} {M : ℚ}

theorem Near.all (h : Near n x M) (M0 : 0 ≤ M) {i : Nat} (hi : i < n) : |x i - exact n i| ≤ M := by
  by_cases hinner : 0 < i ∧ i + 1 < n
  · exact h.inner i hinner.1 hinner.2
  · rw [h.ends i hi (by omega), sub_self, abs_zero]
    exact M0

theorem Near.mono {M' : ℚ} (h : Near n x M) (hM : M ≤ M') : Near n x M' :=
  ⟨h.ends, fun i first last => (h.inner i first last).trans hM⟩

theorem Settled.near (h : Settled n x y) (hn : 3 ≤ n) (near : Near n x M) (M0 : 0 ≤ M) :
    Near n y (shrink n * M) := by
  refine ⟨fun i hi hends => ?_, fun i first last => ?_⟩
  · rw [h.outer i (by omega), near.ends i hi hends]
  · have ends : ∀ j, j < n → j = 0 ∨ n ≤ j + 1 → x j = exact n j := fun j hj hout =>
      near.ends j hj (by omega)
    refine ((exact_settled (by omega)).difference_le h (fun j hj hout => ends j hj hout) near.inner M0 i last).trans
      (mul_le_mul_of_nonneg_right ?_ M0)
    have hpow : (1 / 2 : ℚ) ^ (n - 2) ≤ (1 / 2) ^ i :=
      pow_le_pow_of_le_one (by norm_num) (by norm_num) (by omega)
    unfold shrink
    linarith

theorem setEnds_near (hn : 2 ≤ n) {c : ℚ} (hc : ∀ i, i < n → |c - exact n i| ≤ M) :
    Near n (setEnds n fun _ => c) M := by
  refine ⟨fun i hi hends => ?_, fun i first last => ?_⟩
  · rcases hends with rfl | hlast
    · rw [setEnds_first hn, exact_first]
    · obtain rfl : i = n - 1 := by omega
      rw [setEnds_last, exact_last hn]
  · rw [setEnds_inner first last]
    exact hc i (by omega)

theorem start_near (hn : 2 ≤ n) : Near n (setEnds n fun _ => 1) 11 :=
  setEnds_near hn fun i hi => by
    have hexact := abs_le.mp (abs_exact_le hi)
    rw [abs_le]
    constructor <;> linarith

theorem exists_greatest (hn : 3 ≤ n) (x y : Nat → ℚ) : ∃ M, IsGreatest (changes n x y) M := by
  obtain ⟨i, hi, hmax⟩ := Finset.exists_max_image (Finset.Ico 1 (n - 1)) (fun i => |y i - x i|)
    ⟨1, Finset.mem_Ico.mpr ⟨by omega, by omega⟩⟩
  rw [Finset.mem_Ico] at hi
  refine ⟨|y i - x i|, ⟨i, hi.1, by omega, rfl⟩, ?_⟩
  rintro d ⟨j, first, last, rfl⟩
  exact hmax j (Finset.mem_Ico.mpr ⟨first, by omega⟩)

/-- Where the last sweep has changed little, the voltages are near the exact ones. -/
theorem Settled.accurate (h : Settled n x y) (hn : 3 ≤ n) (near : Near n x M)
    {δ : ℚ} (small : ∀ i, 0 < i → i + 1 < n → |y i - x i| ≤ δ) :
    Near n y ((2 ^ (n - 2) - 1) * δ) := by
  obtain ⟨E, ⟨i, first, last, hE⟩, hmax⟩ := exists_greatest hn (exact n) x
  have E0 : 0 ≤ E := hE ▸ abs_nonneg _
  have nearE : Near n x E := ⟨near.ends, fun j hj hj' => hmax ⟨j, hj, hj', rfl⟩⟩
  have next := h.near hn nearE E0
  have hpos : (0 : ℚ) < (1 / 2) ^ (n - 2) := by positivity
  have hbound : (1 / 2) ^ (n - 2) * E ≤ δ := by
    have hi := next.inner i first last
    have hchange := small i first last
    have htri := abs_sub_le (x i) (y i) (exact n i)
    rw [abs_sub_comm (x i) (y i)] at htri
    unfold shrink at hi
    rw [← hE] at htri
    linarith
  have htwo : (2 : ℚ) ^ (n - 2) * (1 / 2) ^ (n - 2) = 1 := by
    rw [← mul_pow]
    norm_num
  refine next.mono ?_
  have hle : E ≤ 2 ^ (n - 2) * δ := by
    calc E = 2 ^ (n - 2) * ((1 / 2) ^ (n - 2) * E) := by rw [← mul_assoc, htwo, one_mul]
      _ ≤ 2 ^ (n - 2) * δ := mul_le_mul_of_nonneg_left hbound (by positivity)
  calc shrink n * E ≤ shrink n * (2 ^ (n - 2) * δ) := mul_le_mul_of_nonneg_left hle (shrink_nonneg n)
    _ = (2 ^ (n - 2) - 2 ^ (n - 2) * (1 / 2) ^ (n - 2)) * δ := by
      unfold shrink
      ring
    _ = (2 ^ (n - 2) - 1) * δ := by rw [htwo]

theorem Settled.unique {y' : Nat → ℚ} (h : Settled n x y) (h' : Settled n x y') : y = y' := by
  funext i
  induction i with
  | zero => rw [h.outer 0 (.inl rfl), h'.outer 0 (.inl rfl)]
  | succ i ih =>
    by_cases hlast : i + 1 + 1 < n
    · rw [h.inner (i + 1) (by omega) hlast, h'.inner (i + 1) (by omega) hlast, Nat.add_sub_cancel, ih]
    · rw [h.outer (i + 1) (by omega), h'.outer (i + 1) (by omega)]

end Convergence

end ResistorChain

namespace GaussSeidel

open ResistorChain

variable {n : Nat}

theorem run_near (hn : 3 ≤ n) (k : Nat) : Near n (run n k).x (shrink n ^ k * 11) := by
  induction k with
  | zero =>
    have hstart : Near n (run n 0).x 11 := start_near (by omega)
    simpa using hstart
  | succ k ih =>
    have hpos : 0 ≤ shrink n ^ k * 11 := mul_nonneg (pow_nonneg (shrink_nonneg n) k) (by norm_num)
    rw [pow_succ', mul_assoc]
    exact (run_settled hn k).near hn ih hpos

/-- When the program stops, the voltages are those of the chain, up to the tolerance times what a
sweep can leave of an error. -/
theorem main_accurate (hn : 3 ≤ n) {fuel : Nat} {s : State} (h : main n fuel = some s) :
    ∀ i, i < n → |s.x i - exact n i| ≤ (2 ^ (n - 2) - 1) * (1 / 1000000) := by
  obtain ⟨rounds, rfl, htest⟩ := of_whileLoop h
  cases rounds with
  | zero =>
    rw [test, decide_eq_false_iff_not] at htest
    norm_num [start] at htest
  | succ k =>
    have hstop : (run n (k + 1)).error ≤ 1 / 10000000 := by
      rw [test, decide_eq_false_iff_not, not_lt] at htest
      exact htest
    have hgreatest := run_greatest hn k
    have hsmall : (run n (k + 1)).maxDiff ≤ 1 / 1000000 := by
      rw [run_error, maxB, div_le_iff₀ (by norm_num)] at hstop
      linarith
    have near := (run_settled hn k).accurate hn (run_near hn k) fun i first last =>
      (hgreatest.2 ⟨i, first, last, rfl⟩).trans hsmall
    have hpow : (1 : ℚ) ≤ 2 ^ (n - 2) := one_le_pow₀ (by norm_num)
    exact fun i hi => near.all (mul_nonneg (by linarith) (by norm_num)) hi

theorem main_accurate_three : ∃ fuel s, main 3 fuel = some s ∧
    ∀ i, i < 3 → |s.x i - exact 3 i| ≤ (2 ^ (3 - 2) - 1) * (1 / 1000000) := by
  obtain ⟨fuel, s, h⟩ := main_stops (le_refl 3)
  exact ⟨fuel, s, h, main_accurate (by decide) h⟩

end GaussSeidel

namespace JacobiArrays

open ResistorChain

variable {n : Nat}

theorem run_eq (hn : 3 ≤ n) (k : Nat) : (run n k).x = (GaussSeidel.run n k).x := by
  induction k with
  | zero => rfl
  | succ k ih => exact (run_settled hn k).unique (ih ▸ GaussSeidel.run_settled hn k)

/-- The Jacobi program goes through the voltages of the Gauss-Seidel program, and stops nearer to
those of the chain. -/
theorem main_agrees (hn : 3 ≤ n) :
    (∀ k i, (run n k).x i = (GaussSeidel.run n k).x i) ∧
      (∃ fuel s, main n fuel = some s) ∧
      ∀ fuel s, main n fuel = some s →
        ∀ i, i < n → |s.x i - exact n i| ≤ (2 ^ (n - 2) - 1) * (1 / 100000000) := by
  refine ⟨fun k i => by rw [run_eq hn k], main_stops hn, fun fuel s h => ?_⟩
  obtain ⟨rounds, rfl, htest⟩ := of_whileLoop h
  cases rounds with
  | zero =>
    rw [test, decide_eq_false_iff_not] at htest
    norm_num [start] at htest
  | succ k =>
    have hstop : (run n (k + 1)).error ≤ 1 / 1000000000 := by
      rw [test, decide_eq_false_iff_not, not_lt] at htest
      exact htest
    have hgreatest := run_greatest hn k
    have hsmall : (run n (k + 1)).maxDiff ≤ 1 / 100000000 := by
      rw [run_error, maxB, div_le_iff₀ (by norm_num)] at hstop
      linarith
    have before : Near n (run n k).x (shrink n ^ k * 11) := by
      rw [run_eq hn k]
      exact GaussSeidel.run_near hn k
    have near := (run_settled hn k).accurate hn before fun i first last =>
      (hgreatest.2 ⟨i, first, last, rfl⟩).trans hsmall
    have hpow : (1 : ℚ) ≤ 2 ^ (n - 2) := one_le_pow₀ (by norm_num)
    exact fun i hi => near.all (mul_nonneg (by linarith) (by norm_num)) hi

theorem main_agrees_three :
    (∀ k i, (run 3 k).x i = (GaussSeidel.run 3 k).x i) ∧
      (∃ fuel s, main 3 fuel = some s) ∧
      ∀ fuel s, main 3 fuel = some s →
        ∀ i, i < 3 → |s.x i - exact 3 i| ≤ (2 ^ (3 - 2) - 1) * (1 / 100000000) :=
  main_agrees (by decide)

end JacobiArrays

namespace SorSweeps

open ResistorChain

variable {n : Nat} {s : State} {M M' : ℚ}

/-- `while (error>0.000000001)`. -/
def test (s : State) : Bool := 1 / 1000000000 < s.error

def main (n fuel : Nat) : Option State := whileLoop test (sweep n) fuel (start n)

/-- What is left of an error by a sweep that takes the voltages behind a node from one sweep too
early. -/
def lag (n : Nat) : ℚ := 1 - (1 / 3) ^ (n - 2)

theorem lag_nonneg (n : Nat) : 0 ≤ lag n := by
  have hpow : (1 / 3 : ℚ) ^ (n - 2) ≤ 1 := pow_le_one₀ (by norm_num) (by norm_num)
  unfold lag
  linarith

theorem lag_lt_one (n : Nat) : lag n < 1 := by
  have hpow : (0 : ℚ) < (1 / 3) ^ (n - 2) := by positivity
  unfold lag
  linarith

/-- Along the chain a third of the error of each node goes. -/
theorem sweep_error_le (hn : 3 ≤ n) (hx : Near n s.x M) (hk : Near n s.kX M) (M0 : 0 ≤ M) (i : Nat)
    (hi : i + 1 < n) : |(sweep n s).x i - exact n i| ≤ (1 - (1 / 3) ^ i) * M := by
  have h := sweep_partway n s
  induction i with
  | zero =>
    rw [h.outer 0 (.inl rfl), hx.ends 0 (by omega) (.inl rfl)]
    simp
  | succ i ih =>
    have hbefore := ih (by omega)
    have hold := hx.inner (i + 1) (by omega) hi
    have hbehind : |s.kX (i + 2) - exact n (i + 2)| ≤ M := hk.all M0 (by omega)
    have hexact := exact_inner (n := n) (i := i + 1) (by omega) (by omega)
    rw [Nat.add_sub_cancel] at hexact
    have herror : (sweep n s).x (i + 1) - exact n (i + 1) = ((s.x (i + 1) - exact n (i + 1)) -
        ((sweep n s).x i - exact n i) - (s.kX (i + 2) - exact n (i + 2))) / 3 := by
      rw [h.inner (i + 1) (by omega) hi (by omega), Nat.add_sub_cancel]
      unfold relaxed w
      linarith
    rw [abs_le] at hbefore hold hbehind
    rw [herror, abs_le, pow_succ]
    constructor <;> linarith

theorem sweep_near (hn : 3 ≤ n) (hx : Near n s.x M) (hk : Near n s.kX M) (M0 : 0 ≤ M) :
    Near n (sweep n s).x (lag n * M) := by
  have h := sweep_partway n s
  refine ⟨fun i hi hends => ?_, fun i first last => ?_⟩
  · rw [h.outer i (by omega), hx.ends i hi hends]
  · refine (sweep_error_le hn hx hk M0 i last).trans (mul_le_mul_of_nonneg_right ?_ M0)
    have hpow : (1 / 3 : ℚ) ^ (n - 2) ≤ (1 / 3) ^ i :=
      pow_le_pow_of_le_one (by norm_num) (by norm_num) (by omega)
    unfold lag
    linarith

theorem sweep_shift_near (hx : Near n s.x M) (hk : Near n s.kX M') : Near n (sweep n s).kX M := by
  have h := sweep_partway n s
  refine ⟨fun i hi hends => ?_, fun i first last => ?_⟩
  · rw [h.kept i (by omega), hk.ends i hi hends]
  · rw [h.shifted i first last (by omega)]
    exact hx.inner i first last

theorem run_near (hn : 3 ≤ n) (k : Nat) :
    Near n (run n k).x (lag n ^ ((k + 1) / 2) * 12) ∧ Near n (run n k).kX (lag n ^ (k / 2) * 12) := by
  induction k with
  | zero =>
    have hx : Near n (run n 0).x 12 := (start_near (by omega)).mono (by norm_num)
    have hk : Near n (run n 0).kX 12 := setEnds_near (by omega) fun i hi => by
      have hexact := abs_le.mp (abs_exact_le hi)
      rw [abs_le]
      constructor <;> linarith
    exact ⟨by simpa using hx, by simpa using hk⟩
  | succ k ih =>
    obtain ⟨hx, hk⟩ := ih
    have hpos : 0 ≤ lag n ^ (k / 2) * 12 := mul_nonneg (pow_nonneg (lag_nonneg n) _) (by norm_num)
    have hle : lag n ^ ((k + 1) / 2) * 12 ≤ lag n ^ (k / 2) * 12 :=
      mul_le_mul_of_nonneg_right (pow_le_pow_of_le_one (lag_nonneg n) (lag_lt_one n).le (by omega))
        (by norm_num)
    have hhalf : (k + 1 + 1) / 2 = k / 2 + 1 := by omega
    rw [run_succ, hhalf, pow_succ', mul_assoc]
    exact ⟨sweep_near hn (hx.mono hle) hk hpos, sweep_shift_near hx hk⟩

theorem sweep_maxDiff (n : Nat) (s : State) : (sweep n s).maxDiff = 0 ∨
    ∃ i, i < n ∧ (sweep n s).maxDiff = |(sweep n s).kX i - (sweep n s).x i| := by
  have hloop := foldl_range (n := n) (s := { s with maxDiff := 0 }) (row n)
    (fun i t => t.maxDiff = 0 ∨ ∃ j, j < i ∧ t.maxDiff = |t.kX j - t.x j|) (.inl rfl) ?_
  · exact hloop
  · intro i t hi ht
    have hkeep : ∀ j, j < i → (row n t i).x j = t.x j ∧ (row n t i).kX j = t.kX j := fun j hj => by
      have hne : j ≠ i := by omega
      unfold row
      dsimp only
      split <;> simp [hne]
    have hmax : (row n t i).maxDiff = if t.maxDiff < |(row n t i).kX i - (row n t i).x i| then
        |(row n t i).kX i - (row n t i).x i| else t.maxDiff := by
      unfold row
      dsimp only
      split <;> rfl
    by_cases hlt : t.maxDiff < |(row n t i).kX i - (row n t i).x i|
    · exact .inr ⟨i, by omega, hmax.trans (if_pos hlt)⟩
    · rw [hmax, if_neg hlt]
      rcases ht with hzero | ⟨j, hj, he⟩
      · exact .inl hzero
      · refine .inr ⟨j, by omega, ?_⟩
        rw [(hkeep j hj).1, (hkeep j hj).2, he]

/-- Although it reads the voltages behind a node one sweep too early, the program comes to the
voltages of the chain, at half the speed, and stops. -/
theorem main_converges (hn : 3 ≤ n) :
    (∀ k i, i < n → |(run n k).x i - exact n i| ≤ (1 - (1 / 3) ^ (n - 2)) ^ ((k + 1) / 2) * 12) ∧
      ∃ fuel s, main n fuel = some s := by
  have hpos : ∀ k, 0 ≤ lag n ^ k * 12 := fun k => mul_nonneg (pow_nonneg (lag_nonneg n) k) (by norm_num)
  refine ⟨fun k i hi => (run_near hn k).1.all (hpos _) hi, ?_⟩
  obtain ⟨k, hk⟩ := exists_pow_lt_of_lt_one (show (0 : ℚ) < 1 / 10000000000 by norm_num) (lag_lt_one n)
  refine exists_whileLoop (2 * k + 1) ?_
  show test (run n (2 * k + 1)) = false
  obtain ⟨hx, hkx⟩ := run_near hn (2 * k + 1)
  have hx' : Near n (run n (2 * k + 1)).x (lag n ^ k * 12) := hx.mono
    (mul_le_mul_of_nonneg_right (pow_le_pow_of_le_one (lag_nonneg n) (lag_lt_one n).le (by omega))
      (by norm_num))
  have hhalf : (2 * k + 1) / 2 = k := by omega
  rw [hhalf] at hkx
  have hmax : (run n (2 * k + 1)).maxDiff ≤ lag n ^ k * 24 := by
    have hattained := sweep_maxDiff n (run n (2 * k))
    rw [← run_succ] at hattained
    rcases hattained with hzero | ⟨i, hi, he⟩
    · rw [hzero]
      linarith [hpos k]
    · have hxi := abs_le.mp (hx'.all (hpos k) hi)
      have hki := abs_le.mp (hkx.all (hpos k) hi)
      rw [he, abs_le]
      constructor <;> linarith
  have herror : (run n (2 * k + 1)).error = (run n (2 * k + 1)).maxDiff / maxB := by
    rw [run_succ]
    rfl
  rw [test, decide_eq_false_iff_not, not_lt, herror, maxB, div_le_iff₀ (by norm_num)]
  linarith

theorem main_converges_three :
    (∀ k i, i < 3 → |(run 3 k).x i - exact 3 i| ≤ (1 - (1 / 3) ^ (3 - 2)) ^ ((k + 1) / 2) * 12) ∧
      ∃ fuel s, main 3 fuel = some s :=
  main_converges (by decide)

end SorSweeps

end TcpAndParallel
