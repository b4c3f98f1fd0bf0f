import Mathlib.Algebra.BigOperators.Group.Finset.Basic
import Mathlib.Algebra.BigOperators.Ring.Finset
import Mathlib.Data.Fintype.Basic

namespace TcpAndParallel

variable {τ : Type*} [Fintype τ]

theorem sum_turn [DecidableEq τ] {f g : τ → Nat} {t : τ} (h : ∀ u ≠ t, g u = f u) :
    ∑ u, g u + f t = ∑ u, f u + g t := by
  have rest : ∑ u ∈ Finset.univ.erase t, g u = ∑ u ∈ Finset.univ.erase t, f u :=
    Finset.sum_congr rfl fun u hu => h u (Finset.ne_of_mem_erase hu)
  rw [← Finset.add_sum_erase _ g (Finset.mem_univ t), ← Finset.add_sum_erase _ f (Finset.mem_univ t), rest]
  omega

def headcount (P : τ → Bool) : Nat := (Finset.univ.filter fun t => P t = true).card

theorem headcount_eq_sum (P : τ → Bool) : headcount P = ∑ t, (P t).toNat := by
  rw [headcount, Finset.card_filter]
  refine Finset.sum_congr rfl fun t _ => ?_
  cases P t <;> rfl

theorem headcount_congr {P Q : τ → Bool} (h : ∀ t, Q t = P t) : headcount Q = headcount P := by
  rw [funext h]

theorem headcount_pos {P : τ → Bool} {t : τ} (h : P t = true) : 0 < headcount P :=
  Finset.card_pos.mpr ⟨t, Finset.mem_filter.mpr ⟨Finset.mem_univ t, h⟩⟩

theorem headcount_eq_zero_iff {P : τ → Bool} : headcount P = 0 ↔ ∀ t, P t = false := by
  simp [headcount, Finset.filter_eq_empty_iff]

theorem exists_of_headcount_ne_zero {P : τ → Bool} (h : headcount P ≠ 0) : ∃ t, P t = true := by
  by_contra hno
  exact h (headcount_eq_zero_iff.mpr fun t => Bool.eq_false_iff.mpr fun ht => hno ⟨t, ht⟩)

/-- One thread changes, and the count with it. -/
theorem headcount_change [DecidableEq τ] {P Q : τ → Bool} (t : τ) (others : ∀ u ≠ t, Q u = P u) :
    headcount Q + (P t).toNat = headcount P + (Q t).toNat := by
  rw [headcount_eq_sum, headcount_eq_sum]
  exact sum_turn (f := fun u => (P u).toNat) (g := fun u => (Q u).toNat) fun u hu => by rw [others u hu]

end TcpAndParallel
