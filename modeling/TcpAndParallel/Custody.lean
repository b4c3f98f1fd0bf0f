import Mathlib.Data.List.Nodup
import Mathlib.Logic.Function.Basic

namespace TcpAndParallel

inductive Spot (σ τ : Type*)
  | shelf (x : σ)
  | hand (t : τ)

variable {σ τ ι : Type*} {place : ι → Spot σ τ} {carried : τ → Option ι}

/-- The items with `P` are those on the shelf `x`. -/
def Stocks (place : ι → Spot σ τ) (x : σ) (P : ι → Prop) : Prop := ∀ i, P i ↔ place i = .shelf x

/-- The threads carry what is in their hands. -/
def Tracks (place : ι → Spot σ τ) (carried : τ → Option ι) : Prop :=
  ∀ t i, carried t = some i ↔ place i = .hand t

theorem Stocks.ne_hand {x : σ} {P : ι → Prop} (h : Stocks place x P) {i : ι} {t : τ} (hi : P i) :
    place i ≠ .hand t := by
  rw [(h i).mp hi]
  exact nofun

theorem Tracks.unique (h : Tracks place carried) {t u : τ} {i : ι} (ht : carried t = some i)
    (hu : carried u = some i) : t = u := by
  have he := ((h t i).mp ht).symm.trans ((h u i).mp hu)
  exact Spot.hand.inj he

variable [DecidableEq ι]

theorem Stocks.frame {x : σ} {P : ι → Prop} (h : Stocks place x P) {i : ι} {p : Spot σ τ}
    (hi : ¬P i) (hp : p ≠ .shelf x) : Stocks (Function.update place i p) x P := by
  intro j
  by_cases hj : j = i
  · subst hj
    simp [hi, hp]
  · rw [Function.update_of_ne hj]
    exact h j

theorem Stocks.add {x : σ} {P Q : ι → Prop} (h : Stocks place x P) {i : ι}
    (hQ : ∀ j, Q j ↔ j = i ∨ P j) : Stocks (Function.update place i (.shelf x)) x Q := by
  intro j
  rw [hQ]
  by_cases hj : j = i
  · simp [hj]
  · rw [Function.update_of_ne hj]
    simpa [hj] using h j

theorem Stocks.remove {x : σ} {P Q : ι → Prop} (h : Stocks place x P) {i : ι} {p : Spot σ τ}
    (hQ : ∀ j, Q j ↔ j ≠ i ∧ P j) (hp : p ≠ .shelf x) : Stocks (Function.update place i p) x Q := by
  intro j
  rw [hQ]
  by_cases hj : j = i
  · simp [hj, hp]
  · rw [Function.update_of_ne hj]
    simpa [hj] using h j

theorem Stocks.tail {x : σ} {i : ι} {is : List ι} (h : Stocks place x (· ∈ i :: is)) (hi : i ∉ is)
    {p : Spot σ τ} (hp : p ≠ .shelf x) : Stocks (Function.update place i p) x (· ∈ is) := by
  refine h.remove (fun j => ?_) hp
  by_cases hj : j = i
  · simp [hj, hi]
  · simp [hj]

variable [DecidableEq τ]

theorem Tracks.take (h : Tracks place carried) {t : τ} {i : ι} {x : σ} (ht : carried t = none)
    (hi : place i = .shelf x) :
    Tracks (Function.update place i (.hand t)) (Function.update carried t (some i)) := by
  intro u j
  by_cases hu : u = t
  · subst hu
    by_cases hj : j = i
    · simp [hj]
    · have hno := (h u j).not.mp (by simp [ht])
      simp [Function.update_of_ne hj, hno, Ne.symm hj]
  · by_cases hj : j = i
    · have hno := (h u i).not.mpr (by simp [hi])
      simp [hj, Function.update_of_ne hu, hno, Ne.symm hu]
    · rw [Function.update_of_ne hu, Function.update_of_ne hj]
      exact h u j

theorem Tracks.drop (h : Tracks place carried) {t : τ} {i : ι} (ht : carried t = some i) (x : σ) :
    Tracks (Function.update place i (.shelf x)) (Function.update carried t none) := by
  intro u j
  by_cases hu : u = t
  · subst hu
    by_cases hj : j = i
    · simp [hj]
    · have hno := (h u j).not.mp (by simpa [ht] using Ne.symm hj)
      simp [Function.update_of_ne hj, hno]
  · by_cases hj : j = i
    · have hno : carried u ≠ some i := fun hc => hu (h.unique hc ht)
      simp [hj, Function.update_of_ne hu, hno]
    · rw [Function.update_of_ne hu, Function.update_of_ne hj]
      exact h u j

/-- Items told apart by their maker and a number. A maker carries the item it has not put out
yet, and `out` are those put out. -/
structure Made (carried : τ → Option (τ × Nat)) (count : τ → Nat) (out : List (τ × Nat)) : Prop where
  own : ∀ t i, carried t = some i → i.1 = t ∧ i.2 < count t ∧ i ∉ out
  made : ∀ i ∈ out, i.2 < count i.1
  once : out.Nodup

section Made

variable {carried carried' : τ → Option (τ × Nat)} {count : τ → Nat} {out : List (τ × Nat)}

omit [DecidableEq τ] in
theorem made_start (h : ∀ t, carried t = none) : Made carried count [] :=
  ⟨fun t i hi => by simp [h t] at hi, fun i hi => by simp at hi, List.nodup_nil⟩

omit [DecidableEq τ] in
theorem Made.keep (h : Made carried count out) (hc : ∀ u, carried' u = carried u ∨ carried' u = none) :
    Made carried' count out := by
  refine ⟨fun u i hi => ?_, h.made, h.once⟩
  rcases hc u with hu | hu
  · exact h.own u i (hu ▸ hi)
  · simp [hu] at hi

theorem Made.make (h : Made carried count out) {t : τ} (others : ∀ u ≠ t, carried' u = carried u)
    (ht : carried' t = some (t, count t)) :
    Made carried' (Function.update count t (count t + 1)) out := by
  refine ⟨fun u i hi => ?_, fun i hi => ?_, h.once⟩
  · by_cases hu : u = t
    · subst hu
      obtain rfl := Option.some.inj (ht.symm.trans hi)
      refine ⟨rfl, by simp, fun hm => ?_⟩
      exact absurd (h.made _ hm) (Nat.lt_irrefl _)
    · rw [Function.update_of_ne hu]
      exact h.own u i (others u hu ▸ hi)
  · have hlt := h.made i hi
    by_cases hu : i.1 = t
    · rw [hu, Function.update_self]
      rw [hu] at hlt
      omega
    · rw [Function.update_of_ne hu]
      exact hlt

omit [DecidableEq τ] in
theorem Made.put (h : Made carried count out) {t : τ} {i : τ × Nat} (hi : carried t = some i)
    (others : ∀ u ≠ t, carried' u = carried u) (ht : carried' t = none) :
    Made carried' count (out ++ [i]) := by
  obtain ⟨hmaker, hlt, hnew⟩ := h.own t i hi
  refine ⟨fun u j hj => ?_, fun j hj => ?_, ?_⟩
  · have hu : u ≠ t := by
      rintro rfl
      simp [ht] at hj
    obtain ⟨hmaker', hlt', hnew'⟩ := h.own u j (others u hu ▸ hj)
    refine ⟨hmaker', hlt', fun hm => ?_⟩
    rcases List.mem_append.mp hm with hm | hm
    · exact hnew' hm
    · obtain rfl := List.mem_singleton.mp hm
      exact hu (hmaker'.symm.trans hmaker)
  · rcases List.mem_append.mp hj with hj | hj
    · exact h.made j hj
    · obtain rfl := List.mem_singleton.mp hj
      rw [hmaker]
      exact hlt
  · rw [List.nodup_append]
    refine ⟨h.once, List.nodup_singleton i, fun j hj k hk => ?_⟩
    obtain rfl := List.mem_singleton.mp hk
    rintro rfl
    exact hnew hj

end Made

end TcpAndParallel
