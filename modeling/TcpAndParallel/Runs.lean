import Mathlib.Data.List.Basic
import Mathlib.Logic.Function.Iterate

namespace TcpAndParallel

variable {σ ι ε : Type*}

/-- Every call of the run returns, and `P` holds in every state it passes through. -/
def Upholds (call : σ → ι → Except ε σ) (P : σ → Prop) : σ → List ι → Prop
  | s, [] => P s
  | s, i :: is => P s ∧ ∃ t, call s i = .ok t ∧ Upholds call P t is

/-- Every call of the run meets the condition `C` in the state it is made in. -/
def Meets (call : σ → ι → Except ε σ) (C : σ → ι → Prop) : σ → List ι → Prop
  | _, [] => True
  | s, i :: is => C s i ∧ ∀ t, call s i = .ok t → Meets call C t is

section Decide

variable {α : Type*}

instance decidableEqError [DecidableEq ε] (x : Except ε α) (e : ε) : Decidable (x = .error e) :=
  match x with
  | .ok _ => isFalse (by simp)
  | .error f => decidable_of_iff (f = e) (by simp)

instance decidableForallOk (x : Except ε α) (P : α → Prop) [DecidablePred P] :
    Decidable (∀ a, x = .ok a → P a) :=
  match x with
  | .ok a => decidable_of_iff (P a) (by simp)
  | .error _ => isTrue (by simp)

instance Meets.decide (call : σ → ι → Except ε σ) (C : σ → ι → Prop) [∀ s i, Decidable (C s i)] :
    ∀ s is, Decidable (Meets call C s is)
  | _, [] => inferInstanceAs (Decidable True)
  | s, i :: is =>
    have := fun t => Meets.decide call C t is
    inferInstanceAs (Decidable (C s i ∧ ∀ t, call s i = .ok t → Meets call C t is))

end Decide

theorem Upholds.head {call : σ → ι → Except ε σ} {P : σ → Prop} {s : σ} {is : List ι}
    (h : Upholds call P s is) : P s := by
  cases is with
  | nil => exact h
  | cons i is => exact h.1

theorem Upholds.last {call : σ → ι → Except ε σ} {P : σ → Prop} {s : σ} {is : List ι}
    (h : Upholds call P s is) : ∃ t, is.foldlM call s = .ok t ∧ P t := by
  induction is generalizing s with
  | nil => exact ⟨s, rfl, h⟩
  | cons i is ih =>
    obtain ⟨-, t, ht, hr⟩ := h
    obtain ⟨u, hu, hp⟩ := ih hr
    refine ⟨u, ?_, hp⟩
    rw [List.foldlM_cons, ht]
    exact hu

theorem Meets.and {call : σ → ι → Except ε σ} {C D : σ → ι → Prop} {s : σ} {is : List ι}
    (hc : Meets call C s is) (hd : Meets call D s is) :
    Meets call (fun s i => C s i ∧ D s i) s is := by
  induction is generalizing s with
  | nil => trivial
  | cons i is ih => exact ⟨⟨hc.1, hd.1⟩, fun t ht => ih (hc.2 t ht) (hd.2 t ht)⟩

theorem Meets.of_forall {call : σ → ι → Except ε σ} {C : σ → ι → Prop} (h : ∀ s i, C s i) (s : σ)
    (is : List ι) : Meets call C s is := by
  induction is generalizing s with
  | nil => trivial
  | cons i is ih => exact ⟨h s i, fun t _ => ih t⟩

theorem meets_iff_meets {call : σ → ι → Except ε σ} {I : σ → Prop} {C D : σ → ι → Prop}
    (keeps : ∀ s i t, I s → call s i = .ok t → I t) (same : ∀ s i, I s → (C s i ↔ D s i))
    {s : σ} {is : List ι} (hs : I s) : Meets call C s is ↔ Meets call D s is := by
  induction is generalizing s with
  | nil => exact Iff.rfl
  | cons i is ih =>
    exact and_congr (same s i hs) (forall₂_congr fun t ht => ih (keeps s i t hs ht))

/-- The rule for whole runs: an invariant that calls under the condition keep. -/
theorem upholds_of_meets {call : σ → ι → Except ε σ} {I P : σ → Prop} {C : σ → ι → Prop}
    (holds : ∀ s, I s → P s)
    (keeps : ∀ s i, I s → C s i → ∃ t, call s i = .ok t ∧ I t)
    {s : σ} {is : List ι} (hs : I s) (hc : Meets call C s is) : Upholds call P s is := by
  induction is generalizing s with
  | nil => exact holds s hs
  | cons i is ih =>
    obtain ⟨t, ht, hi⟩ := keeps s i hs hc.1
    exact ⟨holds s hs, t, ht, ih hi (hc.2 t ht)⟩

/-- The converse rule: where a call outside the condition either does not return or
returns in a state without `P`, a run that upholds `P` made no such call. -/
theorem meets_of_upholds {call : σ → ι → Except ε σ} {I P : σ → Prop} {L C : σ → ι → Prop}
    (keeps : ∀ s i, I s → L s i → C s i → ∃ t, call s i = .ok t ∧ I t)
    (only : ∀ s i t, I s → L s i → call s i = .ok t → P t → C s i)
    {s : σ} {is : List ι} (hs : I s) (hl : Meets call L s is) (hp : Upholds call P s is) :
    Meets call C s is := by
  induction is generalizing s with
  | nil => trivial
  | cons i is ih =>
    obtain ⟨-, t, ht, hr⟩ := hp
    have hc := only s i t hs hl.1 ht hr.head
    refine ⟨hc, fun u hu => ?_⟩
    have he : t = u := by simpa [ht] using hu
    subst he
    obtain ⟨u, hu', hi⟩ := keeps s i hs hl.1 hc
    have he : u = t := by simpa [hu'] using ht
    subst he
    exact ih hi (hl.2 u hu') hr

/-- Every call of the run returns, and `R` relates the state before it with the one after it. -/
def Follows (call : σ → ι → Except ε σ) (R : σ → ι → σ → Prop) : σ → List ι → Prop
  | _, [] => True
  | s, i :: is => ∃ t, call s i = .ok t ∧ R s i t ∧ Follows call R t is

/-- The rule for refinements: an invariant that calls under the condition keep while they do what
`R` says. -/
theorem follows_of_meets {call : σ → ι → Except ε σ} {I : σ → Prop} {C : σ → ι → Prop}
    {R : σ → ι → σ → Prop}
    (keeps : ∀ s i, I s → C s i → ∃ t, call s i = .ok t ∧ R s i t ∧ I t)
    {s : σ} {is : List ι} (hs : I s) (hc : Meets call C s is) : Follows call R s is := by
  induction is generalizing s with
  | nil => trivial
  | cons i is ih =>
    obtain ⟨t, ht, hr, hi⟩ := keeps s i hs hc.1
    exact ⟨t, ht, hr, ih hi (hc.2 t ht)⟩

theorem Follows.append {call : σ → ι → Except ε σ} {R : σ → ι → σ → Prop} {s t : σ} {is js : List ι}
    (h : Follows call R s (is ++ js)) (ht : is.foldlM call s = .ok t) : Follows call R t js := by
  induction is generalizing s with
  | nil => exact Except.ok.inj ht ▸ h
  | cons i is ih =>
    obtain ⟨u, hu, -, hrest⟩ := h
    rw [List.foldlM_cons, hu] at ht
    exact ih hrest ht

theorem Follows.last {call : σ → ι → Except ε σ} {R : σ → ι → σ → Prop} {Q : σ → σ → Prop} {s t : σ}
    {is : List ι} (refl : ∀ s, Q s s) (trans : ∀ s t u, Q s t → Q t u → Q s u)
    (imp : ∀ s i t, R s i t → Q s t) (h : Follows call R s is) (ht : is.foldlM call s = .ok t) :
    Q s t := by
  induction is generalizing s with
  | nil => exact Except.ok.inj ht ▸ refl s
  | cons i is ih =>
    obtain ⟨u, hu, hr, hrest⟩ := h
    rw [List.foldlM_cons, hu] at ht
    exact trans _ _ _ (imp _ _ _ hr) (ih hrest ht)

/-- The rule for counted loops: an invariant of the counter that each pass carries on. -/
theorem exists_foldlM_range {body : Nat → σ → Option σ} {lo hi : Nat} {s : σ}
    (P : Nat → σ → Prop) (hle : lo ≤ hi) (start : P lo s)
    (pass : ∀ i s, lo ≤ i → i < hi → P i s → ∃ t, body i s = some t ∧ P (i + 1) t) :
    ∃ t, (List.range' lo (hi - lo)).foldlM (fun s i => body i s) s = some t ∧ P hi t := by
  obtain ⟨k, rfl⟩ := Nat.exists_eq_add_of_le hle
  rw [Nat.add_sub_cancel_left]
  clear hle
  induction k with
  | zero => exact ⟨s, rfl, start⟩
  | succ k ih =>
    obtain ⟨t, ht, hp⟩ := ih fun i s h1 h2 => pass i s h1 (by omega)
    obtain ⟨u, hu, hq⟩ := pass (lo + k) t (by omega) (by omega) hp
    refine ⟨u, ?_, hq⟩
    rw [List.range'_1_concat, List.foldlM_append, ht]
    simp [hu]

theorem exists_foldlM_zero {n : Nat} {s : σ} (body : Nat → σ → Option σ) (P : Nat → σ → Prop)
    (start : P 0 s) (pass : ∀ (i : Fin n) s, P i s → ∃ t, body i s = some t ∧ P (i + 1) t) :
    ∃ t, (List.range' 0 n).foldlM (fun s i => body i s) s = some t ∧ P n t :=
  exists_foldlM_range P (Nat.zero_le n) start fun i s _ hi h => pass ⟨i, hi⟩ s h

theorem foldlM_keeps {f : σ → ι → Option σ} {P : σ → Prop} {s t : σ} {is : List ι}
    (keeps : ∀ s i t, P s → f s i = some t → P t) (hs : P s) (h : is.foldlM f s = some t) : P t := by
  induction is generalizing s with
  | nil => exact Option.some.inj h ▸ hs
  | cons i is ih =>
    obtain ⟨u, hu, h⟩ := Option.bind_eq_some_iff.mp h
    exact ih (keeps s i u hs hu) h

/-- Where each pass uses something up, there are no more passes than that. -/
theorem length_add_le_of_foldlM {f : σ → ι → Option σ} {left : σ → Nat} {s t : σ} {is : List ι}
    (uses : ∀ s i t, f s i = some t → left t < left s) (h : is.foldlM f s = some t) :
    is.length + left t ≤ left s := by
  induction is generalizing s with
  | nil =>
    obtain rfl := Option.some.inj h
    simp
  | cons i is ih =>
    obtain ⟨u, hu, h⟩ := Option.bind_eq_some_iff.mp h
    have hi := uses s i u hu
    have his := ih h
    rw [List.length_cons]
    omega

/-- Where, until it is done, something can be done that uses something up, it gets done. -/
theorem exists_foldlM_of_progress {f : σ → ι → Option σ} {left : σ → Nat} {I done : σ → Prop}
    (uses : ∀ s i t, f s i = some t → left t < left s) (keeps : ∀ s i t, I s → f s i = some t → I t)
    (progress : ∀ s, I s → ¬done s → ∃ i t, f s i = some t) {s : σ} (hs : I s) :
    ∃ is t, List.foldlM f s is = some t ∧ done t := by
  induction hk : left s using Nat.strongRecOn generalizing s with
  | ind k ih =>
    by_cases hd : done s
    · exact ⟨[], s, rfl, hd⟩
    · obtain ⟨i, t, ht⟩ := progress s hs hd
      obtain ⟨is, u, hu, hd⟩ := ih (left t) (hk ▸ uses s i t ht) (keeps s i t hs ht) rfl
      refine ⟨i :: is, u, ?_, hd⟩
      rw [List.foldlM_cons, ht]
      exact hu

theorem foldlM_some_of_mem {f : σ → ι → Option σ} {s t : σ} {is : List ι} {i : ι}
    (h : is.foldlM f s = some t) (hi : i ∈ is) : ∃ u v, f u i = some v := by
  induction is generalizing s with
  | nil => exact absurd hi List.not_mem_nil
  | cons j is ih =>
    obtain ⟨u, hu, h⟩ := Option.bind_eq_some_iff.mp h
    rcases List.mem_cons.mp hi with rfl | hi
    · exact ⟨s, u, hu⟩
    · exact ih h hi

theorem foldl_range' {body : σ → Nat → σ} {lo hi : Nat} {s : σ} (P : Nat → σ → Prop)
    (hle : lo ≤ hi) (start : P lo s)
    (pass : ∀ i t, lo ≤ i → i < hi → P i t → P (i + 1) (body t i)) :
    P hi ((List.range' lo (hi - lo)).foldl body s) := by
  obtain ⟨k, rfl⟩ := Nat.exists_eq_add_of_le hle
  rw [Nat.add_sub_cancel_left]
  clear hle
  induction k with
  | zero => exact start
  | succ k ih =>
    rw [List.range'_1_concat, List.foldl_append]
    exact pass (lo + k) _ (by omega) (by omega) (ih fun i t h1 h2 => pass i t h1 (by omega))

theorem foldl_range {n : Nat} {s : σ} (body : σ → Nat → σ) (P : Nat → σ → Prop) (start : P 0 s)
    (pass : ∀ i t, i < n → P i t → P (i + 1) (body t i)) : P n ((List.range n).foldl body s) := by
  rw [List.range_eq_range']
  exact foldl_range' P (Nat.zero_le n) start fun i t _ hi => pass i t hi

/-- `while (test)`, for so many rounds at most. -/
def whileLoop (test : σ → Bool) (body : σ → σ) : Nat → σ → Option σ
  | 0, s => if test s then none else some s
  | fuel + 1, s => if test s then whileLoop test body fuel (body s) else some s

theorem exists_whileLoop {test : σ → Bool} {body : σ → σ} {s : σ} (rounds : Nat)
    (stops : test (body^[rounds] s) = false) : ∃ fuel t, whileLoop test body fuel s = some t := by
  induction rounds generalizing s with
  | zero =>
    have hs : test s = false := stops
    exact ⟨0, s, by simp [whileLoop, hs]⟩
  | succ rounds ih =>
    obtain ⟨fuel, t, ht⟩ := ih stops
    by_cases hs : test s = true
    · exact ⟨fuel + 1, t, by rw [whileLoop, if_pos hs, ht]⟩
    · exact ⟨0, s, by simp [whileLoop, hs]⟩

theorem of_whileLoop {test : σ → Bool} {body : σ → σ} {fuel : Nat} {s t : σ}
    (h : whileLoop test body fuel s = some t) : ∃ rounds, t = body^[rounds] s ∧ test t = false := by
  induction fuel generalizing s with
  | zero =>
    by_cases hs : test s = true
    · rw [whileLoop, if_pos hs] at h
      cases h
    · rw [whileLoop, if_neg hs] at h
      obtain rfl := Option.some.inj h
      exact ⟨0, rfl, by simpa using hs⟩
  | succ fuel ih =>
    by_cases hs : test s = true
    · rw [whileLoop, if_pos hs] at h
      obtain ⟨rounds, ht, hfalse⟩ := ih h
      exact ⟨rounds + 1, ht, hfalse⟩
    · rw [whileLoop, if_neg hs] at h
      obtain rfl := Option.some.inj h
      exact ⟨0, rfl, by simpa using hs⟩

/-- The states that steps under the condition `C` lead to. -/
inductive Reaches (step : σ → ι → Option σ) (C : σ → ι → Prop) (s₀ : σ) : σ → Prop
  | start : Reaches step C s₀ s₀
  | next {s t : σ} {i : ι} : Reaches step C s₀ s → C s i → step s i = some t → Reaches step C s₀ t

theorem Reaches.strengthen {step : σ → ι → Option σ} {C D : σ → ι → Prop} {s₀ s : σ}
    (h : Reaches step C s₀ s) (imp : ∀ s i, Reaches step C s₀ s → C s i → D s i) :
    Reaches step D s₀ s := by
  induction h with
  | start => exact .start
  | next hr hc ht ih => exact .next ih (imp _ _ hr hc) ht

theorem Reaches.mono {step : σ → ι → Option σ} {C D : σ → ι → Prop} {s₀ s : σ}
    (h : Reaches step C s₀ s) (imp : ∀ s i, C s i → D s i) : Reaches step D s₀ s := by
  induction h with
  | start => exact .start
  | next _ hc ht ih => exact .next ih (imp _ _ hc) ht

/-- An invariant of the first state that steps under the condition keep holds in every
state reached. -/
theorem Reaches.invariant {step : σ → ι → Option σ} {C : σ → ι → Prop} {s₀ s : σ}
    {I : σ → Prop} (h : Reaches step C s₀ s) (first : I s₀)
    (keeps : ∀ s i t, I s → C s i → step s i = some t → I t) : I s := by
  induction h with
  | start => exact first
  | next _ hc ht ih => exact keeps _ _ _ ih hc ht

/-- Take the listed steps, each only where the condition allows it. -/
def takeSteps (step : σ → ι → Option σ) (C : σ → ι → Prop) [∀ s i, Decidable (C s i)] (s : σ) :
    List ι → Option σ
  | [] => some s
  | i :: is =>
    if C s i then
      match step s i with
      | some t => takeSteps step C t is
      | none => none
    else none

theorem reaches_of_takeSteps {step : σ → ι → Option σ} {C : σ → ι → Prop}
    [∀ s i, Decidable (C s i)] {s₀ s t : σ} {is : List ι} (hs : Reaches step C s₀ s)
    (h : takeSteps step C s is = some t) : Reaches step C s₀ t := by
  induction is generalizing s with
  | nil => exact Option.some.inj h ▸ hs
  | cons i is ih =>
    simp only [takeSteps] at h
    split at h
    next hc =>
      split at h
      next u hu => exact ih (hs.next hc hu) h
      next => simp at h
    next => simp at h

theorem exists_reaches {step : σ → ι → Option σ} {C : σ → ι → Prop}
    [∀ s i, Decidable (C s i)] {s₀ : σ} {P : σ → Prop} [DecidablePred P] (is : List ι)
    (h : (takeSteps step C s₀ is).any (fun s => decide (P s)) = true) :
    ∃ s, Reaches step C s₀ s ∧ P s := by
  obtain ⟨s, hs, hp⟩ := (Option.any_eq_true _ _).mp h
  exact ⟨s, reaches_of_takeSteps .start hs, of_decide_eq_true hp⟩

end TcpAndParallel
