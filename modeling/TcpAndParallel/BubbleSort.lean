import Mathlib.Logic.Equiv.Basic
import Mathlib.Order.Fin.Basic

namespace TcpAndParallel

namespace BubbleSort

variable {n : Nat} {α κ : Type*} [LinearOrder κ] (key : α → κ)

def exchange (f : Fin n → α) (m : Nat) : Fin n → α :=
  if h : m + 1 < n then
    if key (f ⟨m, by omega⟩) < key (f ⟨m + 1, h⟩) then
      f ∘ Equiv.swap ⟨m, by omega⟩ ⟨m + 1, h⟩
    else f
  else f

/-- The exchanges from the front up to the place `m`. -/
def pass (m : Nat) (f : Fin n → α) : Fin n → α := (List.range m).foldl (exchange key) f

def sorted (f : Fin n → α) : Fin n → α := (List.range n).foldl (fun f _ => pass key (n - 1) f) f

/-- From the place `k` on, no entry has a larger key than one in front of it. -/
def Settled (k : Nat) (f : Fin n → α) : Prop := ∀ i j : Fin n, i ≤ j → k ≤ j.val → key (f j) ≤ key (f i)

theorem pass_succ (m : Nat) (f : Fin n → α) : pass key (m + 1) f = exchange key (pass key m f) m := by
  unfold pass
  rw [List.range_succ, List.foldl_append]
  rfl

theorem exchange_perm (f : Fin n → α) (m : Nat) :
    ∃ e : Equiv.Perm (Fin n), exchange key f m = f ∘ e ∧ ∀ i : Fin n, m + 1 < i.val → e i = i := by
  unfold exchange
  split
  next h =>
    split
    next =>
      refine ⟨_, rfl, fun i hi => Equiv.swap_apply_of_ne_of_ne ?_ ?_⟩
      · rw [ne_eq, Fin.ext_iff]
        show ¬i.val = m
        omega
      · rw [ne_eq, Fin.ext_iff]
        show ¬i.val = m + 1
        omega
    next => exact ⟨Equiv.refl _, rfl, fun i _ => rfl⟩
  next => exact ⟨Equiv.refl _, rfl, fun i _ => rfl⟩

theorem pass_perm (m : Nat) (f : Fin n → α) :
    ∃ e : Equiv.Perm (Fin n), pass key m f = f ∘ e ∧ ∀ i : Fin n, m < i.val → e i = i := by
  induction m with
  | zero => exact ⟨Equiv.refl _, rfl, fun i _ => rfl⟩
  | succ m ih =>
    obtain ⟨e, he, hfix⟩ := ih
    obtain ⟨e', he', hfix'⟩ := exchange_perm key (pass key m f) m
    refine ⟨e'.trans e, ?_, fun i hi => ?_⟩
    · rw [pass_succ, he', he]
      rfl
    · rw [Equiv.trans_apply, hfix' i hi, hfix i (by omega)]

theorem le_of_fixes {e : Equiv.Perm (Fin n)} {m : Nat} (fixes : ∀ i : Fin n, m < i.val → e i = i)
    {i : Fin n} (hi : i.val ≤ m) : (e i).val ≤ m := by
  by_contra hlt
  have he := e.injective (fixes (e i) (by omega))
  omega

def LastLeast (key : α → κ) (m : Nat) (f : Fin n → α) (i : Fin n) : Prop :=
  i.val ≤ m ∧ (∀ j : Fin n, j.val ≤ m → key (f i) ≤ key (f j)) ∧
    ∀ j : Fin n, i < j → j.val ≤ m → key (f i) < key (f j)

theorem pass_last (f : Fin n → α) {m : Nat} (hm : m < n) :
    ∃ i, LastLeast key m f i ∧ pass key m f ⟨m, hm⟩ = f i := by
  induction m with
  | zero =>
    refine ⟨⟨0, hm⟩, ⟨le_rfl, fun j hj => ?_, fun j hi hj => ?_⟩, rfl⟩
    · rw [show j = ⟨0, hm⟩ from Fin.ext (Nat.le_zero.mp hj)]
    · have hlt : 0 < j.val := hi
      omega
  | succ m ih =>
    obtain ⟨i, ⟨him, least, last⟩, hi⟩ := ih (by omega)
    obtain ⟨e, he, fixes⟩ := pass_perm key m f
    have hnext : pass key m f ⟨m + 1, hm⟩ = f ⟨m + 1, hm⟩ := by
      rw [he, Function.comp_apply, fixes ⟨m + 1, hm⟩ (by simp)]
    have hcases : ∀ j : Fin n, j.val ≤ m + 1 → j.val ≤ m ∨ j = ⟨m + 1, hm⟩ := by
      intro j hj
      rcases Nat.lt_or_ge m j.val with hlt | hle
      · exact .inr (Fin.ext (show j.val = m + 1 by omega))
      · exact .inl hle
    rw [pass_succ]
    unfold exchange
    rw [dif_pos hm, hi, hnext]
    split
    next hlt =>
      -- the least entry so far is moved one place on
      refine ⟨i, ⟨by omega, fun j hj => ?_, fun j hij hj => ?_⟩, ?_⟩
      · rcases hcases j hj with hj | rfl
        · exact least j hj
        · exact hlt.le
      · rcases hcases j hj with hj | rfl
        · exact last j hij hj
        · exact hlt
      · rw [Function.comp_apply, Equiv.swap_apply_right, hi]
    next hge =>
      rw [not_lt] at hge
      refine ⟨⟨m + 1, hm⟩, ⟨le_rfl, fun j hj => ?_, fun j hij hj => ?_⟩, hnext⟩
      · rcases hcases j hj with hj | rfl
        · exact hge.trans (least j hj)
        · exact le_rfl
      · have hlt : m + 1 < j.val := hij
        omega

variable {key}

theorem pass_least (f : Fin n → α) {m : Nat} (hm : m < n) {j : Fin n} (hj : j.val ≤ m) :
    key (pass key m f ⟨m, hm⟩) ≤ key (pass key m f j) := by
  obtain ⟨i, ⟨-, least, -⟩, hi⟩ := pass_last key f hm
  obtain ⟨e, he, fixes⟩ := pass_perm key m f
  rw [hi, he]
  exact least (e j) (le_of_fixes fixes hj)

theorem Settled.mono {k l : Nat} {f : Fin n → α} (h : Settled key k f) (hkl : k ≤ l) : Settled key l f :=
  fun i j hij hj => h i j hij (by omega)

/-- Behind the unsettled entries a pass finds nothing to exchange. -/
theorem Settled.pass_eq {k : Nat} {f : Fin n → α} (h : Settled key (k + 1) f) (d : Nat) :
    pass key (k + d) f = pass key k f := by
  induction d with
  | zero => rfl
  | succ d ih =>
    rw [← Nat.add_assoc, pass_succ, ih]
    unfold exchange
    split
    next hlt =>
      obtain ⟨e, he, fixes⟩ := pass_perm key k f
      have hnext : pass key k f ⟨k + d + 1, hlt⟩ = f ⟨k + d + 1, hlt⟩ := by
        rw [he, Function.comp_apply, fixes ⟨k + d + 1, hlt⟩ (show k < k + d + 1 by omega)]
      have hbound : (e ⟨k + d, by omega⟩).val ≤ k + d :=
        le_of_fixes (fun i hi => fixes i (by omega)) le_rfl
      refine if_neg (not_lt.mpr ?_)
      rw [hnext, he]
      exact h _ _ (by rw [Fin.le_def]; show _ ≤ k + d + 1; omega) (show k + 1 ≤ k + d + 1 by omega)
    next => rfl

theorem Settled.pass {k : Nat} {f : Fin n → α} (h : Settled key (k + 1) f) :
    Settled key k (pass key (n - 1) f) := by
  intro i j hij hj
  have hjn := j.isLt
  obtain ⟨d, hd⟩ := Nat.exists_eq_add_of_le (show k ≤ n - 1 by omega)
  rw [hd, h.pass_eq d]
  obtain ⟨e, he, fixes⟩ := pass_perm key k f
  rcases Nat.lt_or_ge k j.val with hlt | hge
  · rw [he, Function.comp_apply, Function.comp_apply, fixes j hlt]
    refine h _ _ ?_ hlt
    rcases Nat.lt_or_ge k i.val with hi | hi
    · rw [fixes i hi]
      exact hij
    · have := le_of_fixes fixes hi
      rw [Fin.le_def]
      omega
  · obtain rfl : k = j.val := by omega
    exact pass_least f j.isLt hij

theorem pass_keeps_last {f : Fin (n + 1) → α} (h : Settled key n f) :
    pass key n f (Fin.last n) = f (Fin.last n) := by
  obtain ⟨i, ⟨-, -, last⟩, hi⟩ := pass_last key f (Nat.lt_succ_self n)
  rcases Fin.eq_or_lt_of_le (Fin.le_last i) with rfl | hlt
  · exact hi
  · exact absurd (h i (Fin.last n) (Fin.le_last i) le_rfl) (not_le.mpr (last _ hlt le_rfl))

variable (key)

theorem sorted_settled (f : Fin n → α) (p : Nat) :
    Settled key (n - p) ((List.range p).foldl (fun f _ => BubbleSort.pass key (n - 1) f) f) := by
  induction p with
  | zero =>
    intro i j _ hj
    have := j.isLt
    omega
  | succ p ih =>
    rw [List.range_succ, List.foldl_append]
    refine Settled.pass (ih.mono ?_)
    omega

theorem sorted_antitone (f : Fin n → α) : Antitone fun i => key (sorted key f i) := by
  have h := sorted_settled key f n
  rw [Nat.sub_self] at h
  exact fun i j hij => h i j hij (Nat.zero_le _)

theorem sorted_perm (f : Fin n → α) : ∃ e : Equiv.Perm (Fin n), sorted key f = f ∘ e := by
  have main : ∀ p, ∃ e : Equiv.Perm (Fin n),
      (List.range p).foldl (fun f _ => pass key (n - 1) f) f = f ∘ e := by
    intro p
    induction p with
    | zero => exact ⟨Equiv.refl _, rfl⟩
    | succ p ih =>
      obtain ⟨e, he⟩ := ih
      obtain ⟨e', he', -⟩ := pass_perm key (n - 1) (f ∘ e)
      refine ⟨e'.trans e, ?_⟩
      rw [List.range_succ, List.foldl_append, he]
      exact he'
  exact main n

theorem sorted_last (f : Fin (n + 1) → α) :
    ∃ i, LastLeast key n f i ∧ sorted key f (Fin.last n) = f i := by
  obtain ⟨i, hi, he⟩ := pass_last key f (Nat.lt_succ_self n)
  refine ⟨i, hi, ?_⟩
  have main : ∀ p, (List.range (p + 1)).foldl (fun f _ => pass key n f) f (Fin.last n) = f i := by
    intro p
    induction p with
    | zero => exact he
    | succ p ih =>
      have settled := (sorted_settled key f (p + 1)).mono (show n + 1 - (p + 1) ≤ n by omega)
      rw [List.range_succ, List.foldl_append]
      exact (pass_keeps_last settled).trans ih
  exact main n

end BubbleSort

end TcpAndParallel
