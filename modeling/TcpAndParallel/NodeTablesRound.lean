import Mathlib.Algebra.Ring.Prod
import TcpAndParallel.NodeTablesDense

namespace TcpAndParallel

namespace NodeTables

variable {K : Type*} {n : Nat}

section Copies

variable {m : Tables K} {t source : TableId} {M : Matrix (Fin n) (Fin n) (K × K)}

theorem foldl_tableAppend {c : Nat} {nodes : List (Node K)} (m : Tables K)
    (cols : ∀ node ∈ nodes, node.col = c) :
    nodes.foldl (tableAppend t) m = setColumn m t c (m t c ++ nodes) := by
  induction nodes generalizing m with
  | nil => simp [setColumn]
  | cons node nodes ih =>
    have hnode := cols node (by simp)
    have hrest : ∀ x ∈ nodes, x.col = c := fun x hx => cols x (by simp [hx])
    rw [List.foldl_cons, ih _ hrest]
    unfold tableAppend
    rw [hnode]
    simp [setColumn]

theorem tableInit_other {t' : TableId} (ht : t' ≠ t) : tableInit t m t' = m t' := by
  simp [tableInit, ht]

theorem Filled.of_init {m' : Tables K} (h : Filled (tableInit t m) t M m') : Filled m t M m' :=
  ⟨h.holds, fun t' ht => (h.frame t' ht).trans (tableInit_other ht)⟩

theorem copyTable_filled (hne : source ≠ t) (held : Holds m source M) :
    ∃ m', copyTable n t source (tableInit t m) = some m' ∧ Filled m t M m' := by
  have hloop : ∃ m', copyTable n t source (tableInit t m) = some m' ∧
      Filled (tableInit t m) t M m' := by
    unfold copyTable
    apply forColumns_filled (Nat.zero_le n) le_rfl
    · intro c hc
      have hlt := c.isLt
      omega
    · intro c m' _ _ hother hsame
      have hsource : m' source c = columnNodes c fun k => M k c := by
        rw [hother source hne, tableInit_other hne, held c]
      have hempty : m' t c = [] := by
        rw [hsame]
        simp [tableInit]
      rw [hsource, foldl_tableAppend (c := c.val), hempty, List.nil_append]
      intro node hnode
      obtain ⟨k, rfl⟩ := List.mem_ofFn.mp hnode
      rfl
  obtain ⟨m', hm, hf⟩ := hloop
  exact ⟨m', hm, hf.of_init⟩

/-- The first `i` rows of a table of zeros are made, and no other table is written. -/
structure ZeroRows [Zero K] (n : Nat) (m : Tables K) (t : TableId) (i : Nat) (m' : Tables K) :
    Prop where
  rows : ∀ c, c < n → m' t c = (List.range i).map fun k => ⟨k, c, 0, 0⟩
  frame : ∀ t', t' ≠ t → m' t' = m t'

theorem ZeroRows.next [Zero K] {i : Nat} {m₁ : Tables K} (h : ZeroRows n m t i m₁) :
    ∃ m', forColumns 0 n (fun j m => some (tableAppend t m ⟨i, j, 0, 0⟩)) m₁ = some m' ∧
      ZeroRows n m t (i + 1) m' := by
  refine ⟨_, forColumns_columns (t := t) (fun c => m₁ t c ++ [⟨i, c, 0, 0⟩]) (Nat.zero_le n) ?_,
    fun c hc => ?_, fun t' ht => ?_⟩
  · intro c m' _ _ _ hsame
    rw [← hsame c le_rfl]
    rfl
  · rw [List.range_succ, List.map_append, ← h.rows c hc]
    simp [setColumns, hc]
  · rw [← h.frame t' ht]
    funext c
    simp [setColumns, ht]

theorem zeroTable_filled [Zero K] :
    ∃ m', zeroTable n t (tableInit t m) = some m' ∧
      Filled m t (fun _ _ : Fin n => (0 : K × K)) m' := by
  have hloop : ∃ m', zeroTable n t (tableInit t m) = some m' ∧ ZeroRows n m t n m' := by
    apply exists_foldlM_range (ZeroRows n m t) (Nat.zero_le n)
    · exact ⟨fun c _ => by simp [tableInit], fun t' ht => tableInit_other ht⟩
    · exact fun i m' _ _ h => h.next
  obtain ⟨m', hm, h⟩ := hloop
  refine ⟨m', hm, fun c => ?_, h.frame⟩
  rw [h.rows c c.isLt]
  apply List.ext_getElem
  · simp
  · intro k h1 h2
    simp

theorem copyValues_eq {xs ys : List (Node K)} (h : xs.length = ys.length) :
    copyValues xs ys = List.zipWith (fun x y => { x with real := y.real, imag := y.imag }) xs ys := by
  induction xs generalizing ys with
  | nil => simp [copyValues]
  | cons x xs ih =>
    obtain ⟨y, ys, rfl⟩ := List.exists_cons_of_length_pos (by rw [← h]; simp : 0 < ys.length)
    simp only [List.length_cons, Nat.add_right_cancel_iff] at h
    simp [copyValues, ih h]

theorem writeBack_filled {N : Matrix (Fin n) (Fin n) (K × K)} (hne : source ≠ t)
    (held : Holds m source M) (shape : Holds m t N) :
    ∃ m', writeBack n t source m = some m' ∧ Filled m t M m' := by
  unfold writeBack
  apply forColumns_filled (Nat.zero_le n) le_rfl
  · intro c hc
    have hlt := c.isLt
    omega
  · intro c m' _ _ hother hsame
    rw [hother source hne, hsame, held c, shape c, copyValues_eq (by simp)]
    congr 2
    apply List.ext_getElem
    · simp
    · intro k h1 h2
      simp

end Copies

theorem Filled.dense {m m' : Tables K} {t t' : TableId} {M : Matrix (Fin n) (Fin n) (K × K)}
    (h : Filled m t M m') (held : ∃ P : Matrix (Fin n) (Fin n) (K × K), Holds m t' P) :
    ∃ P : Matrix (Fin n) (Fin n) (K × K), Holds m' t' P := by
  by_cases ht : t' = t
  · subst ht
    exact ⟨M, h.holds⟩
  · obtain ⟨P, hP⟩ := held
    exact ⟨P, h.other ht hP⟩

theorem Holds.congr {m : Tables K} {t : TableId} {M N : Matrix (Fin n) (Fin n) (K × K)}
    (held : Holds m t M) (h : ∀ k c, M k c = N k c) : Holds m t N := by
  intro c
  rw [held c]
  congr 1
  funext k
  exact h k c

section Rounds

variable [CommRing K]

def mulValue (x y : K × K) : K × K :=
  (x.1 * y.1 - x.2 * y.2, x.1 * y.2 + x.2 * y.1)

def augMulValue (x y : K × K) : K × K :=
  (x.1 * y.1 + x.2 * y.2, x.1 * y.2 + x.2 * y.1)

theorem multiplies_product : Multiplies (K := K) product mulValue :=
  fun _ _ => rfl

theorem multiplies_augProduct : Multiplies (K := K) augProduct augMulValue :=
  fun _ _ => rfl

/-- The matrix after a round that normalised the row of the pivot to `v`. -/
def nextMatrix (M : Matrix (Fin n) (Fin n) (K × K)) (r : Fin n) (v : Fin n → K × K) :
    Matrix (Fin n) (Fin n) (K × K) := fun k c =>
  if k = r then v c else if r.val ≤ c.val then M k c - mulValue (M k r) (v c) else M k c

def nextAugment (M N : Matrix (Fin n) (Fin n) (K × K)) (r : Fin n) (v : Fin n → K × K) :
    Matrix (Fin n) (Fin n) (K × K) := fun k c =>
  if k = r then v c else if c.val ≤ r.val then N k c - augMulValue (M k r) (v c) else N k c

theorem nextMatrix_eq_sub (M S : Matrix (Fin n) (Fin n) (K × K)) (r : Fin n) (v : Fin n → K × K)
    (k c : Fin n) :
    (if k = r then v c else M k c) - (if r.val ≤ c.val ∧ c.val < n then
      (if k = r then 0 else mulValue (if k = r then v r else M k r) (v c))
      else if c.val < r.val then 0 else S k c) = nextMatrix M r v k c := by
  have hlt := c.isLt
  unfold nextMatrix
  by_cases hk : k = r
  · by_cases hc : r.val ≤ c.val
    · simp [hk, hc]
    · simp [hk, hc, show c.val < r.val by omega]
  · by_cases hc : r.val ≤ c.val
    · simp [hk, hc]
    · simp [hk, hc, show c.val < r.val by omega]

/-- The subtraction leaves the columns of the augment behind the pivot as they were, where the
subtrahend is still zero. -/
theorem nextAugment_eq_sub (M N T : Matrix (Fin n) (Fin n) (K × K)) (r : Fin n)
    (v w : Fin n → K × K) (k c : Fin n) (zero : r.val ≤ c.val → T k c = 0) :
    (if k = r then w c else N k c) - (if 0 ≤ c.val ∧ c.val < r.val + 1 then
      (if k = r then 0 else augMulValue (if k = r then v r else M k r) (w c))
      else if c.val < r.val then 0 else T k c) = nextAugment M N r w k c := by
  unfold nextAugment
  by_cases hc : c.val ≤ r.val
  · by_cases hk : k = r
    · simp [hk, show c.val < r.val + 1 by omega]
    · simp [hk, hc, show c.val < r.val + 1 by omega]
  · simp [hc, show ¬c.val < r.val + 1 by omega, show ¬c.val < r.val by omega, zero (by omega)]

/-- What holds before the round `r`: the working tables hold `M` and `N`, the subtrahend of the
augment is zero in the columns not reached, and the tables given are as they were. -/
structure Ready (m₀ : Tables K) (r : Nat) (s : Locals K) (M N : Matrix (Fin n) (Fin n) (K × K)) :
    Prop where
  working : s.A = .a ∧ s.Aug = .aug ∨ s.A = .aprime ∧ s.Aug = .augprime
  matrix : Holds s.tables s.A M
  companion : Holds s.tables s.Aug N
  subtr : ∃ S : Matrix (Fin n) (Fin n) (K × K), Holds s.tables .subtr S
  asubtr : ∃ T : Matrix (Fin n) (Fin n) (K × K), Holds s.tables .asubtr T ∧
    ∀ k c : Fin n, r ≤ c.val → T k c = 0
  aprime : ∃ P : Matrix (Fin n) (Fin n) (K × K), Holds s.tables .aprime P
  augprime : ∃ P : Matrix (Fin n) (Fin n) (K × K), Holds s.tables .augprime P
  pivotRow : s.Rr.length = n
  augmentRow : s.Ar.length = n
  given : s.tables .mytable = m₀ .mytable ∧ s.tables .augment = m₀ .augment

theorem Ready.round {write : Node K → Node K → Node K}
    {normalise : Nat → List (Node K) → List (Node K) → Option (List (Node K) × List (Node K))}
    (hwrite : WritesEntry write) {m₀ : Tables K} {s : Locals K}
    {M N : Matrix (Fin n) (Fin n) (K × K)} {r : Fin n} (h : Ready m₀ r.val s M N)
    {v w : Fin n → K × K} (hnorm : normalise r (rowNodes r (M r)) (rowNodes r (N r)) =
      some (rowNodes r v, rowNodes r w)) :
    ∃ s', round write normalise n r s = some s' ∧
      Ready m₀ (r.val + 1) s' (nextMatrix M r v) (nextAugment M N r w) := by
  obtain ⟨T, hT, hzero⟩ := h.asubtr
  obtain ⟨S, hS⟩ := h.subtr
  have hAAug : s.A ≠ s.Aug := by
    rcases h.working with ⟨h1, h2⟩ | ⟨h1, h2⟩ <;> simp [h1, h2]
  have hA : s.A ≠ .subtr ∧ s.A ≠ .asubtr := by
    rcases h.working with ⟨h1, h2⟩ | ⟨h1, h2⟩ <;> simp [h1]
  have hAug : s.Aug ≠ .subtr ∧ s.Aug ≠ .asubtr ∧ s.Aug ≠ .aprime := by
    rcases h.working with ⟨h1, h2⟩ | ⟨h1, h2⟩ <;> simp [h2]
  -- The row of the pivot is written to both working tables.
  have hrow : copyRowFromTable s.Rr s.tables s.A r = rowNodes r (M r) :=
    copyRowFromTable_eq h.matrix h.pivotRow
  have hrow' : copyRowFromTable s.Ar s.tables s.Aug r = rowNodes r (N r) :=
    copyRowFromTable_eq h.companion h.augmentRow
  obtain ⟨m1, e1, f1⟩ := copyRowToTable_filled (v := v) (r := r) hwrite h.matrix
  obtain ⟨m2, e2, f2⟩ := copyRowToTable_filled (v := w) (r := r) hwrite
    (f1.other hAAug.symm h.companion)
  have hA2 := f2.other hAAug f1.holds
  have hplaces := getColumnFromTable_eq (r := r) hA2
  -- The subtrahends, from the row and the column of the pivot.
  obtain ⟨m3, e3, f3⟩ := zeroColumns_filled r.isLt.le
    (f2.other hAug.1.symm (f1.other hA.1.symm hS))
  obtain ⟨m4, e4, f4⟩ := zeroColumns_filled r.isLt.le
    (f3.other (by decide) (f2.other hAug.2.1.symm (f1.other hA.2.symm hT)))
  have hA4 := f4.other hA.2 (f3.other hA.1 hA2)
  obtain ⟨m5, e5, f5⟩ := subtrahend_filled (r := r) (v := v) multiplies_product r.isLt.le le_rfl hA.1 hA.1
    (f4.other (by decide) f3.holds) hA4 hA4 hplaces
  have hAug5 := f5.other hAug.1 (f4.other hAug.2.1 (f3.other hAug.1 f2.holds))
  have hA5 := f5.other hA.1 hA4
  obtain ⟨m6, e6, f6⟩ := subtrahend_filled (r := r) (v := w) multiplies_augProduct
    (Nat.zero_le (r.val + 1)) r.isLt hAug.2.1 hA.2 (f5.other (by decide) f4.holds) hAug5 hA5 hplaces
  -- The differences, in tables that may be the working tables themselves.
  have hdense : ∀ t, (∃ P : Matrix (Fin n) (Fin n) (K × K), Holds s.tables t P) →
      ∃ P : Matrix (Fin n) (Fin n) (K × K), Holds m6 t P := fun t ht =>
    f6.dense (f5.dense (f4.dense (f3.dense (f2.dense (f1.dense ht)))))
  obtain ⟨P, hP⟩ := hdense _ h.aprime
  obtain ⟨m7, e7, f7⟩ := tableSub_filled (by decide) (f6.other hA.2 hA5)
    (f6.other (by decide) f5.holds) hP
  obtain ⟨Q, hQ⟩ := f7.dense (hdense _ h.augprime)
  obtain ⟨m8, e8, f8⟩ := tableSub_filled (by decide)
    (f7.other hAug.2.2 (f6.other hAug.2.1 hAug5)) (f7.other (by decide) f6.holds) hQ
  refine ⟨⟨m8, .aprime, .augprime, rowNodes r v, rowNodes r w⟩, ?_, ?_⟩
  · unfold NodeTables.round
    simp [hrow, hrow', hnorm, e1, e2, e3, e4, e5, e6, e7, e8]
  have hmatrix : Holds m8 .aprime (nextMatrix M r v) :=
    (f8.other (by decide) f7.holds).congr (nextMatrix_eq_sub M S r v)
  have hcompanion : Holds m8 .augprime (nextAugment M N r w) :=
    f8.holds.congr fun k c => nextAugment_eq_sub M N T r v w k c (hzero k c)
  have hkept : ∀ t, t = .mytable ∨ t = .augment → m8 t = s.tables t := by
    intro t ht
    have hne : t ≠ s.A ∧ t ≠ s.Aug ∧ t ≠ .subtr ∧ t ≠ .asubtr ∧ t ≠ .aprime ∧ t ≠ .augprime := by
      rcases h.working with ⟨h1, h2⟩ | ⟨h1, h2⟩ <;> rcases ht with rfl | rfl <;> simp [h1, h2]
    obtain ⟨n1, n2, n3, n4, n5, n6⟩ := hne
    rw [f8.frame t n6, f7.frame t n5, f6.frame t n4, f5.frame t n3, f4.frame t n4, f3.frame t n3,
      f2.frame t n2, f1.frame t n1]
  exact
    { working := .inr ⟨rfl, rfl⟩
      matrix := hmatrix
      companion := hcompanion
      subtr := f8.dense (f7.dense (f6.dense ⟨_, f5.holds⟩))
      asubtr := by
        refine ⟨_, f8.other (by decide) (f7.other (by decide) f6.holds), fun k c hc => ?_⟩
        simp [show ¬c.val < r.val + 1 by omega, show ¬c.val < r.val by omega,
          hzero k c (by omega)]
      aprime := ⟨_, hmatrix⟩
      augprime := ⟨_, hcompanion⟩
      pivotRow := length_rowNodes
      augmentRow := length_rowNodes
      given := ⟨(hkept _ (.inl rfl)).trans h.given.1, (hkept _ (.inr rfl)).trans h.given.2⟩ }

theorem prepare_ready {m : Tables K} {M N : Matrix (Fin n) (Fin n) (K × K)}
    (hM : Holds m .mytable M) (hN : Holds m .augment N) (Rr Ar : Fin n → Node K) :
    ∃ s, prepare n Rr Ar m = some s ∧ Ready m 0 s M N := by
  obtain ⟨m1, e1, f1⟩ := copyTable_filled (t := .a) (by decide) hM
  obtain ⟨m2, e2, f2⟩ := copyTable_filled (t := .aug) (by decide) (f1.other (by decide) hN)
  obtain ⟨m3, e3, f3⟩ := zeroTable_filled (n := n) (m := m2) (t := .subtr)
  obtain ⟨m4, e4, f4⟩ := zeroTable_filled (n := n) (m := m3) (t := .asubtr)
  obtain ⟨m5, e5, f5⟩ := zeroTable_filled (n := n) (m := m4) (t := .aprime)
  obtain ⟨m6, e6, f6⟩ := zeroTable_filled (n := n) (m := m5) (t := .augprime)
  refine ⟨⟨m6, .a, .aug, List.ofFn Rr, List.ofFn Ar⟩, ?_, ?_⟩
  · unfold prepare
    simp [e1, e2, e3, e4, e5, e6]
  have hmatrix : Holds m6 .a M := f6.other (by decide) (f5.other (by decide)
    (f4.other (by decide) (f3.other (by decide) (f2.other (by decide) f1.holds))))
  have hcompanion : Holds m6 .aug N := f6.other (by decide) (f5.other (by decide)
    (f4.other (by decide) (f3.other (by decide) f2.holds)))
  have hkept : ∀ t, t = .mytable ∨ t = .augment → m6 t = m t := by
    rintro t (rfl | rfl)
    all_goals rw [f6.frame _ (by decide), f5.frame _ (by decide), f4.frame _ (by decide),
      f3.frame _ (by decide), f2.frame _ (by decide), f1.frame _ (by decide)]
  exact
    { working := .inl ⟨rfl, rfl⟩
      matrix := hmatrix
      companion := hcompanion
      subtr := f6.dense (f5.dense (f4.dense ⟨_, f3.holds⟩))
      asubtr := ⟨_, f6.other (by decide) (f5.other (by decide) f4.holds), fun _ _ _ => rfl⟩
      aprime := f6.dense ⟨_, f5.holds⟩
      augprime := ⟨_, f6.holds⟩
      pivotRow := List.length_ofFn
      augmentRow := List.length_ofFn
      given := ⟨hkept _ (.inl rfl), hkept _ (.inr rfl)⟩ }

section Rules

variable {write : Node K → Node K → Node K}
  {normalise : Nat → List (Node K) → List (Node K) → Option (List (Node K) × List (Node K))}
  {m : Tables K} {M N : Matrix (Fin n) (Fin n) (K × K)} {pivots : Nat}

theorem Ready.rounds (hwrite : WritesEntry write) {s : Locals K} (h : Ready m 0 s M N)
    (hp : pivots ≤ n)
    (I : Nat → Matrix (Fin n) (Fin n) (K × K) → Matrix (Fin n) (Fin n) (K × K) → Prop)
    (start : I 0 M N)
    (next : ∀ (r : Fin n) M N, r.val < pivots → I r M N → ∃ v w,
      normalise r (rowNodes r (M r)) (rowNodes r (N r)) = some (rowNodes r v, rowNodes r w) ∧
        I (r.val + 1) (nextMatrix M r v) (nextAugment M N r w)) :
    ∃ s', (List.range pivots).foldlM (fun s r => NodeTables.round write normalise n r s) s =
      some s' ∧ ∃ M' N', Ready m pivots s' M' N' ∧ I pivots M' N' := by
  rw [List.range_eq_range']
  apply exists_foldlM_range (fun r s => ∃ M N, Ready m r s M N ∧ I r M N) (Nat.zero_le pivots)
  · exact ⟨M, N, h, start⟩
  · rintro r s - hr ⟨M₁, N₁, hready, hI⟩
    obtain ⟨v, w, hnorm, hnext⟩ := next ⟨r, by omega⟩ M₁ N₁ hr hI
    obtain ⟨s', hs', hready'⟩ := hready.round hwrite (r := ⟨r, by omega⟩) hnorm
    exact ⟨s', hs', _, _, hready', hnext⟩

/-- The rule for `invert`: what each round carries on, of the matrix and of its augment, holds of the
augment that is written back. -/
theorem invert_rule (hwrite : WritesEntry write) (hM : Holds m .mytable M)
    (hN : Holds m .augment N) (Rr Ar : Fin n → Node K) (hp : pivots ≤ n)
    (I : Nat → Matrix (Fin n) (Fin n) (K × K) → Matrix (Fin n) (Fin n) (K × K) → Prop)
    (start : I 0 M N)
    (next : ∀ (r : Fin n) M N, r.val < pivots → I r M N → ∃ v w,
      normalise r (rowNodes r (M r)) (rowNodes r (N r)) = some (rowNodes r v, rowNodes r w) ∧
        I (r.val + 1) (nextMatrix M r v) (nextAugment M N r w)) :
    ∃ m' M' N', invert write normalise n pivots Rr Ar m = some m' ∧ I pivots M' N' ∧
      Holds m' .augment N' ∧ m' .mytable = m .mytable := by
  obtain ⟨s, hs, hready⟩ := prepare_ready hM hN Rr Ar
  obtain ⟨s', hs', M', N', hready', hI⟩ := hready.rounds hwrite hp I start next
  have hsource : s'.Aug ≠ .augment ∧ TableId.mytable ≠ .augment := by
    rcases hready'.working with ⟨-, h⟩ | ⟨-, h⟩ <;> simp [h]
  have hshape : Holds s'.tables .augment N := by
    intro c
    rw [hready'.given.2]
    exact hN c
  obtain ⟨m', hm', hf⟩ := writeBack_filled hsource.1 hready'.companion hshape
  refine ⟨m', M', N', ?_, hI, hf.holds, ?_⟩
  · unfold invert
    simp [hs, hs', hm']
  · rw [hf.frame _ hsource.2]
    exact hready'.given.1

theorem invert_none (hwrite : WritesEntry write) (hM : Holds m .mytable M)
    (hN : Holds m .augment N) (Rr Ar : Fin n → Node K) {r : Nat} (hr : r < pivots) (hn : r ≤ n)
    (I : Nat → Matrix (Fin n) (Fin n) (K × K) → Matrix (Fin n) (Fin n) (K × K) → Prop)
    (start : I 0 M N)
    (next : ∀ (k : Fin n) M N, k.val < r → I k M N → ∃ v w,
      normalise k (rowNodes k (M k)) (rowNodes k (N k)) = some (rowNodes k v, rowNodes k w) ∧
        I (k.val + 1) (nextMatrix M k v) (nextAugment M N k w))
    (fails : ∀ s M N, Ready m r s M N → I r M N →
      normalise r (copyRowFromTable s.Rr s.tables s.A r)
        (copyRowFromTable s.Ar s.tables s.Aug r) = none) :
    invert write normalise n pivots Rr Ar m = none := by
  obtain ⟨s, hs, hready⟩ := prepare_ready hM hN Rr Ar
  obtain ⟨s', hs', M', N', hready', hI⟩ := hready.rounds hwrite hn I start next
  have hround : NodeTables.round write normalise n r s' = none := by
    unfold NodeTables.round
    simp [fails s' M' N' hready' hI]
  obtain ⟨k, rfl⟩ := Nat.exists_eq_add_of_lt hr
  unfold invert
  rw [show r + k + 1 = r + (k + 1) by omega, List.range_add]
  simp [hs, hs', List.foldlM_append, List.range_succ_eq_map, hround]

end Rules

end Rounds

end NodeTables

end TcpAndParallel
