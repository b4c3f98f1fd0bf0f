import TcpAndParallel.ListTables

namespace TcpAndParallel

namespace ListTables

open NodeTables

section Multiply

def addProduct (anode bnode cnode : Node ℝ) : Node ℝ :=
  ⟨cnode.row, cnode.col, cnode.real + (anode.real * bnode.real - anode.imag * bnode.imag),
    cnode.imag + (anode.real * bnode.imag + anode.imag * bnode.real)⟩

theorem multiplyAdd_eq {as bs cs : List (Node ℝ)} (h : cs.length ≤ as.length) :
    multiplyAdd as bs cs = some (cs.mapIdx fun i cnode =>
      match as[i]?, bs[i]? with
      | some anode, some bnode => addProduct anode bnode cnode
      | _, _ => cnode) := by
  induction cs generalizing as bs with
  | nil => cases as <;> cases bs <;> rfl
  | cons c cs ih =>
    obtain _ | ⟨a, as⟩ := as
    · simp at h
    · cases bs with
      | nil =>
        show some (c :: cs) = _
        congr 1
        apply List.ext_getElem
        · simp
        · intro i h1 h2
          rw [List.getElem_mapIdx]
          simp
      | cons b bs =>
        have hlen : cs.length ≤ as.length := by simpa using h
        rw [multiplyAdd, ih hlen]
        simp [List.mapIdx_cons, addProduct]

variable {p q s : Nat}

theorem multiplyAdd_columns {a b : Nat} (x z : Fin p → ℂ) (y : Fin q → ℂ) :
    multiplyAdd (columnNodes a fun k => parts (x k)) (columnNodes b fun k => parts (y k))
        (columnNodes b fun k => parts (z k)) =
      some (columnNodes b fun k =>
        parts (if h : k < q then z k + x k * y ⟨k, h⟩ else z k)) := by
  rw [multiplyAdd_eq (by simp)]
  congr 1
  apply List.ext_getElem
  · simp
  · intro k h1 h2
    have hk : k < p := by simpa using h1
    rw [List.getElem_mapIdx, List.getElem?_eq_getElem (by simpa using hk)]
    by_cases hq : k < q
    · rw [List.getElem?_eq_getElem (by simpa using hq)]
      simp [addProduct, hq, Complex.mul_re, Complex.mul_im]
    · rw [List.getElem?_eq_none (by simpa using hq)]
      simp [hq]

/-- The entry of the result after the passes for the first `k` columns of `A`: the sum of its row
so far, times the entry of `B` in the same place. -/
def multiplied (A : Matrix (Fin p) (Fin q) ℂ) (B : Matrix (Fin q) (Fin s) ℂ) (k : Nat) :
    Matrix (Fin p) (Fin s) ℂ :=
  fun i j => if h : i < q then (∑ l with l.val < k, A i l) * B ⟨i, h⟩ j else 0

theorem sum_lt_succ (f : Fin q → ℂ) (k : Fin q) :
    ∑ l with l.val < k.val + 1, f l = ∑ l with l.val < k.val, f l + f k := by
  have hset : (Finset.univ.filter fun l : Fin q => l.val < k.val + 1) =
      insert k (Finset.univ.filter fun l : Fin q => l.val < k.val) := by
    ext l
    simp only [Finset.mem_filter, Finset.mem_univ, true_and, Finset.mem_insert, Fin.ext_iff]
    omega
  rw [hset, Finset.sum_insert (by simp), add_comm]

theorem multiplied_step {A : Matrix (Fin p) (Fin q) ℂ} {B : Matrix (Fin q) (Fin s) ℂ} (k : Fin q)
    (i : Fin p) (j : Fin s) :
    (if h : i < q then multiplied A B k i j + A i k * B ⟨i, h⟩ j else multiplied A B k i j) =
      multiplied A B (k + 1) i j := by
  unfold multiplied
  split
  next h => rw [sum_lt_succ, add_mul]
  next h => rfl

/-- Where `table_mult` has left the operands alone and `C` holds a matrix. -/
structure Multiplied (m : Operands ℝ) (C : Matrix (Fin p) (Fin s) ℂ) (m' : Operands ℝ) : Prop where
  result : Dense m'.C C
  left : m'.A = m.A
  right : m'.B = m.B

theorem multiplyPass {m m' : Operands ℝ} {A : Matrix (Fin p) (Fin q) ℂ}
    {B : Matrix (Fin q) (Fin s) ℂ} (hA : Dense m.A A) (hB : Dense m.B B) (k : Fin q)
    (h : Multiplied m (multiplied A B k) m') :
    ∃ t, (List.range' 0 m'.B.columns).foldlM (fun m j =>
        (multiplyAdd (m.A.column k) (m.B.column j) (m.C.column j)).map fun nodes =>
          { m with C := { m.C with column := Function.update m.C.column j nodes } }) m' = some t ∧
      Multiplied m (multiplied A B (k + 1)) t := by
  rw [h.right, hB.columns]
  have hloop := exists_foldlM_zero (n := s) (s := m')
    (fun j m => (multiplyAdd (m.A.column k) (m.B.column j) (m.C.column j)).map fun nodes =>
      { m with C := { m.C with column := Function.update m.C.column j nodes } })
    (fun c t => Multiplied m (fun i j => multiplied A B (if j < c then k + 1 else k) i j) t)
    (by simpa using h) ?_
  · obtain ⟨t, hrun, ht⟩ := hloop
    refine ⟨t, hrun, ?_⟩
    simpa using ht
  · intro c t ht
    have ha : t.A.column k = columnNodes k fun i => parts (A i k) := by
      rw [ht.left]
      exact hA.column k
    have hb : t.B.column c = columnNodes c fun i => parts (B i c) := by
      rw [ht.right]
      exact hB.column c
    have hc : t.C.column c = columnNodes c fun i => parts (multiplied A B k i c) := by
      simpa using ht.result.column c
    rw [ha, hb, hc, multiplyAdd_columns]
    refine ⟨_, rfl, ⟨ht.result.rows, ht.result.columns, fun j => ?_⟩, ht.left, ht.right⟩
    by_cases hj : j = c
    · subst hj
      simp [multiplied_step]
    · have hval : j.val ≠ c.val := fun he => hj (Fin.ext he)
      have hiff : j.val < c.val + 1 ↔ j.val < c.val := by omega
      simpa [Function.update_of_ne hval, hiff] using ht.result.column j

theorem zeroInit_dense : Dense (zeroInit (tableInit p s : Table ℝ))
    (0 : Matrix (Fin p) (Fin s) ℂ) := by
  have hrun := append_columns (fun _ _ => ((0, 0) : ℝ × ℝ)) (tableInit p s) s p
  unfold zeroInit
  rw [show (tableInit p s : Table ℝ).columns = s from rfl,
    show (tableInit p s : Table ℝ).rows = p from rfl, hrun]
  refine ⟨rfl, rfl, fun c => ?_⟩
  simp [tableInit, parts]

theorem tableMult_multiplied {m : Operands ℝ} {A : Matrix (Fin p) (Fin q) ℂ}
    {B : Matrix (Fin q) (Fin s) ℂ} (hA : Dense m.A A) (hB : Dense m.B B)
    (hC : m.C = zeroInit (tableInit p s)) :
    ∃ m', tableMult m = some m' ∧ Multiplied m (multiplied A B q) m' := by
  unfold tableMult
  rw [hA.columns]
  apply exists_foldlM_zero _ fun k m' => Multiplied m (multiplied A B k) m'
  · refine ⟨?_, rfl, rfl⟩
    have hzero : multiplied A B 0 = 0 := by
      ext i j
      simp [multiplied]
    rw [hC, hzero]
    exact zeroInit_dense
  · intro k m' h
    exact multiplyPass hA hB k h

/-- In each row of `A` that has a row of `B` beside it the entries cancel against what the columns
of `B` differ from their entry in that row, in each other row against the columns of `B`. -/
def RowsCancel (A : Matrix (Fin p) (Fin q) ℂ) (B : Matrix (Fin q) (Fin s) ℂ) : Prop :=
  ∀ i j, ∑ k, A i k * (B k j - if h : i.val < q then B ⟨i, h⟩ j else 0) = 0

theorem multiplied_eq_iff {A : Matrix (Fin p) (Fin q) ℂ} {B : Matrix (Fin q) (Fin s) ℂ} :
    multiplied A B q = A * B ↔ RowsCancel A B := by
  have hentry : ∀ i j, (∑ k, A i k * (B k j - if h : i.val < q then B ⟨i, h⟩ j else 0)) =
      (A * B) i j - multiplied A B q i j := by
    intro i j
    simp only [mul_sub, Finset.sum_sub_distrib, Matrix.mul_apply, multiplied]
    split
    next h => simp [Finset.sum_mul]
    next h => simp
  constructor
  · intro h i j
    rw [hentry, h, sub_self]
  · intro h
    ext i j
    exact (sub_eq_zero.mp ((hentry i j).symm.trans (h i j))).symm

theorem tableMult_iff {m : Operands ℝ} {A : Matrix (Fin p) (Fin q) ℂ}
    {B : Matrix (Fin q) (Fin s) ℂ} (hA : Dense m.A A) (hB : Dense m.B B)
    (hC : m.C = zeroInit (tableInit p s)) :
    (∃ m', tableMult m = some m' ∧ Multiplied m (A * B) m') ↔ RowsCancel A B := by
  obtain ⟨m', hrun, h⟩ := tableMult_multiplied hA hB hC
  rw [← multiplied_eq_iff]
  constructor
  · rintro ⟨t, hrun', ht⟩
    have he : t = m' := Option.some.inj (hrun'.symm.trans hrun)
    subst he
    exact h.result.iff_eq.mp ht.result
  · intro heq
    exact ⟨m', hrun, heq ▸ h⟩

theorem tableMult_identity : ∃ m', tableMult ⟨zeroInit (tableInit 2 2),
      tableOf (1 : Matrix (Fin 2) (Fin 2) ℂ), tableOf !![Complex.I, 2; 3, 4]⟩ = some m' ∧
    Multiplied ⟨zeroInit (tableInit 2 2), tableOf (1 : Matrix (Fin 2) (Fin 2) ℂ),
      tableOf !![Complex.I, 2; 3, 4]⟩
      ((1 : Matrix (Fin 2) (Fin 2) ℂ) * !![Complex.I, 2; 3, 4]) m' := by
  apply (tableMult_iff (tableOf_dense _) (tableOf_dense _) rfl).mpr
  intro i j
  fin_cases i <;> fin_cases j <;> simp

theorem tableMult_wrong : ¬∃ m', tableMult ⟨zeroInit (tableInit 1 1),
      tableOf (!![1, 1] : Matrix (Fin 1) (Fin 2) ℂ),
      tableOf (!![1; 2] : Matrix (Fin 2) (Fin 1) ℂ)⟩ = some m' ∧
    Multiplied ⟨zeroInit (tableInit 1 1), tableOf (!![1, 1] : Matrix (Fin 1) (Fin 2) ℂ),
      tableOf (!![1; 2] : Matrix (Fin 2) (Fin 1) ℂ)⟩
      ((!![1, 1] : Matrix (Fin 1) (Fin 2) ℂ) * (!![1; 2] : Matrix (Fin 2) (Fin 1) ℂ)) m' := by
  rintro ⟨t, hrun, ht⟩
  obtain ⟨m', hrun', h⟩ := tableMult_multiplied (m := ⟨zeroInit (tableInit 1 1),
    tableOf (!![1, 1] : Matrix (Fin 1) (Fin 2) ℂ), tableOf (!![1; 2] : Matrix (Fin 2) (Fin 1) ℂ)⟩)
    (tableOf_dense _) (tableOf_dense _) rfl
  have he : t = m' := Option.some.inj (hrun.symm.trans hrun')
  subst he
  have hcancel := multiplied_eq_iff.mp (h.result.iff_eq.mp ht.result) 0 0
  simp [Fin.sum_univ_two] at hcancel
  norm_num at hcancel

end Multiply

section Correlate

open scoped ComplexConjugate

theorem correlateNodes_eq (realSum imagSum : ℝ) (xs ys : List (Node ℝ)) :
    correlateNodes realSum imagSum xs ys =
      parts (⟨realSum, imagSum⟩ +
        (List.zipWith (fun x y => conj (value x) * value y) xs ys).sum) := by
  induction xs generalizing realSum imagSum ys with
  | nil => simp [correlateNodes, parts]
  | cons x xs ih =>
    cases ys with
    | nil => simp [correlateNodes, parts]
    | cons y ys =>
      have hhead : (⟨realSum + (x.real * y.real + x.imag * y.imag),
          imagSum + (x.real * y.imag - y.real * x.imag)⟩ : ℂ) =
          ⟨realSum, imagSum⟩ + conj (value x) * value y := by
        apply Complex.ext
        · simp [value]
        · simp [value]
          ring
      rw [correlateNodes, ih, hhead, List.zipWith_cons_cons, List.sum_cons, add_assoc]

variable {p q : Nat}

theorem correlateNodes_columns {i j : Nat} (x y : Fin p → ℂ) :
    correlateNodes 0 0 (columnNodes j fun k => parts (x k)) (columnNodes i fun k => parts (y k)) =
      parts (∑ k, conj (x k) * y k) := by
  rw [correlateNodes_eq, sum_zipWith_columnNodes]
  congr 1
  apply Complex.ext
  · simp [value]
  · simp [value]

/-- The table that `correlate` builds is the transpose of the product. -/
theorem correlate_dense {t : Table ℝ} {A : Matrix (Fin p) (Fin q) ℂ} (held : Dense t A) :
    Dense (correlate t (tableInit q q)) (A.conjTranspose * A).transpose := by
  have hrun : correlate t (tableInit q q) =
      { (tableInit q q : Table ℝ) with
        column := fun j => if j < q then [] ++ columnNodes j fun i : Fin q =>
          correlateNodes 0 0 (t.column j) (t.column i) else [] } := by
    unfold correlate
    rw [held.columns]
    exact append_columns (fun i j => correlateNodes 0 0 (t.column j) (t.column i)) _ q q
  rw [hrun]
  refine ⟨rfl, rfl, fun c => ?_⟩
  show (if c.val < q then _ else _) = _
  rw [if_pos c.isLt, List.nil_append]
  congr 1
  funext i
  rw [held.column c, held.column i, correlateNodes_columns]
  simp [Matrix.mul_apply]

/-- The columns of `A` have real inner products. -/
def RealProducts (A : Matrix (Fin p) (Fin q) ℂ) : Prop :=
  ∀ i j, ∑ k, ((A k i).re * (A k j).im - (A k i).im * (A k j).re) = 0

theorem transpose_gram_iff {A : Matrix (Fin p) (Fin q) ℂ} :
    (A.conjTranspose * A).transpose = A.conjTranspose * A ↔ RealProducts A := by
  have him : ∀ i j, ((A.conjTranspose * A) i j).im =
      ∑ k, ((A k i).re * (A k j).im - (A k i).im * (A k j).re) := by
    intro i j
    rw [Matrix.mul_apply, Complex.im_sum]
    refine Finset.sum_congr rfl fun k _ => ?_
    simp [Complex.mul_im]
    ring
  have hconj : ∀ i j, (A.conjTranspose * A) j i = conj ((A.conjTranspose * A) i j) := by
    intro i j
    exact ((Matrix.isHermitian_conjTranspose_mul_self A).apply j i).symm
  constructor
  · intro h i j
    have hij := congrFun (congrFun h i) j
    rw [Matrix.transpose_apply, hconj] at hij
    rw [← him i j]
    exact Complex.conj_eq_iff_im.mp hij
  · intro h
    ext i j
    rw [Matrix.transpose_apply, hconj]
    exact Complex.conj_eq_iff_im.mpr ((him i j).trans (h i j))

/-- A table that holds the product of the conjugate transpose with `A`. -/
structure Correlates (A : Matrix (Fin p) (Fin q) ℂ) (t : Table ℝ) : Prop where
  product : Dense t (A.conjTranspose * A)
  hermitian : ∀ M : Matrix (Fin q) (Fin q) ℂ, Dense t M → M.IsHermitian
  diagonal : ∀ M : Matrix (Fin q) (Fin q) ℂ, Dense t M → ∀ i, (M i i).im = 0

theorem correlate_hermitian {t : Table ℝ} {A : Matrix (Fin p) (Fin q) ℂ} (held : Dense t A)
    {M : Matrix (Fin q) (Fin q) ℂ} (hM : Dense (correlate t (tableInit q q)) M) :
    M.IsHermitian := by
  rw [← (correlate_dense held).iff_eq.mp hM]
  exact (Matrix.isHermitian_conjTranspose_mul_self A).transpose

theorem correlate_iff {t : Table ℝ} {A : Matrix (Fin p) (Fin q) ℂ} (held : Dense t A) :
    Correlates A (correlate t (tableInit q q)) ↔ RealProducts A := by
  rw [← transpose_gram_iff]
  constructor
  · intro h
    exact (correlate_dense held).iff_eq.mp h.product
  · intro h
    refine ⟨(correlate_dense held).iff_eq.mpr h, fun M hM => correlate_hermitian held hM,
      fun M hM i => ?_⟩
    exact Complex.conj_eq_iff_im.mp ((correlate_hermitian held hM).apply i i)

theorem correlate_real : Correlates (!![1, 2; 3, 4] : Matrix (Fin 2) (Fin 2) ℂ)
    (correlate (tableOf !![1, 2; 3, 4]) (tableInit 2 2)) := by
  apply (correlate_iff (tableOf_dense _)).mpr
  intro i j
  fin_cases i <;> fin_cases j <;> simp

theorem correlate_conjugated : ¬Correlates (!![1, Complex.I] : Matrix (Fin 1) (Fin 2) ℂ)
    (correlate (tableOf !![1, Complex.I]) (tableInit 2 2)) := by
  intro h
  have hsym := (correlate_dense (tableOf_dense _)).iff_eq.mp h.product
  have hreal := transpose_gram_iff.mp hsym 0 1
  simp at hreal

end Correlate

end ListTables

end TcpAndParallel
