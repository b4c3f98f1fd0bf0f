import Mathlib.Analysis.Real.Sqrt
import TcpAndParallel.ListTables

namespace TcpAndParallel

namespace ListTables

open NodeTables

section Modulate

/-- What the sum for one row gains from a carrier and a node of the signal. -/
def term (a x : Node ℝ) : ℂ := value a * value x + ((2 * (a.imag * x.imag) : ℝ) : ℂ)

theorem modulateNodes_eq {real imag : ℝ} {as xs : List (Node ℝ)} {rest : List (List (Node ℝ))}
    (has : as.length = xs.length) (hrest : rest.length = xs.length) :
    modulateNodes real imag (List.zipWith List.cons as rest) xs =
      some ((⟨real, imag⟩ + (List.zipWith term as xs).sum : ℂ).re,
        (⟨real, imag⟩ + (List.zipWith term as xs).sum : ℂ).im, rest) := by
  induction xs generalizing real imag as rest with
  | nil =>
    have ha : as = [] := List.eq_nil_of_length_eq_zero has
    have hr : rest = [] := List.eq_nil_of_length_eq_zero hrest
    subst ha hr
    simp [modulateNodes]
  | cons x xs ih =>
    obtain ⟨a, as, rfl⟩ := List.exists_cons_of_length_eq_add_one has
    obtain ⟨r, rest, rfl⟩ := List.exists_cons_of_length_eq_add_one hrest
    have hhead : (⟨real + (a.real * x.real + a.imag * x.imag),
        imag + (a.real * x.imag + a.imag * x.real)⟩ : ℂ) = ⟨real, imag⟩ + term a x := by
      apply Complex.ext
      · simp [term, value]
        ring
      · simp [term, value]
    have hlen : as.length = xs.length := by simpa using has
    have hlen' : rest.length = xs.length := by simpa using hrest
    rw [List.zipWith_cons_cons, modulateNodes, ih hlen hlen', hhead, List.zipWith_cons_cons,
      List.sum_cons, ← add_assoc]
    rfl

variable {p q s : Nat}

def modulated (A : Matrix (Fin p) (Fin q) ℂ) (X : Matrix (Fin q) (Fin s) ℂ) :
    Matrix (Fin p) (Fin s) ℂ :=
  fun i k => (A * X) i k + ((2 * ∑ j, (A i j).im * (X j k).im : ℝ) : ℂ)

/-- The nodes of the carriers that are not read yet, from row `i` on. -/
def unread (A : Matrix (Fin p) (Fin q) ℂ) (i : Nat) : List (List (Node ℝ)) :=
  List.ofFn fun j : Fin q => (columnNodes j fun k => parts (A k j)).drop i

theorem unread_step {A : Matrix (Fin p) (Fin q) ℂ} (i : Fin p) :
    unread A i = List.zipWith List.cons
      (rowNodes i fun j => parts (A i j)) (unread A (i + 1)) := by
  unfold unread
  apply List.ext_getElem
  · simp
  · intro j h1 h2
    simp only [List.getElem_ofFn, List.getElem_zipWith, getElem_rowNodes]
    rw [List.drop_eq_getElem_cons (by simp), getElem_columnNodes]

theorem sum_term {A : Matrix (Fin p) (Fin q) ℂ} {X : Matrix (Fin q) (Fin s) ℂ} (i : Fin p)
    (k : Fin s) :
    (List.zipWith term (rowNodes i fun j => parts (A i j))
      (columnNodes k fun j => parts (X j k))).sum = modulated A X i k := by
  have hzip : List.zipWith term (rowNodes i fun j => parts (A i j))
      (columnNodes k fun j => parts (X j k)) =
      List.ofFn fun j => A i j * X j k + ((2 * ((A i j).im * (X j k).im) : ℝ) : ℂ) := by
    apply List.ext_getElem
    · simp
    · intro j h1 h2
      simp [term, value]
  rw [hzip, List.sum_ofFn, Finset.sum_add_distrib, modulated, Matrix.mul_apply, Finset.mul_sum,
    Complex.ofReal_sum]

/-- Where the first `i` rows of column `k` are computed. -/
structure Passed (A : Matrix (Fin p) (Fin q) ℂ) (X : Matrix (Fin q) (Fin s) ℂ) (t : Table ℝ)
    (k : Fin s) (i : Nat) (st : List (List (Node ℝ)) × Table ℝ) : Prop where
  anode : st.1 = unread A i
  rows : st.2.rows = t.rows
  columns : st.2.columns = t.columns
  column : st.2.column = Function.update t.column k
    (t.column k ++ (columnNodes k fun r => parts (modulated A X r k)).take i)

theorem modulateRow_passed {A : Matrix (Fin p) (Fin q) ℂ} {X : Matrix (Fin q) (Fin s) ℂ}
    {t : Table ℝ} {k : Fin s} (i : Fin p) {st : List (List (Node ℝ)) × Table ℝ}
    (h : Passed A X t k i st) :
    ∃ st', modulateRow (columnNodes k fun j => parts (X j k)) k i st = some st' ∧
      Passed A X t k (i + 1) st' := by
  have hnodes : modulateNodes 0 0 st.1 (columnNodes k fun j => parts (X j k)) =
      some ((modulated A X i k).re, (modulated A X i k).im, unread A (i + 1)) := by
    have hzero : (⟨0, 0⟩ : ℂ) = 0 := rfl
    rw [h.anode, unread_step, modulateNodes_eq (by simp) (by simp [unread]), sum_term, hzero,
      zero_add]
  unfold modulateRow
  rw [hnodes]
  refine ⟨_, rfl, rfl, h.rows, h.columns, ?_⟩
  have htake : (columnNodes k fun r => parts (modulated A X r k)).take (i + 1) =
      (columnNodes k fun r => parts (modulated A X r k)).take i ++
        [⟨i, k, (modulated A X i k).re, (modulated A X i k).im⟩] := by
    rw [List.take_add_one, List.getElem?_eq_getElem (by simp), getElem_columnNodes]
    rfl
  rw [htake]
  simp [tableAppend, h.column]

theorem modulateColumn_eq {A : Matrix (Fin p) (Fin q) ℂ} {X : Matrix (Fin q) (Fin s) ℂ}
    {mycarriers : Table ℝ} (held : Dense mycarriers A) (t : Table ℝ) (k : Fin s) :
    ∃ st, (List.range' 0 mycarriers.rows).foldlM
        (fun st i => modulateRow (columnNodes k fun j => parts (X j k)) k i st)
        ((List.range mycarriers.columns).map mycarriers.column, t) = some st ∧
      st.2.rows = t.rows ∧ st.2.columns = t.columns ∧
      st.2.column = Function.update t.column k
        (t.column k ++ columnNodes k fun r => parts (modulated A X r k)) := by
  rw [held.rows, held.columns]
  have hloop := exists_foldlM_zero (n := p) (s := ((List.range q).map mycarriers.column, t))
    (fun i st => modulateRow (columnNodes k fun j => parts (X j k)) k i st) (Passed A X t k) ?_
    fun i st h => modulateRow_passed i h
  · obtain ⟨st, hrun, h⟩ := hloop
    refine ⟨st, hrun, h.rows, h.columns, ?_⟩
    rw [h.column, List.take_of_length_le (by simp)]
  · refine ⟨?_, rfl, rfl, by simp⟩
    apply List.ext_getElem
    · simp [unread]
    · intro j h1 h2
      have hj : j < q := by simpa using h1
      simpa [unread] using held.column ⟨j, hj⟩

/-- What `modulate` builds: the product with the products of the imaginary parts added twice. -/
theorem modulate_dense (sqrt : ℝ → ℝ) {mycarriers myipSig : Table ℝ}
    {A : Matrix (Fin p) (Fin q) ℂ} {X : Matrix (Fin q) (Fin s) ℂ} (hA : Dense mycarriers A)
    (hX : Dense myipSig X) :
    ∃ t, modulate sqrt (tableInit p s) mycarriers myipSig = some t ∧ Dense t (modulated A X) := by
  have hloop := exists_foldlM_zero (n := s) (s := (tableInit p s : Table ℝ))
    (fun k t => ((List.range' 0 mycarriers.rows).foldlM
      (fun st i => modulateRow (myipSig.column k) k i st)
      ((List.range mycarriers.columns).map mycarriers.column, t)).map Prod.snd)
    (fun k t => t.rows = p ∧ t.columns = s ∧ t.column = fun c => if h : c < s then
      if c < k then columnNodes c fun r => parts (modulated A X r ⟨c, h⟩) else [] else [])
    ⟨rfl, rfl, by funext c; simp [tableInit]⟩ ?_
  · obtain ⟨t, hrun, hrows, hcolumns, hcolumn⟩ := hloop
    refine ⟨{ t with norm := sqrt t.norm }, ?_, hrows, hcolumns, fun c => ?_⟩
    · unfold modulate
      rw [hX.columns, hrun]
      rfl
    · show t.column c = _
      rw [hcolumn]
      simp
  · intro k t ht
    obtain ⟨hrows, hcolumns, hcolumn⟩ := ht
    obtain ⟨st, hst, h1, h2, h3⟩ := modulateColumn_eq (X := X) hA t k
    simp only [hX.column k]
    rw [hst]
    refine ⟨st.2, rfl, h1.trans hrows, h2.trans hcolumns, ?_⟩
    rw [h3, hcolumn]
    funext c
    by_cases hc : c = k
    · subst hc
      simp
    · have hiff : c < k.val + 1 ↔ c < k.val := by omega
      simp [Function.update_of_ne hc, hiff]

/-- The products of the imaginary parts of a row of the carriers and a column of the signal
cancel. -/
def ImagCancel (A : Matrix (Fin p) (Fin q) ℂ) (X : Matrix (Fin q) (Fin s) ℂ) : Prop :=
  ∀ i k, ∑ j, (A i j).im * (X j k).im = 0

/-- Every column of the table is the product of the carriers with that column of the signal. -/
def Modulates (A : Matrix (Fin p) (Fin q) ℂ) (X : Matrix (Fin q) (Fin s) ℂ) (t : Table ℝ) : Prop :=
  ∀ k : Fin s, t.column k = columnNodes k fun i => parts (A.mulVec (fun j => X j k) i)

theorem modulates_iff {A : Matrix (Fin p) (Fin q) ℂ} {X : Matrix (Fin q) (Fin s) ℂ} {t : Table ℝ}
    (held : Dense t (modulated A X)) : Modulates A X t ↔ ImagCancel A X := by
  have hentry : ∀ i k, modulated A X i k = A.mulVec (fun j => X j k) i ↔
      ∑ j, (A i j).im * (X j k).im = 0 := by
    intro i k
    have hprod : A.mulVec (fun j => X j k) i = (A * X) i k := rfl
    rw [modulated, hprod, add_eq_left, Complex.ofReal_eq_zero]
    constructor
    · intro h
      linarith
    · intro h
      rw [h, mul_zero]
  constructor
  · intro h i k
    have hk := columnNodes_inj.mp ((held.column k).symm.trans (h k))
    exact (hentry i k).mp (congrFun hk i)
  · intro h k
    rw [held.column k, columnNodes_inj]
    funext i
    exact (hentry i k).mpr (h i k)

theorem modulate_iff (sqrt : ℝ → ℝ) {mycarriers myipSig : Table ℝ} {A : Matrix (Fin p) (Fin q) ℂ}
    {X : Matrix (Fin q) (Fin s) ℂ} (hA : Dense mycarriers A) (hX : Dense myipSig X) :
    (∃ t, modulate sqrt (tableInit p s) mycarriers myipSig = some t ∧ Modulates A X t) ↔
      ImagCancel A X := by
  obtain ⟨t, hrun, held⟩ := modulate_dense sqrt hA hX
  rw [← modulates_iff held]
  constructor
  · rintro ⟨t', hrun', h⟩
    have he : t' = t := Option.some.inj (hrun'.symm.trans hrun)
    subst he
    exact h
  · intro h
    exact ⟨t, hrun, h⟩

theorem modulate_real : ∃ t, modulate Real.sqrt (tableInit 2 1)
      (tableOf (!![1, 2; 3, 4] : Matrix (Fin 2) (Fin 2) ℂ))
      (tableOf (!![Complex.I; 5] : Matrix (Fin 2) (Fin 1) ℂ)) = some t ∧
    Modulates (!![1, 2; 3, 4] : Matrix (Fin 2) (Fin 2) ℂ)
      (!![Complex.I; 5] : Matrix (Fin 2) (Fin 1) ℂ) t := by
  apply (modulate_iff Real.sqrt (tableOf_dense _) (tableOf_dense _)).mpr
  intro i k
  fin_cases i <;> fin_cases k <;> simp

/-- `i` times `i` is `1`. -/
theorem modulate_wrong : ¬∃ t, modulate Real.sqrt (tableInit 1 1)
      (tableOf (!![Complex.I] : Matrix (Fin 1) (Fin 1) ℂ))
      (tableOf (!![Complex.I] : Matrix (Fin 1) (Fin 1) ℂ)) = some t ∧
    Modulates (!![Complex.I] : Matrix (Fin 1) (Fin 1) ℂ)
      (!![Complex.I] : Matrix (Fin 1) (Fin 1) ℂ) t := by
  rintro ⟨t, hrun, ht⟩
  obtain ⟨t', hrun', held⟩ := modulate_dense Real.sqrt
    (tableOf_dense (!![Complex.I] : Matrix (Fin 1) (Fin 1) ℂ))
    (tableOf_dense (!![Complex.I] : Matrix (Fin 1) (Fin 1) ℂ))
  have he : t = t' := Option.some.inj (hrun.symm.trans hrun')
  subst he
  have hcancel := (modulates_iff held).mp ht 0 0
  simp at hcancel

end Modulate

end ListTables

end TcpAndParallel
