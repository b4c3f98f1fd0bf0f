import Mathlib.Data.Complex.BigOperators
import Mathlib.LinearAlgebra.Matrix.Hermitian
import TcpAndParallel.NodeTablesDense

namespace TcpAndParallel

namespace ListTables

open NodeTables

variable {K : Type*}

structure Table (K : Type*) where
  rows : Nat
  columns : Nat
  norm : K
  column : Nat → List (Node K)

def tableInit [Zero K] (rows columns : Nat) : Table K := ⟨rows, columns, 0, fun _ => []⟩

def tableAppend (mytable : Table K) (mynode : Node K) : Table K :=
  { mytable with
    column := Function.update mytable.column mynode.col (mytable.column mynode.col ++ [mynode]) }

def zeroInit [Zero K] (mytable : Table K) : Table K :=
  (List.range mytable.columns).foldl (fun t j =>
    (List.range mytable.rows).foldl (fun t i => tableAppend t ⟨i, j, 0, 0⟩) t) mytable

/-- The tables that `table_mult` is given. -/
structure Operands (K : Type*) where
  C : Table K
  A : Table K
  B : Table K

section Source

variable [Add K] [Sub K] [Mul K]

/-- `while (bnode != NULL && cnode != NULL)`; `anode` is not tested. -/
def multiplyAdd : List (Node K) → List (Node K) → List (Node K) → Option (List (Node K))
  | [], _ :: _, _ :: _ => none
  | anode :: as, bnode :: bs, cnode :: cs =>
    (multiplyAdd as bs cs).map fun nodes =>
      { cnode with
        real := cnode.real + (anode.real * bnode.real - anode.imag * bnode.imag)
        imag := cnode.imag + (anode.real * bnode.imag + anode.imag * bnode.real) } :: nodes
  | _, _, cs => some cs

def tableMult (m : Operands K) : Option (Operands K) :=
  (List.range' 0 m.A.columns).foldlM (fun m k =>
    (List.range' 0 m.B.columns).foldlM (fun m j =>
      (multiplyAdd (m.A.column k) (m.B.column j) (m.C.column j)).map fun nodes =>
        { m with C := { m.C with column := Function.update m.C.column j nodes } }) m) m

variable [Zero K]

/-- The sums over two columns, `while (xnode!=NULL && ynode!=NULL)`. -/
def correlateNodes : K → K → List (Node K) → List (Node K) → K × K
  | realSum, imagSum, xnode :: xs, ynode :: ys =>
    correlateNodes (realSum + (xnode.real * ynode.real + xnode.imag * ynode.imag))
      (imagSum + (xnode.real * ynode.imag - ynode.real * xnode.imag)) xs ys
  | realSum, imagSum, _, _ => (realSum, imagSum)

def correlate (mycarrier newtable : Table K) : Table K :=
  (List.range mycarrier.columns).foldl (fun t j =>
    (List.range mycarrier.columns).foldl (fun t i =>
      let sums := correlateNodes 0 0 (mycarrier.column j) (mycarrier.column i)
      tableAppend t ⟨i, j, sums.1, sums.2⟩) t) newtable

/-- One row of the carriers against a column of the signal, `while (xnode!=NULL)`; each `Anode[j]`
that is read advances. -/
def modulateNodes : K → K → List (List (Node K)) → List (Node K) →
    Option (K × K × List (List (Node K)))
  | real, imag, Anode, [] => some (real, imag, Anode)
  | real, imag, (anode :: as) :: Anode, xnode :: xs =>
    (modulateNodes (real + (anode.real * xnode.real + anode.imag * xnode.imag))
      (imag + (anode.real * xnode.imag + anode.imag * xnode.real)) Anode xs).map
        fun (real, imag, Anode) => (real, imag, as :: Anode)
  | _, _, _, _ :: _ => none

/-- The pass over row `i` for column `k` of the signal. -/
def modulateRow (xs : List (Node K)) (k i : Nat) (s : List (List (Node K)) × Table K) :
    Option (List (List (Node K)) × Table K) :=
  (modulateNodes 0 0 s.1 xs).map fun (real, imag, Anode) =>
    (Anode, tableAppend { s.2 with norm := s.2.norm + (real * real + imag * imag) }
      ⟨i, k, real, imag⟩)

def modulate (sqrt : K → K) (mytable mycarriers myipSig : Table K) : Option (Table K) := do
  let mytable ← (List.range' 0 myipSig.columns).foldlM (fun t k =>
    ((List.range' 0 mycarriers.rows).foldlM (fun s i => modulateRow (myipSig.column k) k i s)
      ((List.range mycarriers.columns).map mycarriers.column, t)).map Prod.snd) mytable
  some { mytable with norm := sqrt mytable.norm }

end Source

section Rows

theorem columnNodes_succ (f : Nat → K × K) (c n : Nat) :
    (columnNodes c fun i : Fin (n + 1) => f i) =
      (columnNodes c fun i : Fin n => f i) ++ [⟨n, c, (f n).1, (f n).2⟩] := by
  unfold columnNodes
  rw [List.ofFn_succ_last]
  rfl

theorem append_rows (f : Nat → K × K) (t : Table K) (j n : Nat) :
    (List.range n).foldl (fun t i => tableAppend t ⟨i, j, (f i).1, (f i).2⟩) t =
      { t with
        column := Function.update t.column j
          (t.column j ++ columnNodes j fun i : Fin n => f i) } := by
  induction n with
  | zero => simp [columnNodes]
  | succ n ih =>
    rw [List.range_succ, List.foldl_append, ih, columnNodes_succ]
    simp [tableAppend]

/-- A table that is filled column after column, each from its first row to its last. -/
theorem append_columns (f : Nat → Nat → K × K) (t : Table K) (m n : Nat) :
    (List.range m).foldl (fun t j =>
      (List.range n).foldl (fun t i => tableAppend t ⟨i, j, (f i j).1, (f i j).2⟩) t) t =
      { t with
        column := fun j =>
          if j < m then t.column j ++ columnNodes j fun i : Fin n => f i j else t.column j } := by
  induction m with
  | zero => simp
  | succ m ih =>
    rw [List.range_succ, List.foldl_append, ih, List.foldl_cons, List.foldl_nil,
      append_rows fun i => f i m]
    congr 1
    funext j
    by_cases hj : j = m
    · subst hj
      simp
    · have hiff : j < m + 1 ↔ j < m := by omega
      simp [hj, hiff]

end Rows

/-- What a node holds of a complex number. -/
def parts (z : ℂ) : ℝ × ℝ := (z.re, z.im)

/-- A table that holds a matrix, with a node for every row in order in each column. -/
structure Dense {p q : Nat} (t : Table ℝ) (M : Matrix (Fin p) (Fin q) ℂ) : Prop where
  rows : t.rows = p
  columns : t.columns = q
  column : ∀ c : Fin q, t.column c = columnNodes c fun k => parts (M k c)

theorem columnNodes_inj {n c : Nat} {v w : Fin n → ℂ} :
    (columnNodes c fun k => parts (v k)) = (columnNodes c fun k => parts (w k)) ↔ v = w := by
  unfold columnNodes parts
  rw [List.ofFn_inj]
  constructor
  · intro h
    funext k
    have hk := congrFun h k
    simp only [Node.mk.injEq, true_and] at hk
    exact Complex.ext hk.1 hk.2
  · rintro rfl
    rfl

def tableOf {p q : Nat} (M : Matrix (Fin p) (Fin q) ℂ) : Table ℝ where
  rows := p
  columns := q
  norm := 0
  column c := if h : c < q then columnNodes c fun k => parts (M k ⟨c, h⟩) else []

theorem tableOf_dense {p q : Nat} (M : Matrix (Fin p) (Fin q) ℂ) : Dense (tableOf M) M := by
  refine ⟨rfl, rfl, fun c => ?_⟩
  simp [tableOf]

theorem Dense.iff_eq {p q : Nat} {t : Table ℝ} {M N : Matrix (Fin p) (Fin q) ℂ}
    (held : Dense t M) : Dense t N ↔ M = N := by
  constructor
  · intro h
    ext i c
    have hc := (held.column c).symm.trans (h.column c)
    exact congrFun (columnNodes_inj.mp hc) i
  · rintro rfl
    exact held

def value (mynode : Node ℝ) : ℂ := ⟨mynode.real, mynode.imag⟩

@[simp] theorem value_parts {r c : Nat} {z : ℂ} : value ⟨r, c, (parts z).1, (parts z).2⟩ = z := rfl

@[simp] theorem parts_fst {z : ℂ} : (parts z).1 = z.re := rfl

@[simp] theorem parts_snd {z : ℂ} : (parts z).2 = z.im := rfl

theorem sum_zipWith_columnNodes {n a b : Nat} (op : Node ℝ → Node ℝ → ℂ) (v w : Fin n → ℂ) :
    (List.zipWith op (columnNodes a fun k => parts (v k))
        (columnNodes b fun k => parts (w k))).sum =
      ∑ k : Fin n, op ⟨k, a, (v k).re, (v k).im⟩ ⟨k, b, (w k).re, (w k).im⟩ := by
  have hzip : List.zipWith op (columnNodes a fun k => parts (v k))
      (columnNodes b fun k => parts (w k)) =
      List.ofFn fun k => op ⟨k, a, (v k).re, (v k).im⟩ ⟨k, b, (w k).re, (w k).im⟩ := by
    apply List.ext_getElem
    · simp
    · intro k h1 h2
      simp
  rw [hzip, List.sum_ofFn]

end ListTables

end TcpAndParallel
