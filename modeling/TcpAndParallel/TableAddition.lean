import TcpAndParallel.ListTables

namespace TcpAndParallel

namespace ListTables

open NodeTables

section Source

variable {K : Type*}

def headAt (mytable : Table K) (k : Nat) : Option (List (Node K)) :=
  if k < mytable.columns then some (mytable.column k) else none

/-- `table_append` into one of the columns that the table has. -/
def appendAt (mytable : Table K) (mynode : Node K) : Option (Table K) :=
  if mynode.col < mytable.columns then some (tableAppend mytable mynode) else none

variable [Add K]

/-- `while ( b != NULL && a != NULL )`, into the column `col`. -/
def addNodes (col : Nat) : List (Node K) → List (Node K) → Table K → Option (Table K)
  | a :: as, b :: bs, C =>
    (appendAt C ⟨a.row, col, a.real + b.real, a.imag + b.imag⟩).bind (addNodes col as bs)
  | _, _, C => some C

/-- The round for the column `j` of `B` in the block `i`. -/
def addColumn (oversampling : Nat) (A B : Table K) (i : Nat) (C : Table K) (j : Nat) :
    Option (Table K) := do
  let a ← headAt A (j + i * oversampling)
  let b ← headAt B j
  addNodes (i + j * oversampling) a b C

/-- `addition`; `none` where a table is used beyond its columns. -/
def addition (oversampling : Nat) (C A B : Table K) : Option (Table K) :=
  (List.range' 0 oversampling).foldlM (fun C i =>
    (List.range' 0 B.columns).foldlM (addColumn oversampling A B i) C) C

/-- Nothing is used beyond its columns, and every place of `C` gets one node. -/
def AddsOnce (oversampling : Nat) (C A B : Table K) : Prop :=
  ∃ C', addition oversampling C A B = some C' ∧ ∀ k, k < C.columns → ∀ i, i < C.rows →
    (C'.column k).countP (fun mynode => mynode.row = i ∧ mynode.col = k) = 1

end Source

section Columns

variable {p n col i : Nat}

def addNode (col : Nat) (a b : Node ℝ) : Node ℝ :=
  ⟨a.row, col, a.real + b.real, a.imag + b.imag⟩

theorem addNodes_eq (as bs : List (Node ℝ)) (C : Table ℝ) (h : col < C.columns) :
    addNodes col as bs C =
      some { C with
        column := Function.update C.column col
          (C.column col ++ List.zipWith (addNode col) as bs) } := by
  induction as generalizing bs C with
  | nil => simp [addNodes]
  | cons a as ih =>
    cases bs with
    | nil => simp [addNodes]
    | cons b bs =>
      rw [addNodes, appendAt, if_pos h, Option.bind_some, ih bs (tableAppend C _) h]
      simp [tableAppend, addNode]

theorem count_addNode (v : Fin n → ℝ × ℝ) (w : Fin p → ℝ × ℝ) (a b : Nat) (h : p ≤ n)
    (hi : i < p) :
    (List.zipWith (addNode col) (columnNodes a v) (columnNodes b w)).countP
      (fun mynode => mynode.row = i ∧ mynode.col = col) = 1 := by
  have hrows : (List.zipWith (addNode col) (columnNodes a v) (columnNodes b w)).map
      (fun mynode => (mynode.row, mynode.col)) = (List.range p).map fun r => (r, col) := by
    apply List.ext_getElem
    · simp [h]
    · intro k h1 h2
      simp [addNode]
  have hcount := congrArg (List.countP fun place => place.1 = i ∧ place.2 = col) hrows
  rw [List.countP_map, List.countP_map] at hcount
  refine hcount.trans ?_
  have hcomp : ((fun place : Nat × Nat => decide (place.1 = i ∧ place.2 = col)) ∘
      fun r => (r, col)) = fun r => decide (r = i) := by
    funext r
    simp
  have hone := List.count_eq_one_of_mem List.nodup_range (List.mem_range.mpr hi)
  rw [hcomp, ← hone, List.count_eq_countP]
  rfl

structure Added (p j : Nat) (C C' : Table ℝ) : Prop where
  columns : C'.columns = C.columns
  done : ∀ k, k < j → ∀ i, i < p →
    (C'.column k).countP (fun mynode => mynode.row = i ∧ mynode.col = k) = 1
  rest : ∀ k, j ≤ k → C'.column k = C.column k

theorem addition_once {c : Nat} {A B : Table ℝ} {M : Matrix (Fin (p * 1)) (Fin c) ℂ}
    {N : Matrix (Fin p) (Fin c) ℂ} (hA : Dense A M) (hB : Dense B N) :
    AddsOnce 1 (tableInit p (c * 1)) A B := by
  have hpass : ∀ (j : Fin c) C', Added p j (tableInit p (c * 1)) C' →
      ∃ D, addColumn 1 A B 0 C' j = some D ∧ Added p (j + 1) (tableInit p (c * 1)) D := by
    intro j C' hC'
    have hcol : 0 + (j : Nat) * 1 < C'.columns := by
      rw [hC'.columns]
      show 0 + (j : Nat) * 1 < c * 1
      omega
    have hheadA : headAt A (j + 0 * 1) = some (A.column j) := by
      rw [headAt, hA.columns, if_pos (by omega), Nat.zero_mul, Nat.add_zero]
    have hheadB : headAt B j = some (B.column j) := by
      rw [headAt, hB.columns, if_pos j.isLt]
    refine ⟨{ C' with
      column := Function.update C'.column j
        (C'.column j ++ List.zipWith (addNode j) (A.column j) (B.column j)) }, ?_, ?_⟩
    · unfold addColumn
      rw [hheadA, hheadB]
      simp only [Option.bind_eq_bind, Option.bind_some]
      rw [addNodes_eq _ _ C' hcol, Nat.zero_add, Nat.mul_one]
    · refine ⟨hC'.columns, fun k hk i hi => ?_, fun k hk => ?_⟩
      · rcases Nat.lt_succ_iff_lt_or_eq.mp hk with hlt | rfl
        · simp only
          rw [Function.update_of_ne (by omega)]
          exact hC'.done k hlt i hi
        · simp only
          rw [Function.update_self, hC'.rest j le_rfl, hA.column j, hB.column j]
          show List.countP _ ([] ++ _) = 1
          rw [List.nil_append]
          exact count_addNode _ _ j j (by omega) hi
      · simp only
        rw [Function.update_of_ne (by omega)]
        exact hC'.rest k (by omega)
  obtain ⟨C', hC', hadded⟩ := exists_foldlM_zero (s := tableInit p (c * 1))
    (fun j C => addColumn 1 A B 0 C j) (fun j C' => Added p j (tableInit p (c * 1)) C')
    ⟨rfl, fun k hk => absurd hk (Nat.not_lt_zero k), fun _ _ => rfl⟩ hpass
  refine ⟨C', ?_, fun k hk i hi => hadded.done k ?_ i hi⟩
  · show (List.range' 0 B.columns).foldlM (addColumn 1 A B 0) (tableInit p (c * 1)) >>= some = _
    rw [hB.columns, hC']
    rfl
  · have hcolumns : k < c * 1 := hk
    omega

/-- The last block of the last column is beyond the columns of `A` from two samples on. -/
theorem addition_within {s c : Nat} {A B C C' : Table ℝ} (hA : A.columns = c) (hB : B.columns = c)
    (h : addition s C A B = some C') : c = 0 ∨ s ≤ 1 := by
  by_contra hnot
  have hs : s - 1 ∈ List.range' 0 s := by
    rw [List.mem_range'_1]
    omega
  have hc : c - 1 ∈ List.range' 0 B.columns := by
    rw [List.mem_range'_1]
    omega
  obtain ⟨u, v, hblock⟩ := foldlM_some_of_mem h hs
  obtain ⟨u', v', hcolumn⟩ := foldlM_some_of_mem hblock hc
  obtain ⟨a, ha, -⟩ := Option.bind_eq_some_iff.mp hcolumn
  unfold headAt at ha
  split at ha
  next hlt =>
    have hprod : 1 ≤ (s - 1) * s := Nat.mul_pos (by omega) (by omega)
    omega
  next => cases ha

/-- `addition` of tables as `main` builds them stays within their columns, and fills the places of
`C`, only where there is no column or no oversampling. -/
theorem addition_iff {s c : Nat} {A B : Table ℝ} {M : Matrix (Fin (p * s)) (Fin c) ℂ}
    {N : Matrix (Fin p) (Fin c) ℂ} (hA : Dense A M) (hB : Dense B N) :
    AddsOnce s (tableInit p (c * s)) A B ↔ c = 0 ∨ s ≤ 1 := by
  constructor
  · rintro ⟨C', hC', -⟩
    exact addition_within hA.columns hB.columns hC'
  · intro h
    rcases h with rfl | h
    · -- without columns no table is used
      obtain ⟨C', hC', rfl⟩ := exists_foldlM_zero (n := s) (s := tableInit p (0 * s))
        (fun i C => (List.range' 0 B.columns).foldlM (addColumn s A B i) C)
        (fun _ C => C = tableInit p (0 * s)) rfl fun i C hC => ⟨C, by rw [hB.columns]; rfl, hC⟩
      refine ⟨tableInit p (0 * s), hC', fun k hk => ?_⟩
      have hcolumns : k < 0 * s := hk
      omega
    · rcases Nat.le_one_iff_eq_zero_or_eq_one.mp h with rfl | rfl
      · exact ⟨tableInit p (c * 0), rfl, fun k hk => absurd hk (Nat.not_lt_zero k)⟩
      · exact addition_once hA hB

theorem addition_single :
    AddsOnce 1 (tableInit 1 (1 * 1)) (tableOf (!![1] : Matrix (Fin (1 * 1)) (Fin 1) ℂ))
      (tableOf (!![1] : Matrix (Fin 1) (Fin 1) ℂ)) :=
  (addition_iff (tableOf_dense _) (tableOf_dense _)).mpr (.inr le_rfl)

/-- With the oversampling of the source, one column is too few already. -/
theorem addition_outside :
    ¬AddsOnce 2 (tableInit 1 (1 * 2)) (tableOf (!![1; 1] : Matrix (Fin (1 * 2)) (Fin 1) ℂ))
      (tableOf (!![1] : Matrix (Fin 1) (Fin 1) ℂ)) := by
  rintro ⟨C', hC', -⟩
  have hwithin := addition_within (c := 1) rfl rfl hC'
  omega

end Columns

end ListTables

end TcpAndParallel
