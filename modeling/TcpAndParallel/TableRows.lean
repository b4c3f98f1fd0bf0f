import Mathlib.LinearAlgebra.Matrix.RowCol
import TcpAndParallel.Runs
import TcpAndParallel.TablePointers

namespace TcpAndParallel

namespace TablePointers

open NodeTables (Node)

variable {α K : Type*}

section Source

variable [DecidableEq α]

def nodeCopy (m : Memory α K) (newnode mynode : α) : Memory α K :=
  let old := m.node mynode
  nodeInit m newnode old.real old.imag old.row old.col

/-- The whole of a cell, with its link. -/
def memcpy (m : Memory α K) (dest src : α) : Memory α K where
  next := Function.update m.next dest (m.next src)
  node := Function.update m.node dest (m.node src)

/-- `while (mynode != NULL)` of `copy_row_from_table`, for so many rounds at most. -/
def copyFromColumn (row : Nat) (entry : α) : Nat → Option α → Memory α K → Option (Memory α K)
  | _, none, m => some m
  | 0, some _, _ => none
  | fuel + 1, some mynode, m =>
    if (m.node mynode).row = row then some (nodeCopy m entry mynode)
    else copyFromColumn row entry fuel (m.next mynode) m

def copyRowFromTable (fuel : Nat) (array : Nat → α) (m : Memory α K) (mytable : Table α)
    (row : Nat) : Option (Memory α K) :=
  (List.range' 0 mytable.columns).foldlM (fun m i =>
    copyFromColumn row (array i) fuel (mytable.head i) m) m

/-- `while (mynode != NULL)` of `copy_row_to_table`. -/
def copyToColumn (row : Nat) (entry : α) : Nat → Option α → Memory α K → Option (Memory α K)
  | _, none, m => some m
  | 0, some _, _ => none
  | fuel + 1, some mynode, m =>
    if (m.node mynode).row = row then
      let next := m.next mynode
      let m := memcpy m mynode entry
      some { m with next := Function.update m.next mynode next }
    else copyToColumn row entry fuel (m.next mynode) m

def copyRowToTable (fuel : Nat) (m : Memory α K) (mytable : Table α) (array : Nat → α)
    (row : Nat) : Option (Memory α K) :=
  (List.range' 0 mytable.columns).foldlM (fun m i =>
    copyToColumn row (array i) fuel (mytable.head i) m) m

end Source

/-- `m'` has the row `r` with the values `v` in the cells `place`, and all else as in `m`. -/
structure RowWritten {q : Nat} (place : Nat → α) (r : Nat) (v : Fin q → K × K)
    (m m' : Memory α K) : Prop where
  next : m'.next = m.next
  row : ∀ c : Fin q, m'.node (place c) = ⟨r, c, (v c).1, (v c).2⟩
  others : ∀ x, (∀ c : Fin q, place c ≠ x) → m'.node x = m.node x

section Columns

variable [DecidableEq α] {m : Memory α K} {row : Nat} {entry : α} {p : Option α} {xs : List α}
  {fuel : Nat}

theorem copyFromColumn_eq (chain : Chain m.next p xs) (enough : xs.length ≤ fuel) :
    copyFromColumn row entry fuel p m =
      some (((xs.find? fun x => (m.node x).row = row).map (nodeCopy m entry)).getD m) := by
  induction xs generalizing p fuel with
  | nil =>
    have hp : p = none := chain
    subst hp
    cases fuel <;> rfl
  | cons x xs ih =>
    obtain ⟨rfl, hrest⟩ := chain
    obtain ⟨fuel, rfl⟩ : ∃ n, fuel = n + 1 := ⟨fuel - 1, by simp at enough; omega⟩
    rw [copyFromColumn, List.find?_cons]
    by_cases hrow : (m.node x).row = row
    · rw [if_pos hrow]
      simp [hrow]
    · rw [if_neg hrow, ih hrest (by simpa using enough)]
      simp [hrow]

theorem copyFromColumn_find (chain : Chain m.next p xs) (enough : xs.length ≤ fuel) :
    ∃ m', copyFromColumn row entry fuel p m = some m' ∧ m'.next = m.next ∧
      m'.node entry =
        ((xs.map m.node).find? fun node => node.row = row).getD (m.node entry) := by
  refine ⟨_, copyFromColumn_eq chain enough, ?_, ?_⟩
  · cases xs.find? fun x => (m.node x).row = row <;> rfl
  · rw [List.find?_map, Function.comp_def]
    cases xs.find? fun x => (m.node x).row = row with
    | none => rfl
    | some x => exact Function.update_self ..

/-- The link of the node that is written is put back. -/
theorem copyToColumn_eq (chain : Chain m.next p xs) (enough : xs.length ≤ fuel) :
    copyToColumn row entry fuel p m =
      some (((xs.find? fun x => (m.node x).row = row).map fun x =>
        { m with node := Function.update m.node x (m.node entry) }).getD m) := by
  induction xs generalizing p fuel with
  | nil =>
    have hp : p = none := chain
    subst hp
    cases fuel <;> rfl
  | cons x xs ih =>
    obtain ⟨rfl, hrest⟩ := chain
    obtain ⟨fuel, rfl⟩ : ∃ n, fuel = n + 1 := ⟨fuel - 1, by simp at enough; omega⟩
    rw [copyToColumn, List.find?_cons]
    by_cases hrow : (m.node x).row = row
    · rw [if_pos hrow]
      simp [hrow, memcpy]
    · rw [if_neg hrow, ih hrest (by simpa using enough)]
      simp [hrow]

theorem copyToNode_map {node : α → Node K} (e : Node K) (nodup : xs.Nodup) :
    NodeTables.copyToNode (fun _ e => e) (some e) row (xs.map node) =
      some (xs.map (((xs.find? fun x => (node x).row = row).map fun x =>
        Function.update node x e).getD node)) := by
  unfold NodeTables.copyToNode
  rw [List.findIdx?_map]
  cases hidx : xs.findIdx? fun x => decide ((node x).row = row) with
  | none =>
    have hfind : (xs.find? fun x => (node x).row = row) = none := by
      rw [List.find?_eq_none]
      simpa using List.findIdx?_eq_none_iff.mp hidx
    rw [hfind, Function.comp_def, hidx]
    rfl
  | some k =>
    obtain ⟨hk, hrow, hbefore⟩ := List.findIdx?_eq_some_iff_getElem.mp hidx
    have hfind : (xs.find? fun x => (node x).row = row) = some xs[k] :=
      List.find?_eq_some_iff_getElem.mpr ⟨hrow, k, hk, rfl, fun j hj => by simpa using hbefore j hj⟩
    rw [hfind, Function.comp_def, hidx]
    simp only [Option.map_some, Option.getD_some, Option.some.injEq]
    apply List.ext_getElem
    · simp
    · intro i h1 h2
      have hi : i < xs.length := by simpa using h2
      rw [List.getElem_modify, List.getElem_map, List.getElem_map]
      by_cases hki : k = i
      · subst hki
        rw [if_pos rfl, Function.update_self]
      · have hne : xs[i] ≠ xs[k] := fun he => hki (nodup.getElem_inj_iff.mp he).symm
        rw [if_neg hki, Function.update_of_ne hne]

theorem copyToColumn_copyToNode (chain : Chain m.next p xs) (enough : xs.length ≤ fuel) :
    ∃ m', copyToColumn row entry fuel p m = some m' ∧ m'.next = m.next ∧
      NodeTables.copyToNode (fun _ e => e) (some (m.node entry)) row (xs.map m.node) =
        some (xs.map m'.node) := by
  refine ⟨_, copyToColumn_eq chain enough, ?_, ?_⟩
  · cases xs.find? fun x => (m.node x).row = row <;> rfl
  · rw [copyToNode_map (m.node entry) chain.nodup]
    cases xs.find? fun x => (m.node x).row = row <;> rfl

end Columns

section Rows

variable [DecidableEq α] {p q : Nat} {m m' : Memory α K} {t : Table α}
  {M : Matrix (Fin p) (Fin q) (K × K)} {cell : Nat → Nat → α} {array : Nat → α} {fuel : Nat}

omit [DecidableEq α] in
theorem find_cells {cell : Nat → α} {r : Nat} (hr : r < p)
    (rows : ∀ j, j < p → (m.node (cell j)).row = j) :
    (((List.range p).map cell).find? fun x => (m.node x).row = r) = some (cell r) := by
  have hfirst : ((List.range p).find? fun j => decide ((m.node (cell j)).row = r)) = some r := by
    refine List.find?_range_eq_some.mpr ⟨by simp [rows r hr], List.mem_range.mpr hr, fun j hj => ?_⟩
    rw [rows j (by omega)]
    simpa using hj.ne
  rw [List.find?_map, Function.comp_def, hfirst]
  rfl

omit [DecidableEq α] in
theorem Holds.cell_inj (held : Holds m t M cell) {c c' : Fin q} {j j' : Fin p}
    (h : cell c j = cell c' j') : c = c' ∧ j = j' := by
  have hnode := congrArg m.node h
  rw [held.nodes j c, held.nodes j' c'] at hnode
  exact ⟨Fin.ext (congrArg Node.col hnode), Fin.ext (congrArg Node.row hnode)⟩

omit [DecidableEq α] in
theorem Holds.beside (held : Holds m t M cell) {r : Nat} {v : Fin q → K × K}
    (apart : ∀ (i c : Fin q) (j : Fin p), array i ≠ cell c j) (h : RowWritten array r v m m') :
    Holds m' t M cell := by
  refine ⟨held.rows, held.columns, ⟨?_, held.lists.tail, held.lists.apart⟩, fun j c => ?_⟩
  · rw [h.next]
    exact held.lists.chain
  · rw [h.others _ fun i => apart i c j]
    exact held.nodes j c

omit [DecidableEq α] in
theorem Holds.updateRow (held : Holds m t M cell) {r : Fin p} {v : Fin q → K × K}
    (h : RowWritten (fun c => cell c r) r v m m') : Holds m' t (M.updateRow r v) cell := by
  refine ⟨held.rows, held.columns, ⟨?_, held.lists.tail, held.lists.apart⟩, fun j c => ?_⟩
  · rw [h.next]
    exact held.lists.chain
  · by_cases hj : j = r
    · subst hj
      rw [Matrix.updateRow_self]
      exact h.row c
    · rw [Matrix.updateRow_ne hj, h.others, held.nodes j c]
      intro c' he
      exact hj (held.cell_inj he).2.symm

omit [DecidableEq α] in
theorem RowWritten.eq_self {place : Nat → α} {r : Nat} {v : Fin q → K × K}
    (h : RowWritten place r v m m')
    (same : ∀ c : Fin q, m.node (place c) = ⟨r, c, (v c).1, (v c).2⟩) : m' = m := by
  have hnode : m'.node = m.node := by
    funext x
    by_cases hx : ∃ c : Fin q, place c = x
    · obtain ⟨c, rfl⟩ := hx
      rw [h.row c, same c]
    · exact h.others x fun c hc => hx ⟨c, hc⟩
  cases m
  cases m'
  exact Memory.mk.injEq .. ▸ ⟨h.next, hnode⟩

structure RowPart (place : Nat → α) (r : Nat) (v : Fin q → K × K) (i : Nat)
    (m m' : Memory α K) : Prop where
  next : m'.next = m.next
  row : ∀ c : Fin q, (c : Nat) < i → m'.node (place c) = ⟨r, c, (v c).1, (v c).2⟩
  others : ∀ x, (∀ c : Fin q, (c : Nat) < i → place c ≠ x) → m'.node x = m.node x

section Parts

variable {place : Nat → α} {r : Nat} {v : Fin q → K × K}

omit [DecidableEq α] in
theorem RowPart.start (place : Nat → α) (r : Nat) (v : Fin q → K × K) (m : Memory α K) :
    RowPart place r v 0 m m :=
  ⟨rfl, fun _ hc => absurd hc (Nat.not_lt_zero _), fun _ _ => rfl⟩

omit [DecidableEq α] in
theorem RowPart.written (h : RowPart place r v q m m') : RowWritten place r v m m' :=
  ⟨h.next, fun c => h.row c c.isLt, fun x hx => h.others x fun c _ => hx c⟩

theorem RowPart.step {i : Fin q} (h : RowPart place r v i m m')
    (inj : ∀ c c' : Fin q, place c = place c' → c = c') :
    RowPart place r v (i + 1) m
      { m' with node := Function.update m'.node (place i) ⟨r, i, (v i).1, (v i).2⟩ } := by
  refine ⟨h.next, fun c hc => ?_, fun x hx => ?_⟩
  · by_cases hci : c = i
    · subst hci
      exact Function.update_self ..
    · have hne : place c ≠ place i := fun he => hci (inj c i he)
      have hlt : (c : Nat) < i := by
        have hval : (c : Nat) ≠ i := fun he => hci (Fin.ext he)
        omega
      exact (Function.update_of_ne hne _ _).trans (h.row c hlt)
  · have hne : x ≠ place i := (hx i (Nat.lt_succ_self _)).symm
    refine (Function.update_of_ne hne _ _).trans (h.others x fun c hc => hx c ?_)
    omega

end Parts

theorem copyRowFromTable_written (held : Holds m t M cell)
    (inj : ∀ c c' : Fin q, array c = array c' → c = c')
    (apart : ∀ (i c : Fin q) (j : Fin p), array i ≠ cell c j) (r : Fin p) (enough : p ≤ fuel) :
    ∃ m', copyRowFromTable fuel array m t r = some m' ∧ RowWritten array r (M r) m m' := by
  have hpass : ∀ (i : Fin q) s, RowPart array r (M r) i m s →
      ∃ s', copyFromColumn r (array i) fuel (t.head i) s = some s' ∧
        RowPart array r (M r) (i + 1) m s' := by
    intro i s h
    have hnode : ∀ j : Fin p, s.node (cell i j) = m.node (cell i j) :=
      fun j => h.others _ fun c _ => apart c i j
    have hrows : ∀ j, j < p → (s.node (cell i j)).row = j := by
      intro j hj
      rw [hnode ⟨j, hj⟩, held.nodes ⟨j, hj⟩ i]
    have hchain := held.lists.chain i (by rw [held.columns]; exact i.isLt)
    rw [← h.next] at hchain
    refine ⟨_, copyFromColumn_eq hchain (by simpa using enough), ?_⟩
    rw [find_cells r.isLt hrows, Option.map_some, Option.getD_some]
    have hcopy : nodeCopy s (array i) (cell i r) =
        { s with node := Function.update s.node (array i) ⟨r, i, (M r i).1, (M r i).2⟩ } := by
      rw [← held.nodes r i, ← hnode r]
      rfl
    rw [hcopy]
    exact h.step inj
  obtain ⟨m', hm', h⟩ := exists_foldlM_zero
    (fun i s => copyFromColumn r (array i) fuel (t.head i) s)
    (fun i s => RowPart array r (M r) i m s) (.start array r (M r) m) hpass
  refine ⟨m', ?_, h.written⟩
  rw [copyRowFromTable, held.columns]
  exact hm'

theorem copyRowToTable_written (held : Holds m t M cell) {r : Fin p} {v : Fin q → K × K}
    (apart : ∀ (i c : Fin q) (j : Fin p), array i ≠ cell c j)
    (row : ∀ c : Fin q, m.node (array c) = ⟨r, c, (v c).1, (v c).2⟩) (enough : p ≤ fuel) :
    ∃ m', copyRowToTable fuel m t array r = some m' ∧
      RowWritten (fun c => cell c r) r v m m' := by
  have hpass : ∀ (i : Fin q) s, RowPart (fun c => cell c r) r v i m s →
      ∃ s', copyToColumn r (array i) fuel (t.head i) s = some s' ∧
        RowPart (fun c => cell c r) r v (i + 1) m s' := by
    intro i s h
    have hrows : ∀ j, j < p → (s.node (cell i j)).row = j := by
      intro j hj
      rw [h.others, held.nodes ⟨j, hj⟩ i]
      intro c hc he
      have hplace : cell c r = cell i (Fin.mk j hj) := he
      have hci := (held.cell_inj hplace).1
      omega
    have hentry : s.node (array i) = ⟨r, i, (v i).1, (v i).2⟩ := by
      rw [h.others _ fun c _ => (apart i c r).symm, row i]
    have hchain := held.lists.chain i (by rw [held.columns]; exact i.isLt)
    rw [← h.next] at hchain
    refine ⟨_, copyToColumn_eq hchain (by simpa using enough), ?_⟩
    rw [find_cells r.isLt hrows, Option.map_some, Option.getD_some, hentry]
    exact h.step fun c c' he => (held.cell_inj he).1
  obtain ⟨m', hm', h⟩ := exists_foldlM_zero
    (fun i s => copyToColumn r (array i) fuel (t.head i) s)
    (fun i s => RowPart (fun c => cell c r) r v i m s) (.start (fun c => cell c r) r v m) hpass
  refine ⟨m', ?_, h.written⟩
  rw [copyRowToTable, held.columns]
  exact hm'

/-- What is written back after any change of the values is the row with these values, in the cells
it was in, and nothing else; without a change all is as it was. -/
theorem copyRow_writeBack (held : Holds m t M cell)
    (inj : ∀ c c' : Fin q, array c = array c' → c = c')
    (apart : ∀ (i c : Fin q) (j : Fin p), array i ≠ cell c j) (r : Fin p) (enough : p ≤ fuel) :
    ∃ m₁, copyRowFromTable fuel array m t r = some m₁ ∧ RowWritten array r (M r) m m₁ ∧
      (∀ v m₂, RowWritten array r v m₁ m₂ →
        ∃ m₃, copyRowToTable fuel m₂ t array r = some m₃ ∧
          RowWritten (fun c => cell c r) r v m₂ m₃ ∧ Holds m₃ t (M.updateRow r v) cell) ∧
      copyRowToTable fuel m₁ t array r = some m₁ := by
  obtain ⟨m₁, hcopy, hwritten⟩ := copyRowFromTable_written held inj apart r enough
  have held₁ := held.beside apart hwritten
  refine ⟨m₁, hcopy, hwritten, fun v m₂ hchanged => ?_, ?_⟩
  · have held₂ := held₁.beside apart hchanged
    obtain ⟨m₃, hback, hrow⟩ := copyRowToTable_written held₂ apart hchanged.row enough
    exact ⟨m₃, hback, hrow, held₂.updateRow hrow⟩
  · obtain ⟨m₃, hback, hrow⟩ := copyRowToTable_written held₁ apart hwritten.row enough
    rw [hback, hrow.eq_self (held₁.nodes r)]

def columnMemory : Memory Nat ℤ :=
  ⟨fun x => if x = 0 then some 1 else none, fun x => ⟨x, 0, x + 1, 0⟩⟩

def columnTable : Table Nat := ⟨2, 1, fun _ => some 0, fun _ => some 1⟩

def columnMatrix : Matrix (Fin 2) (Fin 1) (ℤ × ℤ) := !![(1, 0); (2, 0)]

theorem columnTable_holds : Holds columnMemory columnTable columnMatrix fun _ r => r := by
  refine ⟨rfl, rfl, ⟨fun c _ => ⟨rfl, rfl, rfl⟩, fun c _ => rfl, fun c c' hc hc' hne => ?_⟩,
    fun r c => ?_⟩
  · have hone : c < 1 ∧ c' < 1 := ⟨hc, hc'⟩
    omega
  · fin_cases c
    fin_cases r <;> rfl

/-- Its second row, by way of the cell 2. -/
theorem copyRow_writeBack_second :
    ∃ m₁, copyRowFromTable 2 (fun _ => 2) columnMemory columnTable (Fin.last 1) = some m₁ ∧
      RowWritten (fun _ => 2) (Fin.last 1) (columnMatrix (Fin.last 1)) columnMemory m₁ ∧
      (∀ v m₂, RowWritten (fun _ => 2) (Fin.last 1) v m₁ m₂ →
        ∃ m₃, copyRowToTable 2 m₂ columnTable (fun _ => 2) (Fin.last 1) = some m₃ ∧
          RowWritten (fun _ => 1) (Fin.last 1) v m₂ m₃ ∧
          Holds m₃ columnTable (columnMatrix.updateRow (Fin.last 1) v) fun _ r => r) ∧
      copyRowToTable 2 m₁ columnTable (fun _ => 2) (Fin.last 1) = some m₁ :=
  copyRow_writeBack columnTable_holds (fun _ _ _ => Subsingleton.elim _ _)
    (fun _ _ j => by omega) (Fin.last 1) (by decide)

end Rows

end TablePointers

end TcpAndParallel
