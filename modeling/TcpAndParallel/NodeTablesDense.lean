import Mathlib.Data.Matrix.Basic
import TcpAndParallel.NodeTables
import TcpAndParallel.Runs

namespace TcpAndParallel

namespace NodeTables

variable {K : Type*} {n : Nat}

/-- A column that has a node for every row, in order. -/
def columnNodes (c : Nat) (v : Fin n → K × K) : List (Node K) :=
  List.ofFn fun k => ⟨k, c, (v k).1, (v k).2⟩

def rowNodes (r : Nat) (v : Fin n → K × K) : List (Node K) :=
  List.ofFn fun c => ⟨r, c, (v c).1, (v c).2⟩

@[simp]
theorem length_columnNodes {c : Nat} {v : Fin n → K × K} : (columnNodes c v).length = n :=
  List.length_ofFn

@[simp]
theorem length_rowNodes {r : Nat} {v : Fin n → K × K} : (rowNodes r v).length = n :=
  List.length_ofFn

@[simp]
theorem getElem_columnNodes {c k : Nat} {v : Fin n → K × K} (h : k < (columnNodes c v).length) :
    (columnNodes c v)[k] = ⟨k, c, (v ⟨k, by simpa using h⟩).1, (v ⟨k, by simpa using h⟩).2⟩ :=
  List.getElem_ofFn h

@[simp]
theorem getElem_rowNodes {r c : Nat} {v : Fin n → K × K} (h : c < (rowNodes r v).length) :
    (rowNodes r v)[c] = ⟨r, c, (v ⟨c, by simpa using h⟩).1, (v ⟨c, by simpa using h⟩).2⟩ :=
  List.getElem_ofFn h

/-- A table that holds a dense matrix, rows in order in every column. -/
def Holds (m : Tables K) (t : TableId) (M : Matrix (Fin n) (Fin n) (K × K)) : Prop :=
  ∀ c : Fin n, m t c = columnNodes c fun k => M k c

def givenTables (M N : Matrix (Fin n) (Fin n) (K × K)) : Tables K := fun t c =>
  if h : c < n then
    match t with
    | .mytable => columnNodes c fun k => M k ⟨c, h⟩
    | .augment => columnNodes c fun k => N k ⟨c, h⟩
    | _ => []
  else []

theorem givenTables_mytable (M N : Matrix (Fin n) (Fin n) (K × K)) :
    Holds (givenTables M N) .mytable M := by
  intro c
  simp [givenTables]

theorem givenTables_augment (M N : Matrix (Fin n) (Fin n) (K × K)) :
    Holds (givenTables M N) .augment N := by
  intro c
  simp [givenTables]

/-- The table `t` is written, with a matrix, and no other. -/
structure Filled (m : Tables K) (t : TableId) (M : Matrix (Fin n) (Fin n) (K × K))
    (m' : Tables K) : Prop where
  holds : Holds m' t M
  frame : ∀ t', t' ≠ t → m' t' = m t'

theorem Filled.other {m m' : Tables K} {t t' : TableId} {M N : Matrix (Fin n) (Fin n) (K × K)}
    (h : Filled m t M m') (hne : t' ≠ t) (held : Holds m t' N) : Holds m' t' N := by
  intro c
  rw [h.frame t' hne]
  exact held c

def setColumns (m : Tables K) (t : TableId) (lo hi : Nat) (new : Nat → List (Node K)) : Tables K :=
  fun t' c => if t' = t ∧ lo ≤ c ∧ c < hi then new c else m t' c

theorem setColumns_self (m : Tables K) (t : TableId) (lo : Nat) (new : Nat → List (Node K)) :
    setColumns m t lo lo new = m := by
  funext t' c
  unfold setColumns
  rw [if_neg]
  omega

theorem setColumn_setColumns {m : Tables K} {t : TableId} {lo i : Nat}
    {new : Nat → List (Node K)} (hle : lo ≤ i) :
    setColumn (setColumns m t lo i new) t i (new i) = setColumns m t lo (i + 1) new := by
  funext t' c
  unfold setColumn setColumns
  by_cases ht : t' = t
  · subst ht
    by_cases hc : c = i
    · subst hc
      simp [hle]
    · have hiff : c < i ↔ c < i + 1 := by omega
      simp [Function.update_of_ne hc, hiff]
  · simp [ht]

theorem forColumns_columns {lo hi : Nat} {t : TableId}
    {body : Nat → Tables K → Option (Tables K)} {m : Tables K} (new : Nat → List (Node K))
    (hle : lo ≤ hi)
    (pass : ∀ i m', lo ≤ i → i < hi → (∀ t', t' ≠ t → m' t' = m t') →
      (∀ c, i ≤ c → m' t c = m t c) → body i m' = some (setColumn m' t i (new i))) :
    forColumns lo hi body m = some (setColumns m t lo hi new) := by
  have hloop : ∃ m', forColumns lo hi body m = some m' ∧ m' = setColumns m t lo hi new := by
    apply exists_foldlM_range (fun i m' => m' = setColumns m t lo i new) hle
      (setColumns_self m t lo new).symm
    rintro i m' h1 h2 rfl
    refine ⟨_, pass i _ h1 h2 (fun t' ht => ?_) (fun c hc => ?_), setColumn_setColumns h1⟩
    · funext c
      simp [setColumns, ht]
    · unfold setColumns
      rw [if_neg]
      omega
  obtain ⟨m', hm, rfl⟩ := hloop
  exact hm

theorem filled_setColumns {m : Tables K} {t : TableId} {lo hi : Nat}
    {new : Nat → List (Node K)} {M : Matrix (Fin n) (Fin n) (K × K)}
    (inside : ∀ c : Fin n, lo ≤ c.val → c.val < hi → new c = columnNodes c fun k => M k c)
    (outside : ∀ c : Fin n, c.val < lo ∨ hi ≤ c.val → m t c = columnNodes c fun k => M k c) :
    Filled m t M (setColumns m t lo hi new) := by
  refine ⟨fun c => ?_, fun t' ht => ?_⟩
  · unfold setColumns
    split
    next h => exact inside c h.2.1 h.2.2
    next h =>
      apply outside
      by_contra hno
      exact h ⟨rfl, by omega, by omega⟩
  · funext c
    simp [setColumns, ht]

/-- The rule for the loops over columns: where each pass writes the column of a matrix, the table
holds the matrix afterwards. -/
theorem forColumns_filled {lo hi : Nat} {t : TableId} {body : Nat → Tables K → Option (Tables K)}
    {m : Tables K} {M : Matrix (Fin n) (Fin n) (K × K)} (hle : lo ≤ hi) (hn : hi ≤ n)
    (outside : ∀ c : Fin n, c.val < lo ∨ hi ≤ c.val → m t c = columnNodes c fun k => M k c)
    (pass : ∀ (c : Fin n) m', lo ≤ c.val → c.val < hi → (∀ t', t' ≠ t → m' t' = m t') →
      m' t c = m t c → body c m' = some (setColumn m' t c (columnNodes c fun k => M k c))) :
    ∃ m', forColumns lo hi body m = some m' ∧ Filled m t M m' := by
  let new : Nat → List (Node K) := fun i =>
    if h : i < n then columnNodes i fun k => M k ⟨i, h⟩ else []
  have hnew : ∀ c : Fin n, new c = columnNodes c fun k => M k c := by
    intro c
    simp [new]
  refine ⟨setColumns m t lo hi new, forColumns_columns new hle ?_,
    filled_setColumns (fun c _ _ => hnew c) outside⟩
  intro i m' h1 h2 hother hsame
  have hlt : i < n := by omega
  have hpass := pass ⟨i, hlt⟩ m' h1 h2 hother (hsame i le_rfl)
  rw [← hnew] at hpass
  exact hpass

section Rows

variable {m : Tables K} {t : TableId} {M : Matrix (Fin n) (Fin n) (K × K)} {r : Fin n}

theorem find_columnNodes {c : Nat} {v : Fin n → K × K} :
    (columnNodes c v).find? (fun node => node.row = r.val) = some ⟨r, c, (v r).1, (v r).2⟩ := by
  rw [List.find?_eq_some_iff_getElem]
  refine ⟨by simp, r, by simp, by simp, fun j hj => ?_⟩
  simp only [getElem_columnNodes]
  simp
  omega

theorem findIdx_columnNodes {c : Nat} {v : Fin n → K × K} :
    (columnNodes c v).findIdx? (fun node => node.row = r.val) = some r.val := by
  rw [List.findIdx?_eq_some_iff_getElem]
  refine ⟨by simp, by simp, fun j hj => ?_⟩
  simp only [getElem_columnNodes]
  simp
  omega

theorem copyRowFromTable_eq {array : List (Node K)} (held : Holds m t M)
    (hlength : array.length = n) : copyRowFromTable array m t r = rowNodes r (M r) := by
  unfold copyRowFromTable
  apply List.ext_getElem
  · simp [hlength]
  · intro c h1 h2
    have hc : c < n := by simpa using h2
    have hcol := held ⟨c, hc⟩
    dsimp only at hcol
    rw [List.getElem_mapIdx, hcol, find_columnNodes, getElem_rowNodes]
    rfl

/-- What is written to a node of the same place is the node of the array. -/
def WritesEntry (write : Node K → Node K → Node K) : Prop :=
  ∀ node entry : Node K, node.row = entry.row → node.col = entry.col → write node entry = entry

theorem copyToNode_columnNodes {write : Node K → Node K → Node K} (hwrite : WritesEntry write)
    {c : Nat} {v : Fin n → K × K} (x : K × K) :
    copyToNode write (some ⟨r, c, x.1, x.2⟩) r (columnNodes c v) =
      some (columnNodes c (Function.update v r x)) := by
  unfold copyToNode
  rw [findIdx_columnNodes]
  simp only [Option.map_some, Option.some.injEq]
  apply List.ext_getElem
  · simp
  · intro k h1 h2
    have hk : k < n := by simpa using h2
    rw [List.getElem_modify]
    simp only [getElem_columnNodes]
    by_cases hkr : r.val = k
    · subst hkr
      rw [if_pos rfl, hwrite _ _ (by rfl) (by rfl)]
      simp
    · have hne : (⟨k, hk⟩ : Fin n) ≠ r := fun h => hkr (congrArg Fin.val h).symm
      rw [if_neg hkr, Function.update_of_ne hne]

theorem copyRowToTable_filled {write : Node K → Node K → Node K} (hwrite : WritesEntry write)
    {v : Fin n → K × K} (held : Holds m t M) :
    ∃ m', copyRowToTable write n t (rowNodes r v) r m = some m' ∧
      Filled m t (fun k c => if k = r then v c else M k c) m' := by
  unfold copyRowToTable
  apply forColumns_filled (Nat.zero_le n) le_rfl
  · intro c hc
    have hlt := c.isLt
    omega
  · intro c m' _ _ _ hsame
    have hentry : (rowNodes r.val v)[c.val]? = some ⟨r, c, (v c).1, (v c).2⟩ := by
      rw [List.getElem?_eq_getElem (by simp), getElem_rowNodes]
    rw [hsame, held c, hentry, copyToNode_columnNodes hwrite (v c)]
    simp only [Option.map_some, Option.some.injEq]
    congr 2
    funext k
    simp only [Function.update_apply]

theorem foldl_update_places (nodes : List (Node K)) (s : Nat) (f : Nat → Option Nat)
    (rows : ∀ k (h : k < nodes.length), nodes[k].row = s + k) :
    (nodes.zipIdx s).foldl (fun (cnodes : Nat → Option Nat) x =>
      Function.update cnodes x.1.row (some x.2)) f =
      fun i => if s ≤ i ∧ i < s + nodes.length then some i else f i := by
  induction nodes generalizing s f with
  | nil =>
    funext i
    simp
  | cons node nodes ih =>
    have hhead : node.row = s := rows 0 (by simp)
    have htail : ∀ k (h : k < nodes.length), nodes[k].row = s + 1 + k := by
      intro k hk
      have hrow := rows (k + 1) (by simpa using hk)
      rw [List.getElem_cons_succ] at hrow
      omega
    rw [List.zipIdx_cons, List.foldl_cons, ih (s + 1) _ htail, hhead]
    funext i
    rw [List.length_cons]
    by_cases hi : i = s
    · have hin : s ≤ i ∧ i < s + (nodes.length + 1) := by omega
      have hout : ¬(s + 1 ≤ i ∧ i < s + 1 + nodes.length) := by omega
      rw [if_neg hout, if_pos hin, hi, Function.update_self]
    · have hiff : (s + 1 ≤ i ∧ i < s + 1 + nodes.length) ↔
          (s ≤ i ∧ i < s + (nodes.length + 1)) := by omega
      simp only [hiff, Function.update_of_ne hi]

theorem getColumnFromTable_eq (held : Holds m t M) (k : Fin n) :
    getColumnFromTable m t r k = some k.val := by
  unfold getColumnFromTable
  rw [held r, foldl_update_places]
  · simp
  · intro i hi
    simp

end Rows

section Subtrahends

variable {m : Tables K} {t : TableId} {S : Matrix (Fin n) (Fin n) (K × K)}

theorem zeroColumns_filled [Zero K] {hi : Nat} (hn : hi ≤ n) (held : Holds m t S) :
    ∃ m', zeroColumns t hi m = some m' ∧
      Filled m t (fun k c => if c.val < hi then 0 else S k c) m' := by
  unfold zeroColumns
  apply forColumns_filled (Nat.zero_le hi) hn
  · intro c hc
    rw [held c]
    have hge : ¬c.val < hi := by omega
    simp only [hge, if_false]
  · intro c m' _ hlt _ hsame
    rw [hsame, held c]
    simp only [hlt, if_true, Option.some.injEq]
    congr 1
    apply List.ext_getElem
    · simp
    · intro k h1 h2
      simp

theorem subtrahendNodes_eq {node : Node K → Node K → Option (Node K)} {xs ss : List (Node K)}
    (zs : List (Node K)) (hx : xs.length = zs.length) (hs : ss.length = zs.length)
    (nodes : ∀ k (h1 : k < xs.length) (h2 : k < ss.length) (h3 : k < zs.length),
      node xs[k] ss[k] = some zs[k]) : subtrahendNodes node xs ss = some zs := by
  induction xs generalizing ss zs with
  | nil =>
    obtain rfl := List.eq_nil_of_length_eq_zero hx.symm
    obtain rfl := List.eq_nil_of_length_eq_zero hs
    rfl
  | cons x xs ih =>
    obtain ⟨z, zs, rfl⟩ := List.exists_cons_of_length_pos (by rw [← hx]; simp : 0 < zs.length)
    obtain ⟨s, ss, rfl⟩ := List.exists_cons_of_length_pos (by rw [hs]; simp : 0 < ss.length)
    simp only [List.length_cons, Nat.add_right_cancel_iff] at hx hs
    have hhead := nodes 0 (by simp) (by simp) (by simp)
    have htail := ih zs hx hs fun k h1 h2 h3 => by
      have hnode := nodes (k + 1) (by simpa using h1) (by simpa using h2) (by simpa using h3)
      simpa only [List.getElem_cons_succ] using hnode
    simp only [List.getElem_cons_zero] at hhead
    simp [subtrahendNodes, hhead, htail]

/-- A product of nodes reads their values only. -/
def Multiplies (times : Node K → Node K → K × K) (op : K × K → K × K → K × K) : Prop :=
  ∀ c e : Node K, times c e = op (c.real, c.imag) (e.real, e.imag)

theorem subtrahend_filled [Zero K] {times : Node K → Node K → K × K}
    {op : K × K → K × K → K × K} (htimes : Multiplies times op) {lo hi : Nat} {r : Fin n}
    {s matrix : TableId} {A N : Matrix (Fin n) (Fin n) (K × K)} {v : Fin n → K × K}
    {cr : Nat → Option Nat} (hle : lo ≤ hi) (hn : hi ≤ n) (hst : t ≠ s) (hsm : matrix ≠ s)
    (held : Holds m s S) (shape : Holds m t N) (pivots : Holds m matrix A)
    (places : ∀ k : Fin n, cr k = some k.val) :
    ∃ m', subtrahend times lo hi r s t matrix cr (rowNodes r v) m = some m' ∧
      Filled m s (fun k c => if lo ≤ c.val ∧ c.val < hi then
        (if k = r then 0 else op (A k r) (v c)) else S k c) m' := by
  unfold subtrahend
  apply forColumns_filled hle hn
  · intro c hc
    rw [held c]
    have hout : ¬(lo ≤ c.val ∧ c.val < hi) := by omega
    simp only [hout, if_false]
  · intro c m' h1 h2 hother hsame
    have hin : lo ≤ c.val ∧ c.val < hi := ⟨h1, h2⟩
    rw [hother t hst, hother matrix hsm, hsame, held c, shape c, pivots r]
    simp only [hin, and_self, if_true]
    rw [subtrahendNodes_eq (columnNodes c fun k => if k = r then 0 else op (A k r) (v c))]
    · rfl
    · simp
    · simp
    · intro k hk1 hk2 hk3
      have hk : k < n := by simpa using hk3
      have hplace := places ⟨k, hk⟩
      dsimp only at hplace
      simp only [getElem_columnNodes]
      unfold subtrahendNode
      by_cases hkr : k = r.val
      · subst hkr
        simp
      · have hne : (⟨k, hk⟩ : Fin n) ≠ r := fun h => hkr (congrArg Fin.val h)
        have hentry : (rowNodes r.val v)[c.val]? = some ⟨r, c, (v c).1, (v c).2⟩ := by
          rw [List.getElem?_eq_getElem (by simp), getElem_rowNodes]
        have hpivot : (columnNodes r.val fun j => A j r)[k]? =
            some ⟨k, r, (A ⟨k, hk⟩ r).1, (A ⟨k, hk⟩ r).2⟩ := by
          rw [List.getElem?_eq_getElem (by simpa using hk), getElem_columnNodes]
        simp only [ne_eq, hkr, not_false_eq_true, if_true, hplace, Option.bind_some, hpivot, hentry,
          Option.map_some, htimes _ _, hne, if_false]

end Subtrahends

section Differences

variable [Sub K] {C A B : TableId} {m : Tables K}

def subNode (anode bnode : Node K) : Node K :=
  ⟨anode.row, anode.col, anode.real - bnode.real, anode.imag - bnode.imag⟩

/-- The walk down one column: the nodes before `k` are done, and those of `A` from `k` on are as
they were, even where they are the nodes of `C`. -/
theorem subNodes_eq {i L : Nat} {as bs : List (Node K)} (hb : B ≠ C) (ha : as.length = L)
    (hbl : bs.length = L) (fuel k : Nat) (m : Tables K) (hk : k + fuel = L)
    (hc : (m C i).length = L) (hbs : m B i = bs) (rest : ∀ j, k ≤ j → (m A i)[j]? = as[j]?)
    (done : ∀ j, j < k → (m C i)[j]? = (List.zipWith subNode as bs)[j]?) :
    subNodes C A B i fuel k m = some (setColumn m C i (List.zipWith subNode as bs)) := by
  induction fuel generalizing k m with
  | zero =>
    have hall : m C i = List.zipWith subNode as bs := by
      apply List.ext_getElem?
      intro j
      by_cases hj : j < k
      · exact done j hj
      · rw [List.getElem?_eq_none (by omega), List.getElem?_eq_none (by simp; omega)]
    rw [← hall]
    simp [subNodes, setColumn]
  | succ fuel ih =>
    obtain ⟨a, hak⟩ : ∃ a, as[k]? = some a := ⟨_, List.getElem?_eq_getElem (by omega)⟩
    obtain ⟨b, hbk⟩ : ∃ b, bs[k]? = some b := ⟨_, List.getElem?_eq_getElem (by omega)⟩
    obtain ⟨c, hck⟩ : ∃ c, (m C i)[k]? = some c := ⟨_, List.getElem?_eq_getElem (by omega)⟩
    unfold subNodes
    rw [rest k le_rfl, hbs, hak, hbk, hck]
    dsimp only
    have hset : ∀ node, setColumn m C i ((m C i).set k node) C i = (m C i).set k node := by
      simp [setColumn]
    rw [ih (k + 1)]
    · simp [setColumn]
    · omega
    · rw [hset, List.length_set, hc]
    · simp [setColumn, Function.update_of_ne hb, hbs]
    · intro j hj
      by_cases hac : A = C
      · subst hac
        rw [hset, List.getElem?_set_ne (by omega), rest j (by omega)]
      · rw [← rest j (by omega)]
        simp [setColumn, Function.update_of_ne hac]
    · intro j hj
      rw [hset]
      by_cases hjk : j = k
      · subst hjk
        rw [List.getElem?_set_self (by omega), List.getElem?_zipWith, hak, hbk]
        rfl
      · rw [List.getElem?_set_ne (by omega), done j (by omega)]

theorem tableSub_filled {M N P : Matrix (Fin n) (Fin n) (K × K)} (hb : B ≠ C)
    (minuend : Holds m A M) (subtrahend : Holds m B N) (shape : Holds m C P) :
    ∃ m', tableSub n C A B m = some m' ∧ Filled m C (fun k c => M k c - N k c) m' := by
  unfold tableSub
  apply forColumns_filled (Nat.zero_le n) le_rfl
  · intro c hc
    have hlt := c.isLt
    omega
  · intro c m' _ _ hother hsame
    have hac : m' A c = columnNodes c fun k => M k c := by
      rw [← minuend c]
      by_cases hac : A = C
      · rw [hac, hsame]
      · rw [hother A hac]
    have hbc : m' B c = columnNodes c fun k => N k c := by rw [hother B hb, subtrahend c]
    have hcc : m' C c = columnNodes c fun k => P k c := by rw [hsame, shape c]
    have hlength : (columnNodes c fun k => M k c).length = n := length_columnNodes
    rw [subNodes_eq hb hlength (by simp) _ 0 m' (by simp [hac]) (by simp [hcc]) hbc
      (fun j _ => by rw [hac]) (fun j hj => by omega)]
    congr 2
    apply List.ext_getElem
    · simp
    · intro k h1 h2
      simp [subNode]

end Differences

end NodeTables

end TcpAndParallel
