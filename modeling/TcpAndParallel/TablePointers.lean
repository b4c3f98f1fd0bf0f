import TcpAndParallel.Chain
import TcpAndParallel.ListTables

namespace TcpAndParallel

namespace TablePointers

open NodeTables (Node)

variable {α K : Type*}

/-- What the cells that are allocated hold. -/
structure Memory (α K : Type*) where
  next : α → Option α
  node : α → Node K

structure Table (α : Type*) where
  rows : Nat
  columns : Nat
  head : Nat → Option α
  tail : Nat → Option α

def tableInit (rows columns : Nat) : Table α := ⟨rows, columns, fun _ => none, fun _ => none⟩

section Source

variable [DecidableEq α]

def nodeInit (m : Memory α K) (mynode : α) (real imag : K) (row col : Nat) : Memory α K :=
  { m with node := Function.update m.node mynode ⟨row, col, real, imag⟩ }

/-- `none` where the table has no such column. -/
def tableAppend (m : Memory α K) (mytable : Table α) (mynode : α) :
    Option (Memory α K × Table α) :=
  let col := (m.node mynode).col
  if col < mytable.columns then
    let m := { m with next := Function.update m.next mynode none }
    let m :=
      match mytable.tail col with
      | some last => { m with next := Function.update m.next last (some mynode) }
      | none => m
    let mytable := { mytable with tail := Function.update mytable.tail col (some mynode) }
    let mytable :=
      if mytable.head col = none then
        { mytable with head := Function.update mytable.head col (some mynode) }
      else mytable
    some (m, mytable)
  else none

/-- The memory, the table that is filled, and how many cells `malloc` has yielded. -/
structure State (α K : Type*) where
  memory : Memory α K
  newtable : Table α
  used : Nat

def copyNode (malloc : Nat → α) (s : State α K) (mynode : α) : Option (State α K) :=
  let newnode := malloc s.used
  let old := s.memory.node mynode
  let m := nodeInit s.memory newnode old.real old.imag old.col old.row
  (tableAppend m s.newtable newnode).map fun (m, t) => ⟨m, t, s.used + 1⟩

/-- `while (mynode != NULL)`, for so many rounds at most. -/
def transposeNodes (malloc : Nat → α) : Nat → Option α → State α K → Option (State α K)
  | _, none, s => some s
  | 0, some _, _ => none
  | fuel + 1, some mynode, s => do
    let s ← copyNode malloc s mynode
    transposeNodes malloc fuel (s.memory.next mynode) s

def transpose (malloc : Nat → α) (fuel : Nat) (mytable : Table α) (s : State α K) :
    Option (State α K) :=
  (List.range' 0 mytable.columns).foldlM (fun s i =>
    transposeNodes malloc fuel (mytable.head i) s) s

end Source

/-- The table has these cells in its columns, and none twice. -/
structure Lists (m : Memory α K) (t : Table α) (L : Nat → List α) : Prop where
  chain : ∀ c, c < t.columns → Chain m.next (t.head c) (L c)
  tail : ∀ c, c < t.columns → t.tail c = (L c).getLast?
  apart : ∀ c c', c < t.columns → c' < t.columns → c ≠ c' → (L c).Disjoint (L c')

section Append

variable [DecidableEq α] {m : Memory α K} {t : Table α} {L : Nat → List α} {y : α}

structure Appended (m : Memory α K) (t : Table α) (L : Nat → List α) (y : α) (m' : Memory α K)
    (t' : Table α) : Prop where
  node : m'.node = m.node
  rows : t'.rows = t.rows
  columns : t'.columns = t.columns
  lists : Lists m' t' (Function.update L (m.node y).col (L (m.node y).col ++ [y]))
  kept : ∀ x, x ≠ y → (∀ c, c < t.columns → x ∉ L c) → m'.next x = m.next x

omit [DecidableEq α] in
theorem Lists.appended {m' : Memory α K} {t' : Table α} (h : Lists m t L)
    (hcol : (m.node y).col < t.columns) (fresh : ∀ c, c < t.columns → y ∉ L c)
    (columns : t'.columns = t.columns)
    (kept : ∀ x, x ≠ y → (L (m.node y).col).getLast? ≠ some x → m'.next x = m.next x)
    (others : ∀ c, c ≠ (m.node y).col → t'.head c = t.head c ∧ t'.tail c = t.tail c)
    (chain : Chain m'.next (t'.head (m.node y).col) (L (m.node y).col ++ [y]))
    (tail : t'.tail (m.node y).col = some y) :
    Lists m' t' (Function.update L (m.node y).col (L (m.node y).col ++ [y])) := by
  have hnext : ∀ c, c < t.columns → c ≠ (m.node y).col → ∀ x ∈ L c, m'.next x = m.next x := by
    intro c hc hne x hx
    refine kept x (fun he => fresh c hc (he ▸ hx)) fun hlast => ?_
    exact h.apart c (m.node y).col hc hcol hne hx (List.mem_of_getLast? hlast)
  refine ⟨fun c hc => ?_, fun c hc => ?_, fun c c' hc hc' hne => ?_⟩
  · rw [columns] at hc
    by_cases hcc : c = (m.node y).col
    · rw [hcc, Function.update_self]
      exact chain
    · rw [Function.update_of_ne hcc, (others c hcc).1]
      exact (h.chain c hc).congr (hnext c hc hcc)
  · rw [columns] at hc
    by_cases hcc : c = (m.node y).col
    · rw [hcc, Function.update_self, tail, List.getLast?_concat]
    · rw [Function.update_of_ne hcc, (others c hcc).2]
      exact h.tail c hc
  · rw [columns] at hc hc'
    by_cases hcc : c = (m.node y).col
    · have hcc' : c' ≠ (m.node y).col := fun he => hne (hcc.trans he.symm)
      rw [hcc, Function.update_self, Function.update_of_ne hcc']
      intro x hx hx'
      rcases List.mem_append.mp hx with hx | hx
      · exact h.apart _ c' hcol hc' (Ne.symm hcc') hx hx'
      · exact fresh c' hc' (List.mem_singleton.mp hx ▸ hx')
    · rw [Function.update_of_ne hcc]
      by_cases hcc' : c' = (m.node y).col
      · rw [hcc', Function.update_self]
        intro x hx hx'
        rcases List.mem_append.mp hx' with hx' | hx'
        · exact h.apart c _ hc hcol hcc hx hx'
        · exact fresh c hc (List.mem_singleton.mp hx' ▸ hx)
      · rw [Function.update_of_ne hcc']
        exact h.apart c c' hc hc' hne

theorem tableAppend_appended (h : Lists m t L) (hcol : (m.node y).col < t.columns)
    (fresh : ∀ c, c < t.columns → y ∉ L c) :
    ∃ m' t', tableAppend m t y = some (m', t') ∧ Appended m t L y m' t' := by
  have hchain := h.chain _ hcol
  have htail := h.tail _ hcol
  have hfresh := fresh _ hcol
  rcases List.eq_nil_or_concat (L (m.node y).col) with hnil | ⟨xs, x, hconcat⟩
  · -- the first cell of the column
    have hhead : t.head (m.node y).col = none := by
      rw [hnil] at hchain
      exact hchain
    rw [hnil] at htail
    refine ⟨{ m with next := Function.update m.next y none },
      { t with
        tail := Function.update t.tail (m.node y).col (some y)
        head := Function.update t.head (m.node y).col (some y) }, ?_, rfl, rfl, rfl, ?_, ?_⟩
    · simp [tableAppend, hcol, htail, hhead]
    · refine h.appended hcol fresh rfl (fun z hz _ => Function.update_of_ne hz _ _)
        (fun c hc => ⟨Function.update_of_ne hc _ _, Function.update_of_ne hc _ _⟩) ?_
        (Function.update_self ..)
      rw [hnil]
      simp
    · intro z hz _
      exact Function.update_of_ne hz _ _
  · -- a cell behind the last one
    have hhead : t.head (m.node y).col ≠ none := by
      rw [hchain.head_eq, hconcat]
      simp
    rw [hconcat] at hchain hfresh
    rw [hconcat, List.concat_eq_append, List.getLast?_concat] at htail
    rw [List.concat_eq_append] at hchain hfresh
    have hkept : ∀ z, z ≠ x → z ≠ y →
        Function.update (Function.update m.next y none) x (some y) z = m.next z := by
      intro z hzx hz
      rw [Function.update_of_ne hzx, Function.update_of_ne hz]
    refine ⟨{ m with next := Function.update (Function.update m.next y none) x (some y) },
      { t with tail := Function.update t.tail (m.node y).col (some y) }, ?_, rfl, rfl, rfl, ?_, ?_⟩
    · simp [tableAppend, hcol, htail, hhead]
    · refine h.appended hcol fresh rfl (fun z hz hlast => ?_)
        (fun c hc => ⟨rfl, Function.update_of_ne hc _ _⟩) ?_ (Function.update_self ..)
      · have hzx : z ≠ x := by
          rintro rfl
          exact hlast (by rw [hconcat, List.concat_eq_append, List.getLast?_concat])
        exact hkept z hzx hz
      · rw [hconcat, List.concat_eq_append]
        exact hchain.concat hfresh
    · intro z hz hout
      have hzx : z ≠ x := by
        rintro rfl
        exact hout _ hcol (by rw [hconcat, List.concat_eq_append]; simp)
      exact hkept z hzx hz

end Append

section Dense

variable {p q : Nat}

/-- A table that holds a matrix, with a cell for every row in order in each column. -/
structure Holds (m : Memory α K) (t : Table α) (M : Matrix (Fin p) (Fin q) (K × K))
    (cell : Nat → Nat → α) : Prop where
  rows : t.rows = p
  columns : t.columns = q
  lists : Lists m t fun c => (List.range p).map (cell c)
  nodes : ∀ (r : Fin p) (c : Fin q), m.node (cell c r) = ⟨r, c, (M r c).1, (M r c).2⟩

/-- What `malloc` has not yielded since is as it was. -/
def Unchanged (malloc : Nat → α) (used : Nat) (m m' : Memory α K) : Prop :=
  ∀ x, (∀ k, used ≤ k → malloc k ≠ x) → m'.next x = m.next x ∧ m'.node x = m.node x

theorem Holds.unchanged {malloc : Nat → α} {used : Nat} {m m' : Memory α K} {t : Table α}
    {M : Matrix (Fin p) (Fin q) (K × K)} {cell : Nat → Nat → α} (held : Holds m t M cell)
    (h : Unchanged malloc used m m')
    (apart : ∀ k, used ≤ k → ∀ c, c < q → ∀ r, r < p → malloc k ≠ cell c r) :
    Holds m' t M cell := by
  have hkept : ∀ c, c < q → ∀ r, r < p → m'.next (cell c r) = m.next (cell c r) ∧
      m'.node (cell c r) = m.node (cell c r) :=
    fun c hc r hr => h (cell c r) fun k hk => apart k hk c hc r hr
  refine ⟨held.rows, held.columns, ⟨fun c hc => ?_, held.lists.tail, held.lists.apart⟩,
    fun r c => ?_⟩
  · refine (held.lists.chain c hc).congr fun x hx => ?_
    obtain ⟨r, hr, rfl⟩ := List.mem_map.mp hx
    rw [held.columns] at hc
    exact (hkept c hc r (List.mem_range.mp hr)).1
  · rw [(hkept c c.isLt r r.isLt).2]
    exact held.nodes r c

/-- The cell for row `r` and column `i` of the input, the `i * p + r`-th that is allocated. -/
def place (malloc : Nat → α) (used p : Nat) (r i : Nat) : α := malloc (used + (i * p + r))

theorem place_inj {malloc : Nat → α} (inj : Function.Injective malloc) {used r r' i i' : Nat}
    (hr : r < p) (hr' : r' < p) (h : place malloc used p r i = place malloc used p r' i') :
    r = r' ∧ i = i' := by
  have hindex : i * p + r = i' * p + r' := by
    have := inj h
    omega
  have hmod := congrArg (· % p) hindex
  have hdiv := congrArg (· / p) hindex
  have hp : 0 < p := by omega
  simp only [Nat.add_comm _ r, Nat.add_comm _ r', Nat.add_mul_mod_self_right,
    Nat.mod_eq_of_lt hr, Nat.mod_eq_of_lt hr', Nat.add_mul_div_right _ _ hp,
    Nat.div_eq_of_lt hr, Nat.div_eq_of_lt hr', Nat.zero_add] at hmod hdiv
  exact ⟨hmod, hdiv⟩

/-- How many cells the column `c` of the new table has, when the columns below `i` and the rows
below `r` of column `i` have been copied. -/
def filled (i r c : Nat) : Nat := if c < r then i + 1 else i

theorem filled_self (i r : Nat) : filled i r r = i := if_neg (lt_irrefl r)

theorem filled_succ_self (i r : Nat) : filled i (r + 1) r = i + 1 := if_pos (Nat.lt_succ_self r)

theorem filled_succ_of_ne {r c : Nat} (i : Nat) (h : c ≠ r) :
    filled i (r + 1) c = filled i r c := by
  unfold filled
  exact if_congr (by omega) rfl rfl

theorem cells_succ (cell : Nat → Nat → α) (i r c : Nat) :
    (List.range (filled i (r + 1) c)).map (cell c) =
      Function.update (fun c => (List.range (filled i r c)).map (cell c)) r
        ((List.range (filled i r r)).map (cell r) ++ [cell r i]) c := by
  by_cases hc : c = r
  · rw [hc, Function.update_self, filled_succ_self, filled_self, List.range_succ, List.map_append]
    rfl
  · rw [Function.update_of_ne hc, filled_succ_of_ne i hc]

theorem place_notMem {malloc : Nat → α} (inj : Function.Injective malloc) (used : Nat)
    {r c i : Nat} (hr : r < p) (hc : c < p) :
    place malloc used p r i ∉ (List.range (filled i r c)).map (place malloc used p c) := by
  intro hmem
  obtain ⟨j, hj, heq⟩ := List.mem_map.mp hmem
  obtain ⟨rfl, rfl⟩ := place_inj inj hc hr heq
  rw [filled_self, List.mem_range] at hj
  exact lt_irrefl _ hj

/-- The state at row `r` of column `i`. -/
structure Copied (malloc : Nat → α) (used : Nat) (m : Memory α K)
    (M : Matrix (Fin p) (Fin q) (K × K)) (i r : Nat) (s : State α K) : Prop where
  allocated : s.used = used + (i * p + r)
  rows : s.newtable.rows = q
  columns : s.newtable.columns = p
  lists : Lists s.memory s.newtable fun c =>
    (List.range (filled i r c)).map (place malloc used p c)
  nodes : ∀ (c : Fin p) (j : Fin q), (j : Nat) < filled i r c →
    s.memory.node (place malloc used p c j) = ⟨j, c, (M c j).1, (M c j).2⟩
  kept : Unchanged malloc used m s.memory

theorem Lists.congr {m m' : Memory α K} {t : Table α} {L L' : Nat → List α} (h : Lists m t L)
    (next : m'.next = m.next) (same : ∀ c, c < t.columns → L' c = L c) : Lists m' t L' := by
  refine ⟨fun c hc => ?_, fun c hc => ?_, fun c c' hc hc' hne => ?_⟩
  · rw [next, same c hc]
    exact h.chain c hc
  · rw [same c hc]
    exact h.tail c hc
  · rw [same c hc, same c' hc']
    exact h.apart c c' hc hc' hne

section Loop

variable {malloc : Nat → α} {used : Nat} {m : Memory α K} {M : Matrix (Fin p) (Fin q) (K × K)}
  {i : Nat} {s : State α K}

theorem Copied.start (malloc : Nat → α) (used : Nat) (m : Memory α K)
    (M : Matrix (Fin p) (Fin q) (K × K)) :
    Copied malloc used m M 0 0 ⟨m, tableInit q p, used⟩ where
  allocated := by simp
  rows := rfl
  columns := rfl
  lists := ⟨fun _ _ => rfl, fun _ _ => rfl, fun _ _ _ _ _ x hx => absurd hx List.not_mem_nil⟩
  nodes _ _ hj := absurd hj (Nat.not_lt_zero _)
  kept _ _ := ⟨rfl, rfl⟩

theorem Copied.next_column (h : Copied malloc used m M i p s) :
    Copied malloc used m M (i + 1) 0 s where
  allocated := by
    rw [h.allocated, Nat.add_mul]
    omega
  rows := h.rows
  columns := h.columns
  lists := h.lists.congr rfl fun c hc => by
    rw [h.columns] at hc
    rw [filled, filled, if_pos hc, if_neg (by omega)]
  nodes c j hj := h.nodes c j (by
    rw [filled, if_neg (by omega)] at hj
    rw [filled, if_pos c.isLt]
    exact hj)
  kept := h.kept

variable [DecidableEq α]

theorem Copied.next_row (inj : Function.Injective malloc) {r : Fin p} {i : Fin q}
    (h : Copied malloc used m M i r s) {mynode : α}
    (node : m.node mynode = ⟨r, i, (M r i).1, (M r i).2⟩)
    (old : ∀ k, used ≤ k → malloc k ≠ mynode) :
    ∃ s', copyNode malloc s mynode = some s' ∧ Copied malloc used m M i (r + 1) s' := by
  have hnew : malloc s.used = place malloc used p r i := by
    rw [h.allocated]
    rfl
  have hread : s.memory.node mynode = ⟨r, i, (M r i).1, (M r i).2⟩ :=
    (h.kept mynode old).2.trans node
  set m₁ := nodeInit s.memory (place malloc used p r i) (M r i).1 (M r i).2 i r with hm₁
  have hnode : m₁.node (place malloc used p r i) = ⟨i, r, (M r i).1, (M r i).2⟩ :=
    Function.update_self ..
  have hcol : (m₁.node (place malloc used p r i)).col = r := by
    rw [hnode]
  have hfresh : ∀ c, c < s.newtable.columns → place malloc used p r i ∉
      (List.range (filled i r c)).map (place malloc used p c) := by
    intro c hc
    rw [h.columns] at hc
    exact place_notMem inj used r.isLt hc
  have hlists : Lists m₁ s.newtable fun c =>
      (List.range (filled i r c)).map (place malloc used p c) :=
    h.lists.congr rfl fun _ _ => rfl
  obtain ⟨m', t', happend, ha⟩ := tableAppend_appended hlists
    (by rw [hcol, h.columns]; exact r.isLt) hfresh
  refine ⟨⟨m', t', s.used + 1⟩, ?_, ?_⟩
  · simp only [copyNode, hnew, hread]
    rw [← hm₁, happend]
    rfl
  refine ⟨?_, ha.rows.trans h.rows, ha.columns.trans h.columns, ?_, fun c j hj => ?_, fun x hx => ?_⟩
  · show s.used + 1 = _
    rw [h.allocated]
    omega
  · refine ha.lists.congr rfl fun c _ => ?_
    rw [hcol]
    exact cells_succ (place malloc used p) i r c
  · show m'.node _ = _
    rw [ha.node]
    by_cases hplace : place malloc used p c j = place malloc used p r i
    · obtain ⟨hc, hji⟩ := place_inj inj c.isLt r.isLt hplace
      obtain rfl := Fin.ext hc
      obtain rfl := Fin.ext hji
      exact hnode
    · refine (Function.update_of_ne hplace _ _).trans (h.nodes c j ?_)
      by_cases hc : (c : Nat) = r
      · have hji : (j : Nat) ≠ i := fun hji => hplace (by rw [hc, hji])
        rw [hc, filled_succ_self] at hj
        rw [hc, filled_self]
        omega
      · rwa [filled_succ_of_ne i hc] at hj
  · have hxnew : x ≠ place malloc used p r i := (hx _ (Nat.le_add_right _ _)).symm
    have hxout : ∀ c, c < s.newtable.columns →
        x ∉ (List.range (filled i r c)).map (place malloc used p c) := by
      intro c _ hmem
      obtain ⟨j, -, rfl⟩ := List.mem_map.mp hmem
      exact hx _ (Nat.le_add_right _ _) rfl
    refine ⟨(ha.kept x hxnew hxout).trans (h.kept x hx).1, ?_⟩
    show m'.node x = _
    rw [ha.node]
    exact (Function.update_of_ne hxnew _ _).trans (h.kept x hx).2

theorem Copied.rows_from (inj : Function.Injective malloc) {i : Fin q} {cell : Nat → α}
    (node : ∀ r : Fin p, m.node (cell r) = ⟨r, i, (M r i).1, (M r i).2⟩)
    (old : ∀ k, used ≤ k → ∀ r, r < p → malloc k ≠ cell r) (d : Nat) {r fuel : Nat} {l : Option α}
    (hd : r + d = p) (chain : Chain m.next l ((List.range' r d).map cell)) (enough : d ≤ fuel)
    (h : Copied malloc used m M i r s) :
    ∃ s', transposeNodes malloc fuel l s = some s' ∧ Copied malloc used m M i p s' := by
  induction d generalizing r fuel l s with
  | zero =>
    have hl : l = none := chain
    subst hl
    obtain rfl : r = p := by omega
    exact ⟨s, by cases fuel <;> rfl, h⟩
  | succ d ih =>
    have hr : r < p := by omega
    obtain ⟨rfl, hrest⟩ := chain
    obtain ⟨fuel, rfl⟩ : ∃ n, fuel = n + 1 := ⟨fuel - 1, by omega⟩
    obtain ⟨s₁, hcopy, h₁⟩ := Copied.next_row inj (r := ⟨r, hr⟩) h (node ⟨r, hr⟩)
      fun k hk => old k hk r hr
    have hnext : s₁.memory.next (cell r) = m.next (cell r) :=
      (h₁.kept (cell r) fun k hk => old k hk r hr).1
    have henough : d ≤ fuel := by omega
    obtain ⟨s', hs', h'⟩ := ih (r := r + 1) (by omega) hrest henough h₁
    refine ⟨s', ?_, h'⟩
    show (copyNode malloc s (cell r)).bind _ = _
    rw [hcopy, Option.bind_some, hnext]
    exact hs'

/-- The transpose, in cells that `malloc` yields, and nothing else changed. -/
theorem transpose_holds (inj : Function.Injective malloc) {t : Table α} {cell : Nat → Nat → α}
    (held : Holds m t M cell)
    (old : ∀ k, used ≤ k → ∀ c, c < q → ∀ r, r < p → malloc k ≠ cell c r) {fuel : Nat}
    (enough : p ≤ fuel) :
    ∃ s, transpose malloc fuel t ⟨m, tableInit q p, used⟩ = some s ∧
      s.used = used + q * p ∧ Unchanged malloc used m s.memory ∧
      Holds s.memory s.newtable M.transpose (place malloc used p) := by
  have hpass : ∀ (i : Fin q) s, Copied malloc used m M i 0 s →
      ∃ s', transposeNodes malloc fuel (t.head i) s = some s' ∧
        Copied malloc used m M (i + 1) 0 s' := by
    intro i s h
    have hchain := held.lists.chain i (by rw [held.columns]; exact i.isLt)
    rw [List.range_eq_range'] at hchain
    obtain ⟨s', hs', h'⟩ := h.rows_from inj (fun r => held.nodes r i)
      (fun k hk => old k hk i i.isLt) p (Nat.zero_add p) hchain enough
    exact ⟨s', hs', h'.next_column⟩
  obtain ⟨s, hs, h⟩ := exists_foldlM_zero (fun i s => transposeNodes malloc fuel (t.head i) s)
    (fun i s => Copied malloc used m M i 0 s) (Copied.start malloc used m M) hpass
  refine ⟨s, ?_, ?_, h.kept, h.rows, h.columns, h.lists, fun j c => ?_⟩
  · rw [transpose, held.columns]
    exact hs
  · rw [h.allocated]
    rfl
  · exact h.nodes c j j.isLt

/-- The transpose of a table, and that of the transpose, with the tables read left as they were. -/
theorem transpose_transpose (inj : Function.Injective malloc) {t : Table α}
    {cell : Nat → Nat → α} (held : Holds m t M cell)
    (old : ∀ k, used ≤ k → ∀ c, c < q → ∀ r, r < p → malloc k ≠ cell c r) {fuel : Nat}
    (rows : p ≤ fuel) (columns : q ≤ fuel) :
    ∃ s, transpose malloc fuel t ⟨m, tableInit q p, used⟩ = some s ∧
      (∃ cell', Holds s.memory s.newtable M.transpose cell') ∧
      Unchanged malloc used m s.memory ∧ Holds s.memory t M cell ∧
      ∃ s', transpose malloc fuel s.newtable ⟨s.memory, tableInit p q, s.used⟩ = some s' ∧
        (∃ cell', Holds s'.memory s'.newtable M cell') ∧
        Unchanged malloc s.used s.memory s'.memory ∧ Holds s'.memory t M cell := by
  obtain ⟨s, hs, hused, hkept, hheld⟩ := transpose_holds inj held old rows
  have hplaces : ∀ k, s.used ≤ k → ∀ r, r < p → ∀ i, i < q →
      malloc k ≠ place malloc used p r i := by
    intro k hk r hr i hi heq
    have hindex := inj heq
    have hrow : i * p + p ≤ q * p := by
      have hle := Nat.mul_le_mul_right p (show i + 1 ≤ q by omega)
      rwa [Nat.add_mul, Nat.one_mul] at hle
    omega
  obtain ⟨s', hs', -, hkept', hheld'⟩ := transpose_holds inj hheld hplaces columns
  have hlater : ∀ k, s.used ≤ k → ∀ c, c < q → ∀ r, r < p → malloc k ≠ cell c r :=
    fun k hk => old k (by omega)
  exact ⟨s, hs, ⟨_, hheld⟩, hkept, held.unchanged hkept old, s', hs', ⟨_, hheld'⟩, hkept',
    (held.unchanged hkept old).unchanged hkept' hlater⟩

end Loop

def rowMemory : Memory Nat ℤ := ⟨fun _ => none, fun x => ⟨0, x, x + 1, 0⟩⟩

def rowTable : Table Nat :=
  ⟨1, 2, fun c => if c < 2 then some c else none, fun c => if c < 2 then some c else none⟩

def rowMatrix : Matrix (Fin 1) (Fin 2) (ℤ × ℤ) := !![(1, 0), (2, 0)]

theorem rowTable_holds : Holds rowMemory rowTable rowMatrix fun c _ => c := by
  refine ⟨rfl, rfl, ⟨fun c hc => ?_, fun c hc => ?_, fun c c' _ _ hne x hx hx' => ?_⟩,
    fun r c => ?_⟩
  · exact ⟨if_pos hc, rfl⟩
  · exact if_pos hc
  · simp only [List.map_const', List.length_range, List.mem_replicate] at hx hx'
    omega
  · fin_cases r; fin_cases c <;> rfl

theorem transpose_transpose_row :
    ∃ s, transpose (· + 2) 2 rowTable ⟨rowMemory, tableInit 2 1, 0⟩ = some s ∧
      (∃ cell', Holds s.memory s.newtable rowMatrix.transpose cell') ∧
      Unchanged (· + 2) 0 rowMemory s.memory ∧ Holds s.memory rowTable rowMatrix (fun c _ => c) ∧
      ∃ s', transpose (· + 2) 2 s.newtable ⟨s.memory, tableInit 1 2, s.used⟩ = some s' ∧
        (∃ cell', Holds s'.memory s'.newtable rowMatrix cell') ∧
        Unchanged (· + 2) s.used s.memory s'.memory ∧
        Holds s'.memory rowTable rowMatrix (fun c _ => c) :=
  transpose_transpose (fun _ _ h => by simpa using h) rowTable_holds
    (fun k _ c hc r _ h => by omega) (by decide) (by decide)

end Dense

end TablePointers

end TcpAndParallel
