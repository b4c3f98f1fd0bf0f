import Mathlib.Data.List.OfFn
import Mathlib.Logic.Equiv.Basic
import TcpAndParallel.Chain
import TcpAndParallel.Runs

namespace TcpAndParallel

universe u

namespace NodeSwap

variable {α K : Type u}

/-- A table in memory. The fields of a node are read at its address; a walk for more rounds than
there are `nodes` does not end. -/
structure Table (α K : Type u) where
  columns : Nat
  head : Nat → Option α
  tail : Nat → Option α
  next : α → Option α
  row : α → Nat
  col : α → Nat
  real : α → K
  imag : α → K
  nodes : Nat

/-- The local variables that no round of the loop sets anew; at first they have no value. -/
structure Locals (α : Type u) where
  jnode : Option α
  jprevnode : Option α
  rnode : Option α
  rprevnode : Option α

/-- `while (mynode != NULL)`, over the nodes of a column. -/
def find (row : α → Nat) (r j : Nat) : α → List α → Locals α → Locals α
  | _, [], l => l
  | prevnode, mynode :: nodes, l =>
    let l :=
      if row mynode = j then { l with jnode := some mynode, jprevnode := some prevnode } else l
    let l :=
      if row mynode = r then { l with rnode := some mynode, rprevnode := some prevnode } else l
    find row r j mynode nodes l

variable [DecidableEq α]

/-- The links that are written to put two nodes in each other's place. -/
def relink (next : α → Option α) (jprevnode jnode rprevnode rnode : α) : α → Option α :=
  let next := Function.update next jprevnode (some rnode)
  let next := Function.update next rprevnode (some jnode)
  let tempnode := next jnode
  let next := Function.update next jnode (next rnode)
  Function.update next rnode tempnode

/-- The round of the loop over the columns that interchanges rows `r` and `j` of column `i`. -/
def interchangeRows (r j i : Nat) (s : Table α K × Locals α) : Option (Table α K × Locals α) := do
  let (mytable, l) := s
  let nodes ← walk mytable.next mytable.nodes (mytable.head i)
  let l := match nodes with
    | [] => l
    | head :: _ => find mytable.row r j head nodes l
  let jnode ← l.jnode
  let jprevnode ← l.jprevnode
  let rnode ← l.rnode
  let rprevnode ← l.rprevnode
  some ({ mytable with
    tail :=
      if some jnode = mytable.tail j ∨ some rnode = mytable.tail r then
        Function.update (Function.update mytable.tail j (some rnode)) r (some jnode)
      else mytable.tail
    row := Function.update (Function.update mytable.row jnode r) rnode j
    next := relink mytable.next jprevnode jnode rprevnode rnode }, l)

/-- `while (mynode != NULL && tempnode != NULL)`. -/
def relabel (next : α → Option α) (r j : Nat) :
    Nat → Option α → Option α → (α → Nat) → Option (α → Nat)
  | fuel + 1, some mynode, some tempnode, col =>
    relabel next r j fuel (next mynode) (next tempnode)
      (Function.update (Function.update col mynode j) tempnode r)
  | 0, some _, some _, _ => none
  | _, _, _, col => some col

def swap (mytable : Table α K) (r j : Nat) : Option (Table α K) := do
  let (mytable, _) ← (List.range' 0 mytable.columns).foldlM (fun s i => interchangeRows r j i s)
    (mytable, ⟨none, none, none, none⟩)
  let head := Function.update (Function.update mytable.head r (mytable.head j)) j (mytable.head r)
  let tail := Function.update (Function.update mytable.tail r (mytable.tail j)) j (mytable.tail r)
  let col ← relabel mytable.next r j mytable.nodes (head j) (head r) mytable.col
  some { mytable with head, tail, col }

variable {n : Nat}

/-- A dense table; `N k c` is the node of row `k` in column `c`. -/
structure Holds (t : Table α K) (N : Fin n → Fin n → α) : Prop where
  columns : t.columns = n
  nodes : n ≤ t.nodes
  distinct : ∀ k c k' c', N k c = N k' c' → k = k' ∧ c = c'
  chain : ∀ c : Fin n, Chain t.next (t.head c) (List.ofFn fun k => N k c)
  last : ∀ c : Fin n, t.tail c = (List.ofFn fun k => N k c).getLast?
  row : ∀ k c, t.row (N k c) = k.val
  col : ∀ k c, t.col (N k c) = c.val

/-- Rows `r` and `j` and columns `r` and `j` are interchanged: the nodes have other places, each
with its entry. -/
structure Interchanged (t : Table α K) (N : Fin n → Fin n → α) (r j : Fin n)
    (t' : Table α K) : Prop where
  holds : Holds t' fun k c => N (Equiv.swap r j k) (Equiv.swap r j c)
  real : t'.real = t.real
  imag : t'.imag = t.imag

section Links

omit [DecidableEq α]

def behind (f : Fin n → α) (k : Nat) : Option α := if h : k < n then some (f ⟨k, h⟩) else none

theorem chain_ofFn_iff {next : α → Option α} {p : Option α} {f : Fin n → α} :
    Chain next p (List.ofFn f) ↔
      p = behind f 0 ∧ ∀ k : Fin n, next (f k) = behind f (k + 1) := by
  induction n generalizing p with
  | zero => simp [behind]
  | succ n ih =>
    have hbehind : ∀ k, behind (fun i : Fin n => f i.succ) k = behind f (k + 1) := by
      intro k
      unfold behind
      by_cases hk : k < n
      · rw [dif_pos hk, dif_pos (by omega)]
        rfl
      · rw [dif_neg hk, dif_neg (by omega)]
    rw [List.ofFn_succ, chain_cons, ih, Fin.forall_fin_succ]
    simp only [hbehind]
    rfl

/-- The node that a walk finds last for the row, with the one before it. -/
def track (row : α → Nat) (j : Nat) : α → List α → Option α × Option α → Option α × Option α
  | _, [], found => found
  | prevnode, mynode :: nodes, found =>
    track row j mynode nodes (if row mynode = j then (some mynode, some prevnode) else found)

theorem find_eq (row : α → Nat) (r j : Nat) (prevnode : α) (nodes : List α) (l : Locals α) :
    find row r j prevnode nodes l =
      ⟨(track row j prevnode nodes (l.jnode, l.jprevnode)).1,
        (track row j prevnode nodes (l.jnode, l.jprevnode)).2,
        (track row r prevnode nodes (l.rnode, l.rprevnode)).1,
        (track row r prevnode nodes (l.rnode, l.rprevnode)).2⟩ := by
  induction nodes generalizing prevnode l with
  | nil => rfl
  | cons mynode nodes ih =>
    rw [find, ih]
    simp only [track]
    by_cases hj : row mynode = j
    · by_cases hr : row mynode = r
      · simp only [if_pos hj, if_pos hr]
      · simp only [if_pos hj, if_neg hr]
    · by_cases hr : row mynode = r
      · simp only [if_neg hj, if_pos hr]
      · simp only [if_neg hj, if_neg hr]

variable {f : Fin n → α} {row : α → Nat} {j : Fin n}

theorem track_behind (rows : ∀ k, row (f k) = k.val) {s : Nat} (hs : j.val < s) (prevnode : α)
    (found : Option α × Option α) : track row j prevnode ((List.ofFn f).drop s) found = found := by
  induction hm : n - s generalizing s prevnode with
  | zero =>
    rw [List.drop_eq_nil_of_le (by simp; omega)]
    rfl
  | succ m ih =>
    have hlt : s < n := by omega
    rw [List.drop_eq_getElem_cons (by simpa using hlt), List.getElem_ofFn, track, rows,
      if_neg (by simp; omega)]
    exact ih (by omega) _ (by omega)

theorem track_ofFn (rows : ∀ k, row (f k) = k.val) {s : Nat} (hs : s ≤ j) (prevnode : α)
    (found : Option α × Option α) (hj : 0 < j.val)
    (hprev : ∀ h : 0 < s, prevnode = f ⟨s - 1, by omega⟩) :
    track row j prevnode ((List.ofFn f).drop s) found =
      (some (f j), some (f ⟨j - 1, by omega⟩)) := by
  induction hm : j.val - s generalizing s prevnode found with
  | zero =>
    obtain rfl : s = j := by omega
    rw [List.drop_eq_getElem_cons (by simp), List.getElem_ofFn, track, rows, if_pos rfl,
      track_behind rows (by omega), hprev hj]
  | succ m ih =>
    have hlt : s < n := by omega
    rw [List.drop_eq_getElem_cons (by simpa using hlt), List.getElem_ofFn, track, rows,
      if_neg (by simp; omega)]
    exact ih (by omega) _ _ (fun _ => rfl) (by omega)

end Links

section Relink

variable {next : α → Option α} {f : Fin n → α} {r j : Fin n}

omit [DecidableEq α] in
theorem behind_swap (m : Nat) : behind (fun i => f (Equiv.swap r j i)) m =
    if m = r then some (f j) else if m = j then some (f r) else behind f m := by
  unfold behind
  by_cases hm : m < n
  · rw [dif_pos hm, dif_pos hm]
    show some (f (Equiv.swap r j ⟨m, hm⟩)) = _
    rw [Equiv.swap_apply_def]
    simp only [Fin.ext_iff]
    split
    next => rfl
    next =>
      split
      next => rfl
      next => rfl
  · have hr : m ≠ r := by omega
    have hj : m ≠ j := by omega
    rw [dif_neg hm, dif_neg hm, if_neg hr, if_neg hj]

omit [DecidableEq α] in
theorem behind_swap_other (f : Fin n → α) {m : Nat} (hr : m ≠ r.val) (hj : m ≠ j.val) :
    behind (fun i => f (Equiv.swap r j i)) m = behind f m := by
  rw [behind_swap, if_neg hr, if_neg hj]

/-- Where neither node is the first, the new links are those of the column with the two nodes in
each other's place, also where one of them stands behind the other. -/
theorem relink_apply (inj : Function.Injective f)
    (links : ∀ k : Fin n, next (f k) = behind f (k + 1)) (ne : r ≠ j) (hr : 0 < r.val)
    (hj : 0 < j.val) (k : Fin n) :
    relink next (f ⟨j - 1, by omega⟩) (f j) (f ⟨r - 1, by omega⟩) (f r) (f (Equiv.swap r j k)) =
      behind (fun i => f (Equiv.swap r j i)) (k + 1) := by
  have hval : ∀ a b : Fin n, f a = f b ↔ a.val = b.val := by
    intro a b
    rw [inj.eq_iff, Fin.ext_iff]
  have hne : r.val ≠ j.val := fun he => ne (Fin.ext he)
  rw [behind_swap]
  unfold relink
  rcases eq_or_ne k j with rfl | hkj
  · have h1 : k.val = r.val - 1 ↔ k.val + 1 = r.val := by omega
    have h2 : ¬k.val = k.val - 1 := by omega
    rw [Equiv.swap_apply_right]
    simp [Function.update_apply, hval, links, h1, h2]
  · rcases eq_or_ne k r with rfl | hkr
    · have h1 : k.val = j.val - 1 ↔ k.val + 1 = j.val := by omega
      have h2 : ¬k.val = k.val - 1 := by omega
      rw [Equiv.swap_apply_left]
      simp [Function.update_apply, hval, links, h1, h2, hne.symm]
    · have h1 : k.val = r.val - 1 ↔ k.val + 1 = r.val := by omega
      have h2 : k.val = j.val - 1 ↔ k.val + 1 = j.val := by omega
      have h3 : ¬k.val = r.val := fun he => hkr (Fin.ext he)
      have h4 : ¬k.val = j.val := fun he => hkj (Fin.ext he)
      rw [Equiv.swap_apply_of_ne_of_ne hkr hkj]
      simp [Function.update_apply, hval, links, h1, h2, h3, h4]

theorem relink_other {a b c d x : α} (ha : x ≠ a) (hb : x ≠ b) (hc : x ≠ c)
    (hd : x ≠ d) : relink next a b c d x = next x := by
  unfold relink
  simp [Function.update_of_ne, ha, hb, hc, hd]

end Relink

section Rows

variable {t : Table α K} {N : Fin n → Fin n → α} {r j : Fin n}

/-- Where the nodes of column `c` stand after the rounds for the first `i` columns. -/
def placed (r j : Fin n) (i : Nat) (c : Fin n) : Equiv.Perm (Fin n) :=
  if c.val < i then Equiv.swap r j else Equiv.refl _

/-- The rows of the first `i` columns are interchanged. -/
structure RowsDone (t : Table α K) (N : Fin n → Fin n → α) (r j : Fin n) (i : Nat)
    (s : Table α K × Locals α) : Prop where
  same : s.1 = { t with next := s.1.next, row := s.1.row }
  next : ∀ k c, s.1.next (N (placed r j i c k) c) =
    behind (fun l => N (placed r j i c l) c) (k + 1)
  row : ∀ k c, s.1.row (N (placed r j i c k) c) = k.val
  frame : ∀ x, (∀ k c, N k c ≠ x) → s.1.next x = t.next x ∧ s.1.row x = t.row x

omit [DecidableEq α] in
theorem with_links {u : Table α K} (same : u = { t with next := u.next, row := u.row })
    (next : α → Option α) (row : α → Nat) :
    { u with next, row } = { t with next, row } := by
  rw [same]

omit [DecidableEq α] in
theorem getLast_ofFn (f : Fin n → α) : (List.ofFn f).getLast? = behind f (n - 1) := by
  rw [List.getLast?_eq_getElem?, List.length_ofFn, List.getElem?_ofFn]
  rfl

omit [DecidableEq α] in
theorem Holds.start (h : Holds t N) (l : Locals α) : RowsDone t N r j 0 (t, l) := by
  have hplaced : ∀ c, placed r j 0 c = Equiv.refl _ := fun c => if_neg (by omega)
  refine ⟨rfl, fun k c => ?_, fun k c => ?_, fun x _ => ⟨rfl, rfl⟩⟩
  · rw [hplaced]
    exact (chain_ofFn_iff.mp (h.chain c)).2 k
  · rw [hplaced]
    exact h.row k c

theorem interchangeRows_eq (h : Holds t N) (hr : 0 < r.val) (hj : 0 < j.val) (hr' : r.val + 1 < n)
    (hj' : j.val + 1 < n) (i : Fin n) {s : Table α K × Locals α} (hs : RowsDone t N r j i s) :
    ∃ l, interchangeRows r j i s = some ({ s.1 with
      row := Function.update (Function.update s.1.row (N j i) r) (N r i) j
      next := relink s.1.next (N ⟨j - 1, by omega⟩ i) (N j i) (N ⟨r - 1, by omega⟩ i) (N r i) }, l) := by
  have hplaced : placed r j i i = Equiv.refl _ := if_neg (by omega)
  have hlinks : ∀ k : Fin n, s.1.next (N k i) = behind (fun l => N l i) (k + 1) := by
    intro k
    have hn := hs.next k i
    rwa [hplaced] at hn
  have hrows : ∀ k : Fin n, s.1.row (N k i) = k.val := by
    intro k
    have hk := hs.row k i
    rwa [hplaced] at hk
  have hhead : s.1.head = t.head := by rw [hs.same]
  have htail : s.1.tail = t.tail := by rw [hs.same]
  have hnodes : s.1.nodes = t.nodes := by rw [hs.same]
  have hwalk : walk s.1.next s.1.nodes (s.1.head i) = some (List.ofFn fun k => N k i) := by
    rw [walk_eq_some_iff, hhead, hnodes, chain_ofFn_iff]
    exact ⟨⟨(chain_ofFn_iff.mp (h.chain i)).1, hlinks⟩, by simpa using h.nodes⟩
  have hpos : 0 < n := by omega
  have hcons : ∃ rest, (List.ofFn fun k => N k i) = N ⟨0, hpos⟩ i :: rest := by
    obtain ⟨m, rfl⟩ : ∃ m, n = m + 1 := ⟨n - 1, by omega⟩
    exact ⟨_, List.ofFn_succ⟩
  have hlast : ∀ k c : Fin n, k.val + 1 < n → some (N k i) ≠ t.tail c := by
    intro k c hk he
    rw [h.last c, getLast_ofFn] at he
    unfold behind at he
    rw [dif_pos (by omega)] at he
    have hkc := (h.distinct _ _ _ _ (Option.some.inj he)).1
    have hval : k.val = n - 1 := congrArg Fin.val hkc
    omega
  have hcond : ¬(some (N j i) = s.1.tail j ∨ some (N r i) = s.1.tail r) := by
    rw [htail]
    exact not_or.mpr ⟨hlast j j hj', hlast r r hr'⟩
  have hj0 := track_ofFn hrows (Nat.zero_le j) (N ⟨0, hpos⟩ i) (s.2.jnode, s.2.jprevnode) hj
    (fun h => absurd h (by omega))
  have hr0 := track_ofFn hrows (Nat.zero_le r) (N ⟨0, hpos⟩ i) (s.2.rnode, s.2.rprevnode) hr
    (fun h => absurd h (by omega))
  rw [List.drop_zero] at hj0 hr0
  obtain ⟨rest, hrest⟩ := hcons
  unfold interchangeRows
  simp only [Option.bind_eq_bind, hwalk, Option.bind_some, hrest]
  rw [← hrest, find_eq, hj0, hr0]
  simp only [Option.bind_some, if_neg hcond]
  exact ⟨_, rfl⟩

theorem RowsDone.step (h : Holds t N) (ne : r ≠ j) (hr : 0 < r.val) (hj : 0 < j.val)
    (hr' : r.val + 1 < n) (hj' : j.val + 1 < n) (i : Fin n) {s : Table α K × Locals α}
    (hs : RowsDone t N r j i s) :
    ∃ s', interchangeRows r j i s = some s' ∧ RowsDone t N r j (i + 1) s' := by
  obtain ⟨l, hrun⟩ := interchangeRows_eq h hr hj hr' hj' i hs
  refine ⟨_, hrun, ?_, fun k c => ?_, fun k c => ?_, fun x hx => ?_⟩
  · exact with_links hs.same _ _
  · rcases eq_or_ne c i with rfl | hc
    · have hafter : placed r j (c + 1) c = Equiv.swap r j := if_pos (by omega)
      have hbefore : placed r j c c = Equiv.refl _ := if_neg (by omega)
      have hlinks : ∀ k : Fin n, s.1.next (N k c) = behind (fun l => N l c) (k + 1) := by
        intro k
        have hn := hs.next k c
        rwa [hbefore] at hn
      rw [hafter]
      exact relink_apply (f := fun k => N k c) (fun a b he => (h.distinct _ _ _ _ he).1) hlinks ne
        hr hj k
    · have hsame : placed r j (i + 1) c = placed r j i c := by
        have hval : c.val ≠ i.val := fun he => hc (Fin.ext he)
        have hiff : c.val < i.val + 1 ↔ c.val < i.val := by omega
        simp only [placed, hiff]
      have hother : ∀ k k', N k c ≠ N k' i := fun k k' he => hc (h.distinct _ _ _ _ he).2
      rw [hsame, ← hs.next k c]
      exact relink_other (hother _ _) (hother _ _) (hother _ _) (hother _ _)
  · rcases eq_or_ne c i with rfl | hc
    · have hafter : placed r j (c + 1) c = Equiv.swap r j := if_pos (by omega)
      have hbefore : placed r j c c = Equiv.refl _ := if_neg (by omega)
      have hrows : ∀ k : Fin n, s.1.row (N k c) = k.val := by
        intro k
        have hk := hs.row k c
        rwa [hbefore] at hk
      have hN : ∀ k k', N k c = N k' c ↔ k = k' :=
        fun k k' => ⟨fun he => (h.distinct _ _ _ _ he).1, fun he => he ▸ rfl⟩
      rw [hafter, Equiv.swap_apply_def]
      simp only [Function.update_apply]
      rcases eq_or_ne k r with rfl | hkr
      · simp [hN, ne.symm]
      · rcases eq_or_ne k j with rfl | hkj
        · simp [hkr]
        · simp [hN, hkr, hkj, hrows]
    · have hsame : placed r j (i + 1) c = placed r j i c := by
        have hval : c.val ≠ i.val := fun he => hc (Fin.ext he)
        have hiff : c.val < i.val + 1 ↔ c.val < i.val := by omega
        simp only [placed, hiff]
      have hother : ∀ k k', N k c ≠ N k' i := fun k k' he => hc (h.distinct _ _ _ _ he).2
      rw [hsame, ← hs.row k c]
      show Function.update _ _ _ _ = _
      rw [Function.update_of_ne (hother _ _), Function.update_of_ne (hother _ _)]
  · obtain ⟨hnext, hrow⟩ := hs.frame x hx
    constructor
    · rw [← hnext]
      exact relink_other (hx _ _).symm (hx _ _).symm (hx _ _).symm (hx _ _).symm
    · rw [← hrow]
      show Function.update _ _ _ _ = _
      rw [Function.update_of_ne (hx _ _).symm, Function.update_of_ne (hx _ _).symm]

end Rows

theorem relabel_spec {next : α → Option α} {r j fuel : Nat} {p q : Option α} {xs ys : List α}
    (hx : Chain next p xs) (hy : Chain next q ys) (hlen : xs.length = ys.length)
    (fueled : xs.length ≤ fuel) (disjoint : ∀ z ∈ xs, z ∉ ys) (col : α → Nat) :
    ∃ col', relabel next r j fuel p q col = some col' ∧
      ∀ z, col' z = if z ∈ ys then r else if z ∈ xs then j else col z := by
  have hnd := hy.nodup
  induction xs generalizing p q ys fuel col with
  | nil =>
    obtain rfl : ys = [] := List.eq_nil_of_length_eq_zero hlen.symm
    obtain rfl : p = none := hx
    exact ⟨col, by cases fuel <;> rfl, by simp⟩
  | cons x xs ih =>
    obtain ⟨y, ys, rfl⟩ := List.exists_cons_of_length_eq_add_one hlen.symm
    obtain ⟨fuel, rfl⟩ : ∃ m, fuel = m + 1 := ⟨fuel - 1, by simp at fueled; omega⟩
    obtain ⟨rfl, hx⟩ := hx
    obtain ⟨rfl, hy⟩ := hy
    obtain ⟨hyn, hnd⟩ := List.nodup_cons.mp hnd
    obtain ⟨col', hrun, hcol⟩ := ih hx hy (by simpa using hlen) (by simpa using fueled)
      (fun z hz hz' => disjoint z (by simp [hz]) (by simp [hz']))
      (Function.update (Function.update col x j) y r) hnd
    refine ⟨col', hrun, fun z => ?_⟩
    rw [hcol]
    by_cases hzy : z = y
    · subst hzy
      have hzx : z ∉ xs := fun hm => disjoint z (by simp [hm]) (by simp)
      simp [hyn, hzx]
    · by_cases hzx : z = x
      · subst hzx
        have hzys : z ∉ ys := fun hm => disjoint z (by simp) (by simp [hm])
        simp [hzy, hzys]
      · simp [hzy, hzx]

section Swap

variable {t t' : Table α K} {N : Fin n → Fin n → α} {r j : Fin n}

/-- What is no part of the table is as it was. -/
structure Frame (t : Table α K) (N : Fin n → Fin n → α) (t' : Table α K) : Prop where
  nodes : t'.nodes = t.nodes
  ends : ∀ c, n ≤ c → t'.head c = t.head c ∧ t'.tail c = t.tail c
  others : ∀ x, (∀ k c, N k c ≠ x) →
    t'.next x = t.next x ∧ t'.row x = t.row x ∧ t'.col x = t.col x

omit [DecidableEq α] in
theorem update_swap {β : Type*} (g : Nat → β) (r j c : Fin n) :
    Function.update (Function.update g r (g j)) j (g r) c = g (Equiv.swap r j c) := by
  rcases eq_or_ne c j with rfl | hcj
  · rw [Function.update_self, Equiv.swap_apply_right]
  · rw [Function.update_of_ne (fun he => hcj (Fin.ext he))]
    rcases eq_or_ne c r with rfl | hcr
    · rw [Function.update_self, Equiv.swap_apply_left]
    · rw [Function.update_of_ne (fun he => hcr (Fin.ext he)), Equiv.swap_apply_of_ne_of_ne hcr hcj]

omit [DecidableEq α] in
theorem update_swap_of_le {β : Type*} (g : Nat → β) (r j : Fin n) {c : Nat} (hc : n ≤ c) :
    Function.update (Function.update g r (g j)) j (g r) c = g c := by
  rw [Function.update_of_ne (by omega), Function.update_of_ne (by omega)]

omit [DecidableEq α] in
theorem Holds.head_eq (h : Holds t N) (c : Fin n) : t.head c = behind (fun k => N k c) 0 :=
  (chain_ofFn_iff.mp (h.chain c)).1

omit [DecidableEq α] in
theorem Holds.tail_eq (h : Holds t N) (c : Fin n) : t.tail c = behind (fun k => N k c) (n - 1) := by
  rw [h.last c, getLast_ofFn]

omit [DecidableEq α] in
theorem Holds.mem_column (h : Holds t N) {k c c' : Fin n} :
    (N k c ∈ List.ofFn fun k => N (Equiv.swap r j k) c') ↔ c = c' := by
  rw [List.mem_ofFn]
  constructor
  · rintro ⟨l, he⟩
    exact (h.distinct _ _ _ _ he).2.symm
  · rintro rfl
    exact ⟨Equiv.swap r j k, by rw [Equiv.swap_apply_self]⟩

omit [DecidableEq α] in
theorem Holds.disjoint_columns (h : Holds t N) (ne : r ≠ j) :
    ∀ z ∈ List.ofFn fun k => N (Equiv.swap r j k) r,
      z ∉ List.ofFn fun k => N (Equiv.swap r j k) j := by
  intro z hz
  obtain ⟨k, rfl⟩ := List.mem_ofFn.mp hz
  rw [h.mem_column]
  exact ne

theorem Holds.relabelled (h : Holds t N) (ne : r ≠ j) {col : α → Nat}
    (hcol : ∀ z, col z = if z ∈ List.ofFn fun k => N (Equiv.swap r j k) j then r.val
      else if z ∈ List.ofFn fun k => N (Equiv.swap r j k) r then j.val else t.col z)
    (k c : Fin n) : col (N k (Equiv.swap r j c)) = c.val := by
  rw [hcol]
  simp only [h.mem_column]
  rcases eq_or_ne c r with rfl | hcr
  · rw [Equiv.swap_apply_left, if_pos rfl]
  · rcases eq_or_ne c j with rfl | hcj
    · rw [Equiv.swap_apply_right, if_neg ne, if_pos rfl]
    · rw [Equiv.swap_apply_of_ne_of_ne hcr hcj, if_neg hcj, if_neg hcr]
      exact h.col _ _

/-- Where neither row is the first or the last one, rows and columns are interchanged. -/
theorem swap_spec (h : Holds t N) (ne : r ≠ j) (hr : 0 < r.val) (hj : 0 < j.val)
    (hr' : r.val + 1 < n) (hj' : j.val + 1 < n) :
    ∃ t', swap t r j = some t' ∧ Interchanged t N r j t' ∧ Frame t N t' := by
  obtain ⟨s, hloop, hs⟩ := exists_foldlM_zero (s := (t, ⟨none, none, none, none⟩))
    (interchangeRows r j) (RowsDone t N r j) (h.start _)
    fun i s hs => hs.step h ne hr hj hr' hj' i
  have hplaced : ∀ c, placed r j n c = Equiv.swap r j := fun c => if_pos c.isLt
  have hnext : ∀ k c, s.1.next (N (Equiv.swap r j k) c) =
      behind (fun l => N (Equiv.swap r j l) c) (k + 1) := by
    intro k c
    have hn := hs.next k c
    rwa [hplaced] at hn
  have hchain : ∀ c : Fin n,
      Chain s.1.next (t.head c) (List.ofFn fun k => N (Equiv.swap r j k) c) := by
    intro c
    refine chain_ofFn_iff.mpr ⟨?_, fun k => hnext k c⟩
    rw [h.head_eq]
    exact (behind_swap_other (fun k => N k c) (by omega) (by omega)).symm
  have htable : s.1 = { t with next := s.1.next, row := s.1.row } := hs.same
  obtain ⟨col, hrelabel, hcol⟩ := relabel_spec (r := r) (j := j) (hchain r) (hchain j) (by simp)
    (by simpa using h.nodes) (h.disjoint_columns ne) t.col
  refine ⟨{ t with
    next := s.1.next
    row := s.1.row
    head := Function.update (Function.update t.head r (t.head j)) j (t.head r)
    tail := Function.update (Function.update t.tail r (t.tail j)) j (t.tail r)
    col := col }, ?_, ⟨⟨h.columns, h.nodes, ?_, ?_, ?_, ?_, ?_⟩, rfl, rfl⟩, ⟨rfl, ?_, ?_⟩⟩
  · have hheadj :
        Function.update (Function.update t.head r (t.head j)) j (t.head r) j = t.head r := by
      rw [Function.update_self]
    have hheadr :
        Function.update (Function.update t.head r (t.head j)) j (t.head r) r = t.head j := by
      rw [Function.update_of_ne (fun he => ne (Fin.ext he)), Function.update_self]
    unfold swap
    rw [h.columns, hloop]
    simp only [Option.bind_eq_bind, Option.bind_some]
    rw [htable]
    simp only [hheadj, hheadr, hrelabel, Option.bind_some]
    rw [h.columns]
  · rintro k c k' c' he
    obtain ⟨hk, hc⟩ := h.distinct _ _ _ _ he
    exact ⟨(Equiv.swap r j).injective hk, (Equiv.swap r j).injective hc⟩
  · intro c
    show Chain s.1.next (Function.update (Function.update t.head r (t.head j)) j (t.head r) c) _
    rw [update_swap]
    exact hchain _
  · intro c
    show Function.update (Function.update t.tail r (t.tail j)) j (t.tail r) c = _
    rw [update_swap, h.tail_eq, getLast_ofFn]
    exact (behind_swap_other (fun k => N k (Equiv.swap r j c)) (by omega) (by omega)).symm
  · intro k c
    have hk := hs.row k (Equiv.swap r j c)
    rwa [hplaced] at hk
  · intro k c
    exact h.relabelled ne hcol _ c
  · intro c hc
    exact ⟨update_swap_of_le t.head r j hc, update_swap_of_le t.tail r j hc⟩
  · intro x hx
    obtain ⟨hn, hrow⟩ := hs.frame x hx
    have hout : ∀ c : Fin n, x ∉ List.ofFn fun k => N (Equiv.swap r j k) c := by
      intro c hm
      obtain ⟨k, hk⟩ := List.mem_ofFn.mp hm
      exact hx _ _ hk
    refine ⟨hn, hrow, ?_⟩
    show col x = _
    rw [hcol, if_neg (hout j), if_neg (hout r)]

theorem Holds.eq_of_frame {u : Table α K} (h : Holds t N) (hu : Holds u N) (frame : Frame t N u)
    (real : u.real = t.real) (imag : u.imag = t.imag) : u = t := by
  have hends : u.head = t.head ∧ u.tail = t.tail := by
    constructor
    · funext c
      by_cases hc : c < n
      · exact (hu.head_eq ⟨c, hc⟩).trans (h.head_eq ⟨c, hc⟩).symm
      · exact (frame.ends c (by omega)).1
    · funext c
      by_cases hc : c < n
      · exact (hu.tail_eq ⟨c, hc⟩).trans (h.tail_eq ⟨c, hc⟩).symm
      · exact (frame.ends c (by omega)).2
  have hfields : ∀ x, u.next x = t.next x ∧ u.row x = t.row x ∧ u.col x = t.col x := by
    intro x
    by_cases hx : ∃ k c, N k c = x
    · obtain ⟨k, c, rfl⟩ := hx
      refine ⟨?_, (hu.row k c).trans (h.row k c).symm, (hu.col k c).trans (h.col k c).symm⟩
      exact ((chain_ofFn_iff.mp (hu.chain c)).2 k).trans
        ((chain_ofFn_iff.mp (h.chain c)).2 k).symm
    · exact frame.others x fun k c he => hx ⟨k, c, he⟩
  cases u
  cases t
  simp only [Table.mk.injEq]
  exact ⟨hu.columns.trans h.columns.symm, hends.1, hends.2, funext fun x => (hfields x).1,
    funext fun x => (hfields x).2.1, funext fun x => (hfields x).2.2, real, imag, frame.nodes⟩

theorem swap_twice (h : Holds t N) (ne : r ≠ j) (hr : 0 < r.val) (hj : 0 < j.val)
    (hr' : r.val + 1 < n) (hj' : j.val + 1 < n) :
    (swap t r j).bind (fun t' => swap t' r j) = some t := by
  obtain ⟨t', hrun, hswap, hframe⟩ := swap_spec h ne hr hj hr' hj'
  obtain ⟨u, hrun', hswap', hframe'⟩ := swap_spec hswap.holds ne hr hj hr' hj'
  have hback : u = t := by
    refine h.eq_of_frame ?_ ⟨hframe'.nodes.trans hframe.nodes, ?_, ?_⟩
      (hswap'.real.trans hswap.real) (hswap'.imag.trans hswap.imag)
    · have hu := hswap'.holds
      simp only [Equiv.swap_apply_self] at hu
      exact hu
    · intro c hc
      exact ⟨(hframe'.ends c hc).1.trans (hframe.ends c hc).1,
        (hframe'.ends c hc).2.trans (hframe.ends c hc).2⟩
    · intro x hx
      obtain ⟨h1, h2, h3⟩ := hframe.others x hx
      obtain ⟨h1', h2', h3'⟩ := hframe'.others x fun k c he => hx _ _ he
      exact ⟨h1'.trans h1, h2'.trans h2, h3'.trans h3⟩
  rw [hrun, Option.bind_some, hrun', hback]

theorem interchangeRows_ends {r j i : Nat} {s s' : Table α K × Locals α}
    (hrun : interchangeRows r j i s = some s') :
    s'.1.head = s.1.head ∧ ∀ c, c ≠ r → c ≠ j → s'.1.tail c = s.1.tail c := by
  obtain ⟨nodes, -, hrun⟩ := Option.bind_eq_some_iff.mp hrun
  obtain ⟨jnode, -, hrun⟩ := Option.bind_eq_some_iff.mp hrun
  obtain ⟨jprevnode, -, hrun⟩ := Option.bind_eq_some_iff.mp hrun
  obtain ⟨rnode, -, hrun⟩ := Option.bind_eq_some_iff.mp hrun
  obtain ⟨rprevnode, -, hrun⟩ := Option.bind_eq_some_iff.mp hrun
  obtain rfl := Option.some.inj hrun
  refine ⟨rfl, fun c hr hj => ?_⟩
  show (if _ then _ else s.1.tail) c = _
  split
  next => rw [Function.update_of_ne hr, Function.update_of_ne hj]
  next => rfl

theorem swap_ends {r j : Nat} (hrun : swap t r j = some t') :
    t'.head = Function.update (Function.update t.head r (t.head j)) j (t.head r) ∧
      ∀ c, c ≠ r → c ≠ j → t'.tail c = t.tail c := by
  obtain ⟨s, hloop, hrun⟩ := Option.bind_eq_some_iff.mp hrun
  obtain ⟨col, -, hrun⟩ := Option.bind_eq_some_iff.mp hrun
  obtain rfl := Option.some.inj hrun
  have hkeeps := foldlM_keeps
    (P := fun s => s.1.head = t.head ∧ ∀ c, c ≠ r → c ≠ j → s.1.tail c = t.tail c)
    (fun s i s' h hstep => ?_) ⟨rfl, fun _ _ _ => rfl⟩ hloop
  · obtain ⟨hhead, htail⟩ := hkeeps
    refine ⟨by simp only [hhead], fun c hr hj => ?_⟩
    show Function.update _ _ _ _ = _
    rw [Function.update_of_ne hj, Function.update_of_ne hr]
    exact htail c hr hj
  · obtain ⟨h1, h2⟩ := interchangeRows_ends hstep
    exact ⟨h1.trans h.1, fun c hr hj => (h2 c hr hj).trans (h.2 c hr hj)⟩

theorem Interchanged.zero (h : Holds t N) (hrun : swap t r j = some t')
    (hswap : Interchanged t N r j t') {z : Fin n} (hz : z.val = 0) : Equiv.swap r j z = z := by
  have hhead := hswap.holds.head_eq z
  rw [(swap_ends hrun).1, update_swap, h.head_eq] at hhead
  unfold behind at hhead
  have hpos : 0 < n := by omega
  rw [dif_pos hpos, dif_pos hpos] at hhead
  have hk := (h.distinct _ _ _ _ (Option.some.inj hhead)).1
  have he : (⟨0, hpos⟩ : Fin n) = z := Fin.ext hz.symm
  rw [he] at hk
  exact hk.symm

theorem Interchanged.last (h : Holds t N) (hrun : swap t r j = some t')
    (hswap : Interchanged t N r j t') {c z : Fin n} (hr : c ≠ r) (hj : c ≠ j)
    (hz : z.val + 1 = n) : Equiv.swap r j z = z := by
  have htail := hswap.holds.tail_eq c
  rw [(swap_ends hrun).2 c (fun he => hr (Fin.ext he)) (fun he => hj (Fin.ext he)), h.tail_eq]
    at htail
  unfold behind at htail
  have hpos : n - 1 < n := by omega
  rw [dif_pos hpos, dif_pos hpos] at htail
  have hk := (h.distinct _ _ _ _ (Option.some.inj htail)).1
  have he : (⟨n - 1, hpos⟩ : Fin n) = z := Fin.ext (by simp; omega)
  rw [he] at hk
  exact hk.symm

def Inside (k : Fin n) : Prop := 0 < k.val ∧ k.val + 1 < n

/-- The head of a column is never set, and its tail only in the columns that are interchanged. -/
theorem swap_iff (h : Holds t N) (ne : r ≠ j) :
    ((∃ t', swap t r j = some t' ∧ Interchanged t N r j t') ∧
      (swap t r j).bind (fun t' => swap t' r j) = some t) ↔ Inside r ∧ Inside j := by
  constructor
  · rintro ⟨⟨t', hrun, hswap⟩, -⟩
    have hmoved : ∀ z, Equiv.swap r j z = z → z ≠ r ∧ z ≠ j := fun z hfix =>
      not_or.mp fun hor => Equiv.swap_apply_ne_self_iff.mpr ⟨ne, hor⟩ hfix
    have hfirst : ∀ z : Fin n, z.val = 0 → z ≠ r ∧ z ≠ j := fun z hz =>
      hmoved z (hswap.zero h hrun hz)
    have hpos : 0 < n := by omega
    obtain ⟨h0r, h0j⟩ := hfirst ⟨0, hpos⟩ rfl
    have hend : ∀ z : Fin n, z.val + 1 = n → z ≠ r ∧ z ≠ j := fun z hz =>
      hmoved z (hswap.last h hrun h0r h0j hz)
    refine ⟨⟨?_, ?_⟩, ?_, ?_⟩
    · exact Nat.pos_of_ne_zero fun hz => (hfirst r hz).1 rfl
    · exact Nat.lt_of_le_of_ne r.isLt fun hz => (hend r hz).1 rfl
    · exact Nat.pos_of_ne_zero fun hz => (hfirst j hz).2 rfl
    · exact Nat.lt_of_le_of_ne j.isLt fun hz => (hend j hz).2 rfl
  · rintro ⟨⟨hr, hr'⟩, hj, hj'⟩
    obtain ⟨t', hrun, hswap, -⟩ := swap_spec h ne hr hj hr' hj'
    exact ⟨⟨t', hrun, hswap⟩, swap_twice h ne hr hj hr' hj'⟩

end Swap

def tableOf (n : Nat) : Table (Fin n × Fin n) Nat where
  columns := n
  head c := if h : c < n then some (⟨0, by omega⟩, ⟨c, h⟩) else none
  tail c := if h : c < n then some (⟨n - 1, by omega⟩, ⟨c, h⟩) else none
  next x := if h : x.1.val + 1 < n then some (⟨x.1 + 1, h⟩, x.2) else none
  row x := x.1
  col x := x.2
  real _ := 0
  imag _ := 0
  nodes := n * n

theorem tableOf_holds (n : Nat) : Holds (tableOf n) fun k c => (k, c) := by
  refine ⟨rfl, Nat.le_mul_self n, fun k c k' c' he => Prod.mk.inj he, fun c => ?_, fun c => ?_,
    fun _ _ => rfl, fun _ _ => rfl⟩
  · have hpos : 0 < n := c.pos
    refine chain_ofFn_iff.mpr ⟨?_, fun k => ?_⟩
    · simp [tableOf, behind, hpos]
    · simp [tableOf, behind]
  · have hpos : n - 1 < n := Nat.sub_lt c.pos Nat.one_pos
    rw [getLast_ofFn]
    simp [tableOf, behind, hpos]

theorem swap_middle : (∃ t', swap (tableOf 4) 1 2 = some t' ∧
      Interchanged (tableOf 4) (fun k c => (k, c)) 1 2 t') ∧
    (swap (tableOf 4) 1 2).bind (fun t' => swap t' 1 2) = some (tableOf 4) :=
  (swap_iff (r := 1) (j := 2) (tableOf_holds 4) (by decide)).mpr
    ⟨⟨by decide, by decide⟩, by decide, by decide⟩

/-- The heads of the columns stay with the first row. -/
theorem swap_first : ¬((∃ t', swap (tableOf 2) 0 1 = some t' ∧
      Interchanged (tableOf 2) (fun k c => (k, c)) 0 1 t') ∧
    (swap (tableOf 2) 0 1).bind (fun t' => swap t' 0 1) = some (tableOf 2)) := by
  rintro ⟨⟨t', hrun, hswap⟩, -⟩
  have hfix := hswap.zero (tableOf_holds 2) hrun (z := 0) rfl
  exact absurd hfix (by decide)

end NodeSwap

end TcpAndParallel
