import TcpAndParallel.FirstFitRuns

namespace TcpAndParallel

namespace Pages

structure PageRange where
  addr : Nat
  size : Nat
  deriving DecidableEq, Repr

def PageRange.extent (r : PageRange) : Extent := ⟨r.addr, r.size⟩

@[simp] theorem extent_base (r : PageRange) : r.extent.base = r.addr := rfl

@[simp] theorem extent_len (r : PageRange) : r.extent.len = r.size := rfl

@[simp] theorem extent_stop (r : PageRange) : r.extent.stop = r.addr + r.size := rfl

def Ascending (rs : List PageRange) : Prop := rs.Pairwise fun a b => a.addr < b.addr

variable {τ : Type*}

/-- The AVL tree of the free ranges as alloc.c uses it: `nodes` is the order of its iterators, and
`write` changes the node at an address through the pointer to it. -/
structure AddrAvl (τ : Type*) where
  init : τ
  nodes : τ → List PageRange
  insert : PageRange → τ → τ
  remove : Nat → τ → τ
  write : Nat → PageRange → τ → τ

/-- What is known of the tree as long as its nodes have different addresses. -/
structure AddrAvl.Lawful (v : AddrAvl τ) : Prop where
  init : v.nodes v.init = []
  insert : ∀ {t : τ} {pre post : List PageRange} {r : PageRange}, v.nodes t = pre ++ post →
    Ascending (pre ++ r :: post) → v.nodes (v.insert r t) = pre ++ r :: post
  remove : ∀ {t : τ} {pre post : List PageRange} {r : PageRange}, v.nodes t = pre ++ r :: post →
    Ascending (pre ++ r :: post) → v.nodes (v.remove r.addr t) = pre ++ post
  write : ∀ {t : τ} {pre post : List PageRange} {r r' : PageRange}, v.nodes t = pre ++ r :: post →
    Ascending (pre ++ r :: post) → Ascending (pre ++ r' :: post) →
    v.nodes (v.write r.addr r' t) = pre ++ r' :: post

section Tree

variable (v : AddrAvl τ)

/-- `addr_search` with `AVL_EQUAL`. -/
def AddrAvl.search (addr : Nat) (t : τ) : Option PageRange := (v.nodes t).find? (·.addr = addr)

/-- The node that an iterator at `addr` comes to by `addr_decr_iter`. -/
def AddrAvl.below (addr : Nat) (t : τ) : Option PageRange :=
  ((v.nodes t).takeWhile (·.addr ≠ addr)).getLast?

end Tree

theorem Ascending.cross {pre post : List PageRange} {r : PageRange} (h : Ascending (pre ++ r :: post)) :
    (∀ a ∈ pre, a.addr < r.addr) ∧ ∀ b ∈ post, r.addr < b.addr := by
  obtain ⟨-, htail, hcross⟩ := List.pairwise_append.mp h
  exact ⟨fun a ha => hcross a ha r (by simp), (List.pairwise_cons.mp htail).1⟩

/-- A node whose address stays between those of its neighbours may change. -/
theorem Ascending.write {pre post : List PageRange} {r r' : PageRange} (h : Ascending (pre ++ r :: post))
    (low : ∀ a ∈ pre, a.addr < r'.addr) (high : ∀ b ∈ post, r'.addr < b.addr) :
    Ascending (pre ++ r' :: post) := by
  obtain ⟨hpre, htail, hcross⟩ := List.pairwise_append.mp h
  refine List.pairwise_append.mpr ⟨hpre, List.pairwise_cons.mpr
    ⟨high, (List.pairwise_cons.mp htail).2⟩, fun a ha b hb => ?_⟩
  rcases List.mem_cons.mp hb with rfl | hb
  · exact low a ha
  · exact hcross a ha b (List.mem_cons_of_mem r hb)

theorem Ascending.insert {pre post : List PageRange} {r : PageRange} (h : Ascending (pre ++ post))
    (low : ∀ a ∈ pre, a.addr < r.addr) (high : ∀ b ∈ post, r.addr < b.addr) :
    Ascending (pre ++ r :: post) := by
  obtain ⟨hpre, hpost, hcross⟩ := List.pairwise_append.mp h
  refine List.pairwise_append.mpr ⟨hpre, List.pairwise_cons.mpr ⟨high, hpost⟩, fun a ha b hb => ?_⟩
  rcases List.mem_cons.mp hb with rfl | hb
  · exact low a ha
  · exact hcross a ha b hb

theorem search_at {v : AddrAvl τ} {t : τ} {pre post : List PageRange} {r : PageRange}
    (ht : v.nodes t = pre ++ r :: post) (h : Ascending (pre ++ r :: post)) :
    v.search r.addr t = some r := by
  have hne : ∀ a ∈ pre, ¬decide (a.addr = r.addr) = true := fun a ha => by
    have hlt := h.cross.1 a ha
    simp only [decide_eq_true_eq]
    omega
  rw [AddrAvl.search, ht, List.find?_append, List.find?_eq_none.mpr hne]
  simp

theorem below_at {v : AddrAvl τ} {t : τ} {pre post : List PageRange} {r : PageRange}
    (ht : v.nodes t = pre ++ r :: post) (h : Ascending (pre ++ r :: post)) :
    v.below r.addr t = pre.getLast? := by
  have hne : ∀ a ∈ pre, decide (a.addr ≠ r.addr) = true := fun a ha => by
    have hlt := h.cross.1 a ha
    simp only [decide_eq_true_eq]
    omega
  rw [AddrAvl.below, ht, List.takeWhile_append_of_pos hne]
  simp

def insertSorted (r : PageRange) : List PageRange → List PageRange
  | [] => [r]
  | g :: rest => if r.addr < g.addr then r :: g :: rest else g :: insertSorted r rest

def sortedList : AddrAvl (List PageRange) where
  init := []
  nodes := id
  insert := insertSorted
  remove addr rs := rs.filter (·.addr ≠ addr)
  write addr r rs := rs.map fun g => if g.addr = addr then r else g

theorem insertSorted_split {pre post : List PageRange} {r : PageRange}
    (h : Ascending (pre ++ r :: post)) : insertSorted r (pre ++ post) = pre ++ r :: post := by
  induction pre with
  | nil =>
    cases post with
    | nil => rfl
    | cons g post => simp [insertSorted, h.cross.2 g (by simp)]
  | cons a pre ih =>
    obtain ⟨ha, hs⟩ := List.pairwise_cons.mp h
    have hlt : a.addr < r.addr := ha r (by simp)
    simp [insertSorted, Nat.not_lt.mpr hlt.le, ih hs]

theorem sortedList_lawful : sortedList.Lawful where
  init := rfl
  insert := by
    rintro t pre post r rfl h
    exact insertSorted_split h
  remove := by
    rintro t pre post r rfl h
    have hpre : pre.filter (·.addr ≠ r.addr) = pre :=
      List.filter_eq_self.mpr fun a ha => by simp [(h.cross.1 a ha).ne]
    have hpost : post.filter (·.addr ≠ r.addr) = post :=
      List.filter_eq_self.mpr fun b hb => by simp [(h.cross.2 b hb).ne']
    change (pre ++ r :: post).filter (·.addr ≠ r.addr) = pre ++ post
    rw [List.filter_append, hpre, List.filter_cons_of_neg (by simp), hpost]
  write := by
    rintro t pre post r r' rfl h -
    have hpre : pre.map (fun g => if g.addr = r.addr then r' else g) = pre :=
      (List.map_congr_left fun a ha => if_neg (h.cross.1 a ha).ne).trans (List.map_id pre)
    have hpost : post.map (fun g => if g.addr = r.addr then r' else g) = post :=
      (List.map_congr_left fun b hb => if_neg (h.cross.2 b hb).ne').trans (List.map_id post)
    change (pre ++ r :: post).map (fun g => if g.addr = r.addr then r' else g) = pre ++ r' :: post
    rw [List.map_append, List.map_cons, if_pos rfl, hpre, hpost]

end Pages

end TcpAndParallel
