import Mathlib.Algebra.BigOperators.Fin
import Mathlib.Algebra.Order.Ring.GeomSum
import Mathlib.Combinatorics.Colex
import Mathlib.Data.Nat.Bitwise
import Mathlib.Data.Nat.ModEq

namespace TcpAndParallel

namespace Adjacency

variable {lim : Nat}

/-- A resistor between two nodes, counted from zero. -/
structure Node (lim : Nat) where
  a : Fin lim
  b : Fin lim
  deriving DecidableEq

def maskBit (i : Fin lim) : UInt32 := 1 <<< i.val.toUInt32

/-- `adj_put` of fork-adj-20130524.c. -/
def adjPut (adj : Fin lim → UInt32) (mynode : Node lim) : Fin lim → UInt32 :=
  let rowa := maskBit mynode.a
  let rowb := maskBit mynode.b
  let adj := Function.update adj mynode.b (adj mynode.b + rowa)
  -- "If the node is connected to itself, only place it in once"
  if mynode.a ≠ mynode.b then Function.update adj mynode.a (adj mynode.a + rowb) else adj

/-- `adj_put` of adj-2013-05-18.c. The file counts nodes from one and shifts by one less. -/
def adjPutOnce (adj : Fin lim → UInt32) (mynode : Node lim) : Fin lim → UInt32 :=
  let row := maskBit mynode.a
  let col := maskBit mynode.b
  if row &&& adj mynode.b = 0 ∨ col &&& adj mynode.a = 0 then
    let adj := Function.update adj mynode.b (adj mynode.b + row)
    Function.update adj mynode.a (adj mynode.a + col)
  else adj

def masks (put : (Fin lim → UInt32) → Node lim → Fin lim → UInt32) (edges : List (Node lim)) :
    Fin lim → UInt32 := edges.foldl put fun _ => 0

def Node.Joins (e : Node lim) (a b : Fin lim) : Prop := e.a = a ∧ e.b = b ∨ e.a = b ∧ e.b = a

instance (e : Node lim) (a b : Fin lim) : Decidable (e.Joins a b) :=
  inferInstanceAs (Decidable (_ ∨ _))

def Adjacent (edges : List (Node lim)) (a b : Fin lim) : Prop := ∃ e ∈ edges, e.Joins a b

instance (edges : List (Node lim)) (a b : Fin lim) : Decidable (Adjacent edges a b) :=
  List.decidableBEx _ edges

def Represents (adj : Fin lim → UInt32) (edges : List (Node lim)) : Prop :=
  ∀ b k, (adj b).toNat.testBit k = true ↔ ∃ a : Fin lim, a.val = k ∧ Adjacent edges a b

/-- The mask that has the bits of the neighbours of `b`. -/
def neighbours (edges : List (Node lim)) (b : Fin lim) : Nat :=
  ∑ a : Fin lim, if Adjacent edges a b then 2 ^ a.val else 0

/-- What one resistor adds to the mask of `b`. -/
def Node.share (e : Node lim) (b : Fin lim) : Nat := ∑ a : Fin lim, if e.Joins a b then 2 ^ a.val else 0

theorem maskBit_toNat (hlim : lim ≤ 32) (i : Fin lim) : (maskBit i).toNat = 2 ^ i.val := by
  have hi := i.isLt
  have hlt : 2 ^ i.val < 2 ^ 32 := Nat.pow_lt_pow_right (by omega) (by omega)
  have hk : i.val.toUInt32.toNat = i.val := UInt32.toNat_ofNat_of_lt' (by simp [UInt32.size]; omega)
  unfold maskBit
  rw [UInt32.toNat_shiftLeft, hk, UInt32.toNat_one, Nat.one_shiftLeft,
    Nat.mod_eq_of_lt (show i.val < 32 by omega), Nat.mod_eq_of_lt hlt]

theorem testBit_neighbours (edges : List (Node lim)) (b : Fin lim) (k : Nat) :
    (neighbours edges b).testBit k = true ↔ ∃ a : Fin lim, a.val = k ∧ Adjacent edges a b := by
  have hsum : neighbours edges b =
      ∑ i ∈ (Finset.univ.filter fun a => Adjacent edges a b).map Fin.valEmbedding, 2 ^ i := by
    unfold neighbours
    rw [Finset.sum_map, Finset.sum_filter]
    rfl
  rw [← Nat.mem_bitIndices, ← List.mem_toFinset, hsum, Finset.toFinset_bitIndices_sum_two_pow]
  simp [and_comm]

theorem neighbours_lt (hlim : lim ≤ 32) (edges : List (Node lim)) (b : Fin lim) :
    neighbours edges b < 2 ^ 32 := by
  refine Nat.lt_pow_two_of_testBit _ fun k hk => ?_
  rw [← Bool.not_eq_true, testBit_neighbours]
  rintro ⟨a, rfl, -⟩
  have := a.isLt
  omega

theorem represents_iff_eq {adj : Fin lim → UInt32} {edges : List (Node lim)} :
    Represents adj edges ↔ ∀ b, (adj b).toNat = neighbours edges b := by
  constructor
  · intro h b
    refine Nat.eq_of_testBit_eq fun k => ?_
    rw [Bool.eq_iff_iff, h b k, testBit_neighbours]
  · intro h b k
    rw [h b, testBit_neighbours]

theorem share_of_tail {e : Node lim} (h : e.a ≠ e.b) : e.share e.b = 2 ^ e.a.val := by
  unfold Node.share
  rw [Finset.sum_eq_single e.a]
  · exact if_pos (.inl ⟨rfl, rfl⟩)
  · intro a _ ha
    refine if_neg ?_
    rintro (⟨he, -⟩ | ⟨he, -⟩)
    · exact ha he.symm
    · exact h he
  · simp

theorem Node.joins_comm {e : Node lim} {a b : Fin lim} : e.Joins a b ↔ e.Joins b a := by
  unfold Node.Joins
  tauto

theorem share_of_head {e : Node lim} (h : e.a ≠ e.b) : e.share e.a = 2 ^ e.b.val := by
  unfold Node.share
  rw [Finset.sum_eq_single e.b]
  · exact if_pos (.inr ⟨rfl, rfl⟩)
  · intro a _ ha
    refine if_neg ?_
    rintro (⟨-, he⟩ | ⟨-, he⟩)
    · exact h he.symm
    · exact ha he.symm
  · simp

theorem share_of_loop {e : Node lim} (h : e.a = e.b) : e.share e.b = 2 ^ e.a.val := by
  unfold Node.share
  rw [Finset.sum_eq_single e.a]
  · exact if_pos (.inl ⟨rfl, rfl⟩)
  · intro a _ ha
    refine if_neg ?_
    rintro (⟨he, -⟩ | ⟨-, he⟩)
    · exact ha he.symm
    · exact ha (he.symm.trans h.symm)
  · simp

theorem share_of_other {e : Node lim} {b : Fin lim} (ha : e.a ≠ b) (hb : e.b ≠ b) : e.share b = 0 := by
  refine Finset.sum_eq_zero fun a _ => if_neg ?_
  rintro (⟨-, he⟩ | ⟨he, -⟩)
  · exact hb he
  · exact ha he

theorem adjPut_toNat (hlim : lim ≤ 32) (adj : Fin lim → UInt32) (e : Node lim) (b : Fin lim) :
    (adjPut adj e b).toNat = ((adj b).toNat + e.share b) % 2 ^ 32 := by
  have hmod : (adj b).toNat % 2 ^ 32 = (adj b).toNat := Nat.mod_eq_of_lt (adj b).toNat_lt
  simp only [adjPut]
  by_cases hloop : e.a = e.b
  · rw [if_neg (not_not.mpr hloop)]
    by_cases hb : e.b = b
    · subst hb
      rw [Function.update_self, UInt32.toNat_add, maskBit_toNat hlim, share_of_loop hloop]
    · rw [Function.update_of_ne (Ne.symm hb), share_of_other (hloop ▸ hb) hb, Nat.add_zero, hmod]
  · rw [if_pos hloop]
    by_cases ha : e.a = b
    · subst ha
      rw [Function.update_self, Function.update_of_ne hloop, UInt32.toNat_add, maskBit_toNat hlim,
        share_of_head hloop]
    · rw [Function.update_of_ne (Ne.symm ha)]
      by_cases hb : e.b = b
      · subst hb
        rw [Function.update_self, UInt32.toNat_add, maskBit_toNat hlim, share_of_tail hloop]
      · rw [Function.update_of_ne (Ne.symm hb), share_of_other ha hb, Nat.add_zero, hmod]

theorem masks_adjPut_toNat (hlim : lim ≤ 32) (edges : List (Node lim)) (b : Fin lim) :
    (masks adjPut edges b).toNat = (edges.map fun e => e.share b).sum % 2 ^ 32 := by
  have main : ∀ adj : Fin lim → UInt32, (edges.foldl adjPut adj b).toNat =
      ((adj b).toNat + (edges.map fun e => e.share b).sum) % 2 ^ 32 := by
    induction edges with
    | nil =>
      intro adj
      rw [List.foldl_nil, List.map_nil, List.sum_nil, Nat.add_zero, Nat.mod_eq_of_lt (adj b).toNat_lt]
    | cons e edges ih =>
      intro adj
      rw [List.foldl_cons, ih, adjPut_toNat hlim, List.map_cons, List.sum_cons, Nat.mod_add_mod,
        Nat.add_assoc]
  rw [masks, main, UInt32.toNat_zero, Nat.zero_add]

def multiplicity (edges : List (Node lim)) (a b : Fin lim) : Nat := edges.countP fun e => e.Joins a b

theorem sum_share (edges : List (Node lim)) (b : Fin lim) :
    (edges.map fun e => e.share b).sum = ∑ a, multiplicity edges a b * 2 ^ a.val := by
  induction edges with
  | nil => simp [multiplicity]
  | cons e edges ih =>
    rw [List.map_cons, List.sum_cons, ih, Node.share, ← Finset.sum_add_distrib]
    refine Finset.sum_congr rfl fun a _ => ?_
    unfold multiplicity
    rw [List.countP_cons]
    by_cases h : e.Joins a b
    · simp only [h, decide_true, if_true]
      rw [Nat.succ_mul, Nat.add_comm]
    · simp [h]

/-- The bits that resistors beyond the first between two nodes add to the mask of `b`. -/
def surplus (edges : List (Node lim)) (b : Fin lim) : Nat :=
  ∑ a : Fin lim, (multiplicity edges a b - 1) * 2 ^ a.val

theorem neighbours_add_surplus (edges : List (Node lim)) (b : Fin lim) :
    neighbours edges b + surplus edges b = ∑ a, multiplicity edges a b * 2 ^ a.val := by
  unfold neighbours surplus
  rw [← Finset.sum_add_distrib]
  refine Finset.sum_congr rfl fun a _ => ?_
  have hpos : 0 < multiplicity edges a b ↔ Adjacent edges a b := by
    simp [multiplicity, Adjacent, List.countP_pos_iff]
  split
  next h =>
    obtain ⟨m, hm⟩ := Nat.exists_eq_succ_of_ne_zero (hpos.mpr h).ne'
    rw [hm, Nat.succ_sub_one, Nat.succ_mul, Nat.add_comm]
  next h =>
    have hzero : multiplicity edges a b = 0 := Nat.eq_zero_of_not_pos (mt hpos.mp h)
    simp [hzero]

theorem represents_adjPut_iff (hlim : lim ≤ 32) (edges : List (Node lim)) :
    Represents (masks adjPut edges) edges ↔ ∀ b, 2 ^ 32 ∣ surplus edges b := by
  rw [represents_iff_eq]
  refine forall_congr' fun b => ?_
  rw [masks_adjPut_toNat hlim, sum_share, ← neighbours_add_surplus]
  have hlt := neighbours_lt hlim edges b
  omega

theorem land_maskBit_eq_zero_iff (hlim : lim ≤ 32) (x : UInt32) (a : Fin lim) :
    maskBit a &&& x = 0 ↔ ¬x.toNat.testBit a.val = true := by
  rw [← UInt32.toNat_inj, UInt32.toNat_and, maskBit_toNat hlim, Nat.two_pow_and]
  cases x.toNat.testBit a.val <;> simp

theorem adjacent_comm {edges : List (Node lim)} {a b : Fin lim} :
    Adjacent edges a b ↔ Adjacent edges b a := by
  unfold Adjacent
  simp only [Node.joins_comm (a := a)]

theorem adjacent_concat {edges : List (Node lim)} {e : Node lim} {a b : Fin lim} :
    Adjacent (edges ++ [e]) a b ↔ Adjacent edges a b ∨ e.Joins a b := by
  simp [Adjacent, or_and_right, exists_or]

theorem Node.Joins.adjacent_iff {e : Node lim} {a b : Fin lim} (h : e.Joins a b)
    (edges : List (Node lim)) : Adjacent edges a b ↔ Adjacent edges e.a e.b := by
  rcases h with ⟨rfl, rfl⟩ | ⟨rfl, rfl⟩
  · exact Iff.rfl
  · exact adjacent_comm

theorem neighbours_concat (edges : List (Node lim)) (e : Node lim) (b : Fin lim) :
    neighbours (edges ++ [e]) b =
      neighbours edges b + if Adjacent edges e.a e.b then 0 else e.share b := by
  unfold neighbours Node.share
  simp only [adjacent_concat]
  split
  next hold =>
    rw [Nat.add_zero]
    refine Finset.sum_congr rfl fun a _ => ?_
    refine if_congr ⟨fun h => h.elim id fun hj => (hj.adjacent_iff edges).mpr hold, .inl⟩ rfl rfl
  next hnew =>
    rw [← Finset.sum_add_distrib]
    refine Finset.sum_congr rfl fun a _ => ?_
    by_cases hj : e.Joins a b
    · simp [hj, (hj.adjacent_iff edges).not.mpr hnew]
    · simp [hj]

theorem masks_concat (put : (Fin lim → UInt32) → Node lim → Fin lim → UInt32)
    (edges : List (Node lim)) (e : Node lim) :
    masks put (edges ++ [e]) = put (masks put edges) e := by
  rw [masks, List.foldl_append]
  rfl

section Loops

variable {i : Nat} {adj : Fin lim → UInt32} {edges : List (Node lim)} {e : Node lim}

/-- How many bits of the mask of `b` a loop at `i` or at a node behind it leaves alone. -/
def width (i b : Nat) : Nat := if b < i then 32 else if b = i then i + 1 else i

/-- The masks have the listed resistors in the bits that loops from `i` on leave alone. -/
def Agrees (i : Nat) (adj : Fin lim → UInt32) (edges : List (Node lim)) : Prop :=
  ∀ b : Fin lim, (adj b).toNat ≡ neighbours edges b [MOD 2 ^ width i b]

theorem width_le {b : Nat} (hb : b < 32) : width i b ≤ 32 := by
  unfold width
  split_ifs <;> omega

theorem Agrees.testBit_iff (h : Agrees i adj edges) {a b : Fin lim} (ha : a.val < width i b) :
    (adj b).toNat.testBit a.val = true ↔ Adjacent edges a b := by
  have hbit := congrArg (fun m => Nat.testBit m a.val) (h b)
  simp only [Nat.testBit_mod_two_pow, ha, decide_true, Bool.true_and] at hbit
  rw [hbit, testBit_neighbours]
  constructor
  · rintro ⟨c, hc, hadj⟩
    exact Fin.ext hc ▸ hadj
  · exact fun hadj => ⟨a, rfl, hadj⟩

theorem Agrees.loop (hlim : lim ≤ 32) (h : Agrees i adj edges) (hloop : e.a = e.b) (hi : i ≤ e.b.val) :
    Agrees i (adjPutOnce adj e) edges := by
  intro b
  have hb := h b
  unfold adjPutOnce
  by_cases hguard : maskBit e.a &&& adj e.b = 0 ∨ maskBit e.b &&& adj e.a = 0
  · rw [if_pos hguard, hloop]
    by_cases he : b = e.b
    · subst he
      have hlt := e.b.isLt
      have hbits : 2 ^ width i e.b ∣ 2 ^ e.b.val + 2 ^ e.b.val := by
        rw [← Nat.two_mul, ← Nat.pow_succ']
        refine Nat.pow_dvd_pow 2 ?_
        unfold width
        split_ifs <;> omega
      have hword : 2 ^ width i e.b ∣ 2 ^ 32 := Nat.pow_dvd_pow 2 (width_le (by omega))
      simp only [Function.update_self, UInt32.toNat_add, maskBit_toNat hlim, Nat.mod_add_mod,
        Nat.add_assoc]
      refine ((Nat.mod_modEq _ _).of_dvd hword).trans (Nat.ModEq.trans ?_ hb)
      exact (Nat.modEq_zero_iff_dvd.mpr hbits).add_left _
    · simpa only [Function.update_of_ne he] using hb
  · rwa [if_neg hguard]

theorem share_modEq_zero (hne : e.a ≠ e.b) (ha : i ≤ e.a.val) (hb : i ≤ e.b.val) (b : Fin lim) :
    e.share b ≡ 0 [MOD 2 ^ width i b] := by
  have hval : e.a.val ≠ e.b.val := Fin.val_ne_of_ne hne
  rw [Nat.modEq_zero_iff_dvd]
  by_cases hhead : e.a = b
  · subst hhead
    rw [share_of_head hne]
    refine Nat.pow_dvd_pow 2 ?_
    unfold width
    split_ifs <;> omega
  · by_cases htail : e.b = b
    · subst htail
      rw [share_of_tail hne]
      refine Nat.pow_dvd_pow 2 ?_
      unfold width
      split_ifs <;> omega
    · rw [share_of_other hhead htail]
      exact Nat.dvd_zero _

theorem Agrees.adjPut (hlim : lim ≤ 32) (h : Agrees i adj edges) (e : Node lim) (b : Fin lim) :
    (adjPut adj e b).toNat ≡ neighbours edges b + e.share b [MOD 2 ^ width i b] := by
  have hword : 2 ^ width i b ∣ 2 ^ 32 := Nat.pow_dvd_pow 2 (width_le (by omega))
  rw [adjPut_toNat hlim]
  exact ((Nat.mod_modEq _ _).of_dvd hword).trans ((h b).add_right _)

/-- Between two different nodes the check of the file finds a duplicate where a bit that counts
stands for it, and else what is added does not count. -/
theorem Agrees.edge (hlim : lim ≤ 32) (h : Agrees i adj edges) (hne : e.a ≠ e.b) :
    Agrees i (adjPutOnce adj e) (edges ++ [e]) := by
  have hput : Adjacency.adjPutOnce adj e =
      if maskBit e.a &&& adj e.b = 0 ∨ maskBit e.b &&& adj e.a = 0 then Adjacency.adjPut adj e else adj := by
    simp only [Adjacency.adjPutOnce, Adjacency.adjPut, if_pos hne]
  intro b
  rw [hput, neighbours_concat]
  by_cases hlow : e.a.val < i ∨ e.b.val < i
  · have hwidth : e.a.val < width i e.b ∧ e.b.val < width i e.a := by
      have ha := e.a.isLt
      have hb := e.b.isLt
      unfold width
      split_ifs <;> omega
    have hguard : (maskBit e.a &&& adj e.b = 0 ∨ maskBit e.b &&& adj e.a = 0) ↔
        ¬Adjacent edges e.a e.b := by
      rw [land_maskBit_eq_zero_iff hlim, land_maskBit_eq_zero_iff hlim, h.testBit_iff hwidth.1,
        h.testBit_iff hwidth.2, adjacent_comm (a := e.b), or_self]
    by_cases hadj : Adjacent edges e.a e.b
    · rw [if_neg (hguard.not.mpr (not_not.mpr hadj)), if_pos hadj]
      exact h b
    · rw [if_pos (hguard.mpr hadj), if_neg hadj]
      exact h.adjPut hlim e b
  · obtain ⟨ha, hb⟩ := not_or.mp hlow
    have hzero := share_modEq_zero hne (Nat.not_lt.mp ha) (Nat.not_lt.mp hb) b
    have hold : neighbours edges b ≡
        neighbours edges b + (if Adjacent edges e.a e.b then 0 else e.share b) [MOD 2 ^ width i b] := by
      split
      · exact rfl
      · exact (hzero.add_left _).symm
    refine Nat.ModEq.trans ?_ hold
    split
    · exact (h.adjPut hlim e b).trans (hzero.add_left _)
    · exact h b

theorem agrees_masks (hlim : lim ≤ 32) (edges : List (Node lim))
    (first : ∀ e ∈ edges, e.a = e.b → i ≤ e.b.val) :
    Agrees i (masks adjPutOnce edges) (edges.filter fun e => e.a ≠ e.b) := by
  induction edges using List.reverseRecOn with
  | nil =>
    intro b
    have hzero : neighbours ([] : List (Node lim)) b = 0 := Finset.sum_eq_zero fun a _ => by
      simp [Adjacent]
    rw [List.filter_nil, hzero]
    rfl
  | append_singleton edges e ih =>
    have h := ih fun f hf => first f (List.mem_append_left _ hf)
    rw [masks_concat, List.filter_append]
    by_cases hloop : e.a = e.b
    · simpa [hloop] using h.loop hlim hloop (first e (by simp) hloop)
    · simpa [hloop] using h.edge hlim hloop

/-- With the check for duplicates the masks are right if and only if no resistor connects a node
with itself: the bit that stands for the lowest loop is never set. -/
theorem represents_adjPutOnce_iff (hlim : lim ≤ 32) (edges : List (Node lim)) :
    Represents (masks adjPutOnce edges) edges ↔ ∀ e ∈ edges, e.a ≠ e.b := by
  constructor
  · intro h e he hloop
    have hex : ∃ i, ∃ e ∈ edges, e.a = e.b ∧ e.b.val = i := ⟨_, e, he, hloop, rfl⟩
    obtain ⟨e, he, hloop, hi⟩ := Nat.find_spec hex
    have hagrees := agrees_masks (i := e.b.val) hlim edges fun f hf hfloop =>
      hi ▸ Nat.find_min' hex ⟨f, hf, hfloop, rfl⟩
    have hbit := (h e.b e.b.val).mpr ⟨e.b, rfl, e, he, .inl ⟨hloop, rfl⟩⟩
    rw [hagrees.testBit_iff (by simp [width])] at hbit
    obtain ⟨f, hf, hjoins⟩ := hbit
    have hne : f.a ≠ f.b := by simpa using (List.mem_filter.mp hf).2
    rcases hjoins with ⟨ha, hb⟩ | ⟨ha, hb⟩
    · exact hne (ha.trans hb.symm)
    · exact hne (ha.trans hb.symm)
  · intro h
    have hagrees := agrees_masks (i := lim) hlim edges fun e he hloop => absurd hloop (h e he)
    rw [List.filter_eq_self.mpr fun e he => decide_eq_true (h e he)] at hagrees
    rw [represents_iff_eq]
    intro b
    have hmod := hagrees b
    rw [width, if_pos b.isLt] at hmod
    exact hmod.eq_of_lt_of_lt (masks adjPutOnce edges b).toNat_lt (neighbours_lt hlim edges b)

end Loops

theorem multiplicity_le_one {edges : List (Node lim)}
    (simple : edges.Pairwise fun e f => ¬f.Joins e.a e.b) (a b : Fin lim) : multiplicity edges a b ≤ 1 := by
  induction edges with
  | nil => exact Nat.zero_le 1
  | cons e edges ih =>
    obtain ⟨hnew, hrest⟩ := List.pairwise_cons.mp simple
    unfold multiplicity
    rw [List.countP_cons]
    by_cases h : e.Joins a b
    · have hzero : edges.countP (fun f => decide (f.Joins a b)) = 0 := by
        refine List.countP_eq_zero.mpr fun f hf hj => hnew f hf ?_
        rcases h with ⟨rfl, rfl⟩ | ⟨rfl, rfl⟩
        · exact of_decide_eq_true hj
        · exact Node.joins_comm.mp (of_decide_eq_true hj)
      simp [hzero, h]
    · have hle := ih hrest
      unfold multiplicity at hle
      simpa [h] using hle

theorem surplus_eq_zero {edges : List (Node lim)} (simple : edges.Pairwise fun e f => ¬f.Joins e.a e.b)
    (b : Fin lim) : surplus edges b = 0 := by
  refine Finset.sum_eq_zero fun a _ => ?_
  rw [Nat.sub_eq_zero_of_le (multiplicity_le_one simple a b), Nat.zero_mul]

/-- fork-adj-20130524.c goes wrong over parallel resistors and adj-2013-05-18.c over loops: the one
has the masks right if and only if what the repetitions add vanishes, as it does if there are none,
the other if and only if there is no loop. -/
theorem masks_represent_iff (hlim : lim ≤ 32) (edges : List (Node lim)) :
    (Represents (masks adjPut edges) edges ↔ ∀ b, 2 ^ 32 ∣ surplus edges b) ∧
    ((edges.Pairwise fun e f => ¬f.Joins e.a e.b) → Represents (masks adjPut edges) edges) ∧
    (Represents (masks adjPutOnce edges) edges ↔ ∀ e ∈ edges, e.a ≠ e.b) := by
  have hiff := represents_adjPut_iff hlim edges
  refine ⟨hiff, fun simple => hiff.mpr fun b => ?_, represents_adjPutOnce_iff hlim edges⟩
  rw [surplus_eq_zero simple b]
  exact Nat.dvd_zero _

theorem masks_represent_triangle :
    Represents (masks adjPut [⟨0, 1⟩, ⟨1, 2⟩, ⟨2, 2⟩]) ([⟨0, 1⟩, ⟨1, 2⟩, ⟨2, 2⟩] : List (Node 3)) ∧
      Represents (masks adjPutOnce [⟨0, 1⟩, ⟨1, 0⟩]) ([⟨0, 1⟩, ⟨1, 0⟩] : List (Node 3)) :=
  ⟨(masks_represent_iff (by decide) _).2.1 (by decide),
    (masks_represent_iff (by decide) _).2.2.mpr (by decide)⟩

/-- A second resistor between two nodes moves the bit to the next node, and so does a loop. -/
theorem bit_is_carried :
    ¬Represents (masks adjPut [⟨0, 1⟩, ⟨0, 1⟩]) ([⟨0, 1⟩, ⟨0, 1⟩] : List (Node 2)) ∧
      ¬Represents (masks adjPutOnce [⟨0, 0⟩]) ([⟨0, 0⟩] : List (Node 2)) := by
  constructor
  · intro h
    have hbit := (h 1 0).mpr ⟨0, rfl, by decide⟩
    exact absurd hbit (by decide)
  · intro h
    have hbit := (h 0 0).mpr ⟨0, rfl, by decide⟩
    exact absurd hbit (by decide)

end Adjacency

end TcpAndParallel
