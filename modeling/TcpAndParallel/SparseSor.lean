import Mathlib.Algebra.BigOperators.Fin
import Mathlib.Tactic.LinearCombination
import Mathlib.Tactic.Ring
import TcpAndParallel.Runs
import TcpAndParallel.SparseLists

namespace TcpAndParallel

namespace SparseSor

open SparseLists

variable {K : Type*} [Field K]

structure NodeList (K : Type*) where
  length : Nat
  diag : Nat → K
  nodes : List (Node K)

/-- `diag` starts as what `malloc` returns. -/
def listInit (junk : Nat → K) : NodeList K := ⟨0, junk, []⟩

def listAppend (mylist : NodeList K) (mynode : Node K) : NodeList K where
  length := mylist.length + 1
  diag :=
    if mynode.row = mynode.col then Function.update mylist.diag mynode.row mynode.G
    else mylist.diag
  nodes := mylist.nodes ++ [mynode]

def listOf (junk : Nat → K) (nodes : List (Node K)) : NodeList K :=
  nodes.foldl listAppend (listInit junk)

/-- A pointer to a node is the list from the node on, and `NULL` the empty one. -/
def getNode : List (Node K) → Nat → List (Node K)
  | [], _ => []
  | mynode :: rest, 0 => mynode :: rest
  | _ :: rest, x + 1 => getNode rest x

omit [Field K] in
theorem getNode_eq (nodes : List (Node K)) (x : Nat) : getNode nodes x = nodes.drop x := by
  induction nodes generalizing x with
  | nil => simp [getNode]
  | cons node nodes ih =>
    cases x with
    | zero => rfl
    | succ x => exact ih x

/-- The arrays `A_x` and `a` of `A_sor_x`. -/
structure Scratch (K : Type*) where
  aX : Nat → K
  a : Nat → Nat → K

def scatterNode (x : Nat → K) (s : Scratch K) (mynode : Node K) : Scratch K :=
  let i := mynode.row
  let j := mynode.col
  let s := { s with a := Function.update s.a i (Function.update (s.a i) j mynode.G) }
  if i < j ∧ i ≠ j then { s with aX := Function.update s.aX i (s.aX i + mynode.G * x j) } else s

/-- The `do` loop, which ends at the tail; `none` where it reads a node at `NULL`. -/
def scatter (nodes : List (Node K)) (x : Nat → K) (k : Nat) (s : Scratch K) :
    Option (Scratch K) :=
  match h : getNode nodes k with
  | [] => none
  | mynode :: rest =>
    let s := scatterNode x s mynode
    if rest = [] then some s else scatter nodes x (k + 1) s
termination_by nodes.length - k
decreasing_by
  have hlen := congrArg List.length h
  rw [getNode_eq, List.length_drop, List.length_cons] at hlen
  omega

/-- The rows from 1 on. -/
def leftRow (s : Scratch K) (diag x b : Nat → K) (o : K) (left : Nat → K) (i : Nat) : Nat → K :=
  let right := (List.range i).foldl (fun right j => right + left j * s.a i j) (s.aX i)
  Function.update left i (0 + (1 - o) * x i + o * (b i - right) / diag i)

/-- The arrays `a` and `left_x` start with whatever is in their memory. -/
def aSorX (size : Nat) (mylist : NodeList K) (x b : Nat → K) (o : K) (a : Nat → Nat → K)
    (left : Nat → K) : Option (Nat → K) := do
  let s ← scatter mylist.nodes x 0 ⟨fun _ => 0, a⟩
  if size = 0 then none
  else
    let left := Function.update left 0 ((b 0 - s.aX 0) / mylist.diag 0)
    some ((List.range' 1 (size - 1)).foldl (leftRow s mylist.diag x b o) left)

/-- The sweep that the rows stand for, on a matrix with all of its entries; the first row is solved
without `o`. -/
def sorSweep (size : Nat) (e : Nat → Nat → K) (x b : Nat → K) (o : K) (i : Nat) : K :=
  let before := ∑ j : Fin i, e i j * sorSweep size e x b o j
  let behind := ∑ j ∈ Finset.range size with i < j, e i j * x j
  let solved := (b i - (behind + before)) / e i i
  if i = 0 then solved else (1 - o) * x i + o * solved
termination_by i

/-- The result is the same for all contents of the arrays, and it is `x` just where `x` solves the
equations. -/
def FixesSolutions {size : Nat} (A : Sparse K size) (x b : Nat → K) (o : K) : Prop :=
  ∃ y : Nat → K,
    (∀ diag a left, ∃ z, aSorX size (listOf diag A.nodes) x b o a left = some z ∧
      ∀ i, i < size → z i = y i) ∧
    ((∀ i, i < size → y i = x i) ↔ ∀ i, i < size → A.prod x i = b i)

section Lists

omit [Field K] in
theorem listOf_nodes (junk : Nat → K) (nodes : List (Node K)) :
    (listOf junk nodes).nodes = nodes := by
  have happend : ∀ mylist : NodeList K, (nodes.foldl listAppend mylist).nodes =
      mylist.nodes ++ nodes := by
    induction nodes with
    | nil => simp
    | cons node nodes ih =>
      intro mylist
      rw [List.foldl_cons, ih]
      simp [listAppend]
  exact happend (listInit junk)

omit [Field K] in
theorem getNode_length {nodes rest : List (Node K)} {k : Nat} {mynode : Node K}
    (h : getNode nodes k = mynode :: rest) : nodes.drop k = mynode :: rest := by
  rw [← getNode_eq, h]

theorem foldl_diag {nodes : List (Node K)} (distinct : Distinct nodes) (mylist : NodeList K)
    (i : Nat) :
    (nodes.foldl listAppend mylist).diag i =
      if Listed nodes i i then entry nodes i i else mylist.diag i := by
  induction nodes generalizing mylist with
  | nil => simp
  | cons node nodes ih =>
    rw [List.foldl_cons, ih (List.pairwise_cons.mp distinct).2]
    by_cases hat : node.At i i
    · obtain ⟨hrow, hcol⟩ := hat
      have hnot : ¬Listed nodes i i := by
        have h := distinct.not_listed
        rwa [hrow, hcol] at h
      simp [hnot, entry, listAppend, Node.At, hrow, hcol]
    · have hdiag : (listAppend mylist node).diag i = mylist.diag i := by
        by_cases heq : node.row = node.col
        · have hne : i ≠ node.row := fun h => hat ⟨h.symm, (h.trans heq).symm⟩
          simp only [listAppend, if_pos heq, Function.update_of_ne hne]
        · simp only [listAppend, if_neg heq]
      simp [hat, hdiag, entry]

theorem foldl_scatter_a {nodes : List (Node K)} (distinct : Distinct nodes) (x : Nat → K)
    (s : Scratch K) (i j : Nat) :
    (nodes.foldl (scatterNode x) s).a i j =
      if Listed nodes i j then entry nodes i j else s.a i j := by
  induction nodes generalizing s with
  | nil => simp
  | cons node nodes ih =>
    have hstep : (scatterNode x s node).a =
        Function.update s.a node.row (Function.update (s.a node.row) node.col node.G) := by
      simp only [scatterNode]
      split <;> rfl
    rw [List.foldl_cons, ih (List.pairwise_cons.mp distinct).2, hstep]
    by_cases hat : node.At i j
    · obtain ⟨rfl, rfl⟩ := hat
      simp [distinct.not_listed, entry, Node.At]
    · have hold : Function.update s.a node.row
          (Function.update (s.a node.row) node.col node.G) i j = s.a i j := by
        by_cases hrow : i = node.row
        · subst hrow
          rw [Function.update_self, Function.update_of_ne fun h => hat ⟨rfl, h.symm⟩]
        · rw [Function.update_of_ne hrow]
      simp [hat, hold, entry]

theorem foldl_scatter_aX {size : Nat} (A : Sparse K size) (x : Nat → K) (s : Scratch K) (i : Nat) :
    (A.nodes.foldl (scatterNode x) s).aX i =
      s.aX i + ∑ j ∈ Finset.range size with i < j, entry A.nodes i j * x j := by
  have hproj : ∀ (nodes : List (Node K)) (s : Scratch K),
      (nodes.foldl (scatterNode x) s).aX = nodes.foldl (fun y node =>
        if node.row < node.col then
          Function.update y node.row (y node.row + node.G * x node.col)
        else y) s.aX := by
    intro nodes
    induction nodes with
    | nil => intro s; rfl
    | cons node nodes ih =>
      intro s
      rw [List.foldl_cons, List.foldl_cons, ih]
      congr 1
      unfold scatterNode
      by_cases hlt : node.row < node.col
      · have hboth : node.row < node.col ∧ node.row ≠ node.col := by omega
        rw [if_pos hlt]
        simp only [if_pos hboth]
      · have hboth : ¬(node.row < node.col ∧ node.row ≠ node.col) := by omega
        rw [if_neg hlt]
        simp only [if_neg hboth]
  rw [hproj]
  exact foldl_rows (fun i j => i < j) (fun _ j => x j) A.distinct A.inside s.aX i

theorem scatter_eq {nodes : List (Node K)} (x : Nat → K) {k : Nat} (s : Scratch K)
    (hk : k < nodes.length) :
    scatter nodes x k s = some ((nodes.drop k).foldl (scatterNode x) s) := by
  fun_induction scatter nodes x k s with
  | case1 k s h =>
    rw [getNode_eq, List.drop_eq_nil_iff] at h
    omega
  | case2 k s mynode s' h =>
    rw [getNode_length h]
    rfl
  | case3 k s mynode rest h s' hrest ih =>
    have hdrop := getNode_length h
    have htail : nodes.drop (k + 1) = rest := by
      rw [← List.tail_drop, hdrop]
      rfl
    have hlen : k + 1 < nodes.length := by
      by_contra hnot
      exact hrest (by rw [← htail, List.drop_eq_nil_iff]; omega)
    rw [ih hlen, hdrop, htail]
    rfl

theorem scatter_nil (x : Nat → K) (k : Nat) (s : Scratch K) : scatter [] x k s = none := by
  rw [scatter]
  rfl

end Lists

section Sweep

variable {size : Nat} {e : Nat → Nat → K} {x b : Nat → K} {o : K} {i : Nat}

theorem sorSweep_eq (size : Nat) (e : Nat → Nat → K) (x b : Nat → K) (o : K) (i : Nat) :
    sorSweep size e x b o i =
      let behind := ∑ j ∈ Finset.range size with i < j, e i j * x j
      let before := ∑ j ∈ Finset.range i, e i j * sorSweep size e x b o j
      let solved := (b i - (behind + before)) / e i i
      if i = 0 then solved else (1 - o) * x i + o * solved := by
  rw [sorSweep]
  simp only [Finset.sum_range]

theorem sum_row (hi : i < size) (f : Nat → K) :
    ∑ j ∈ Finset.range size, f j =
      (∑ j ∈ Finset.range size with i < j, f j) + ∑ j ∈ Finset.range i, f j + f i := by
  have hbehind : (Finset.range size).filter (fun j => ¬i < j) = Finset.range (i + 1) := by
    ext j
    simp only [Finset.mem_filter, Finset.mem_range]
    omega
  rw [← Finset.sum_filter_add_sum_filter_not (Finset.range size) (fun j => i < j), hbehind,
    Finset.sum_range_succ, add_assoc]

theorem sorSweep_fixed_row (ho : o ≠ 0) (hdiag : e i i ≠ 0) (hi : i < size)
    (before : ∀ j, j < i → sorSweep size e x b o j = x j) :
    sorSweep size e x b o i = x i ↔ ∑ j ∈ Finset.range size, e i j * x j = b i := by
  have hbefore : ∑ j ∈ Finset.range i, e i j * sorSweep size e x b o j =
      ∑ j ∈ Finset.range i, e i j * x j :=
    Finset.sum_congr rfl fun j hj => by rw [before j (Finset.mem_range.mp hj)]
  rw [sorSweep_eq, sum_row hi]
  simp only [hbefore]
  have hsolved : ∀ r : K, (b i - r) / e i i = x i ↔ r + e i i * x i = b i := by
    intro r
    rw [div_eq_iff hdiag]
    constructor
    · intro h
      linear_combination -h
    · intro h
      linear_combination -h
  rw [← hsolved]
  split
  next => exact Iff.rfl
  next =>
    constructor
    · intro h
      have hzero : o * ((b i - ((∑ j ∈ Finset.range size with i < j, e i j * x j) +
          ∑ j ∈ Finset.range i, e i j * x j)) / e i i - x i) = 0 := by
        linear_combination h
      exact sub_eq_zero.mp ((mul_eq_zero.mp hzero).resolve_left ho)
    · intro h
      rw [h]
      ring

/-- The fixed points of the sweep are the solutions. -/
theorem sorSweep_fixed_iff (ho : o ≠ 0) (hdiag : ∀ i, i < size → e i i ≠ 0) :
    (∀ i, i < size → sorSweep size e x b o i = x i) ↔
      ∀ i, i < size → ∑ j ∈ Finset.range size, e i j * x j = b i := by
  constructor
  · intro h i hi
    exact (sorSweep_fixed_row ho (hdiag i hi) hi fun j hj => h j (by omega)).mp (h i hi)
  · intro h i hi
    induction i using Nat.strong_induction_on with
    | h i ih =>
      exact (sorSweep_fixed_row ho (hdiag i hi) hi fun j hj => ih j hj (by omega)).mpr (h i hi)

end Sweep

section Result

variable {size : Nat} {x b : Nat → K} {o : K}

/-- The matrix that the rows read: below the diagonal, what the list does not hold is what was in
the memory of `a`. -/
def seen (nodes : List (Node K)) (a : Nat → Nat → K) (i j : Nat) : K :=
  if j < i ∧ ¬Listed nodes i j then a i j else entry nodes i j

theorem seen_behind (nodes : List (Node K)) (a : Nat → Nat → K) {i j : Nat} (h : i ≤ j) :
    seen nodes a i j = entry nodes i j := if_neg (by omega)

theorem seen_before (nodes : List (Node K)) (a : Nat → Nat → K) {i j : Nat} (h : j < i) :
    seen nodes a i j = if Listed nodes i j then entry nodes i j else a i j := by
  unfold seen
  by_cases hlisted : Listed nodes i j <;> simp [h, hlisted]

theorem aSorX_eq (A : Sparse K size) (hsize : 0 < size)
    (hdiag : ∀ i, i < size → entry A.nodes i i ≠ 0) (diag : Nat → K) (a : Nat → Nat → K)
    (left : Nat → K) :
    ∃ z, aSorX size (listOf diag A.nodes) x b o a left = some z ∧
      ∀ i, i < size → z i = sorSweep size (seen A.nodes a) x b o i := by
  have hnodes : 0 < A.nodes.length := by
    obtain ⟨node, hmem, -⟩ := listed_of_entry (hdiag 0 hsize)
    exact List.length_pos_of_mem hmem
  have hD : ∀ i, i < size → (listOf diag A.nodes).diag i = entry A.nodes i i := by
    intro i hi
    rw [listOf, foldl_diag A.distinct, if_pos (listed_of_entry (hdiag i hi))]
  set s := A.nodes.foldl (scatterNode x) ⟨fun _ => 0, a⟩ with hs
  have hrun : aSorX size (listOf diag A.nodes) x b o a left =
      some ((List.range' 1 (size - 1)).foldl (leftRow s (listOf diag A.nodes).diag x b o)
        (Function.update left 0 ((b 0 - s.aX 0) / (listOf diag A.nodes).diag 0))) := by
    rw [aSorX, listOf_nodes, scatter_eq x _ hnodes, List.drop_zero, ← hs]
    simp only [Option.bind_eq_bind, Option.bind_some, if_neg (show size ≠ 0 by omega)]
  have hbehind : ∀ i, s.aX i =
      ∑ j ∈ Finset.range size with i < j, seen A.nodes a i j * x j := by
    intro i
    rw [hs, foldl_scatter_aX, zero_add]
    refine Finset.sum_congr rfl fun j hj => ?_
    rw [seen_behind A.nodes a (Finset.mem_filter.mp hj).2.le]
  refine ⟨_, hrun, ?_⟩
  refine foldl_range'
    (fun i (t : Nat → K) => ∀ j, j < i → t j = sorSweep size (seen A.nodes a) x b o j) hsize ?_ ?_
  · intro j hj
    obtain rfl : j = 0 := by omega
    rw [Function.update_self, hD 0 hsize, hbehind, sorSweep_eq, ← seen_behind A.nodes a le_rfl]
    simp
  · intro i t hlow hi ht j hj
    rcases Nat.lt_succ_iff_lt_or_eq.mp hj with hlt | rfl
    · rw [leftRow, Function.update_of_ne (by omega)]
      exact ht j hlt
    have hbefore : ∑ k ∈ Finset.range j, t k * s.a j k =
        ∑ k ∈ Finset.range j, seen A.nodes a j k * sorSweep size (seen A.nodes a) x b o k := by
      refine Finset.sum_congr rfl fun k hk => ?_
      have hkj := Finset.mem_range.mp hk
      rw [ht k hkj, hs, foldl_scatter_a A.distinct, ← seen_before A.nodes a hkj, mul_comm]
    rw [leftRow, Function.update_self, foldl_add, hbehind, hbefore, hD j hi, sorSweep_eq,
      ← seen_behind A.nodes a le_rfl, if_neg (show j ≠ 0 by omega), zero_add, mul_div_assoc]

theorem aSorX_nil (diag : Nat → K) (a : Nat → Nat → K) (left : Nat → K) :
    aSorX size (listOf diag []) x b o a left = none := by
  rw [aSorX, listOf_nodes, scatter_nil]
  rfl

/-- Every place below the diagonal that no node holds is in a column whose unknown is 0 after the
sweep. -/
def Unseen (A : Sparse K size) (x b : Nat → K) (o : K) : Prop :=
  ∀ i j, j < i → i < size → Listed A.nodes i j ∨ sorSweep size (entry A.nodes) x b o j = 0

theorem sorSweep_seen (A : Sparse K size) (h : Unseen A x b o) (a : Nat → Nat → K) (i : Nat)
    (hi : i < size) :
    sorSweep size (seen A.nodes a) x b o i = sorSweep size (entry A.nodes) x b o i := by
  induction i using Nat.strong_induction_on with
  | h i ih =>
    have hbehind : ∑ j ∈ Finset.range size with i < j, seen A.nodes a i j * x j =
        ∑ j ∈ Finset.range size with i < j, entry A.nodes i j * x j := by
      refine Finset.sum_congr rfl fun j hj => ?_
      rw [seen_behind A.nodes a (Finset.mem_filter.mp hj).2.le]
    have hbefore : ∑ j ∈ Finset.range i,
          seen A.nodes a i j * sorSweep size (seen A.nodes a) x b o j =
        ∑ j ∈ Finset.range i, entry A.nodes i j * sorSweep size (entry A.nodes) x b o j := by
      refine Finset.sum_congr rfl fun j hj => ?_
      have hji := Finset.mem_range.mp hj
      rw [ih j hji (by omega), seen_before A.nodes a hji]
      rcases h i j hji hi with hlisted | hzero
      · rw [if_pos hlisted]
      · rw [hzero, mul_zero, mul_zero]
    rw [sorSweep_eq, sorSweep_eq, hbehind, hbefore, seen_behind A.nodes a le_rfl]

theorem unseen_of_same (A : Sparse K size) (hdiag : ∀ i, i < size → entry A.nodes i i ≠ 0)
    (ho : o ≠ 0)
    (same : ∀ a i, i < size →
      sorSweep size (seen A.nodes a) x b o i = sorSweep size (entry A.nodes) x b o i) :
    Unseen A x b o := by
  intro i j hji hi
  by_cases hlisted : Listed A.nodes i j
  · exact .inl hlisted
  right
  -- the memory has 1 in column `j`
  have hseen : ∀ k, k < i → seen A.nodes (fun _ k => if k = j then 1 else 0) i k =
      entry A.nodes i k + if k = j then 1 else 0 := by
    intro k hk
    rw [seen_before A.nodes _ hk]
    by_cases hkj : k = j
    · subst hkj
      rw [if_neg hlisted, entry_of_not_listed hlisted, zero_add]
    · rw [if_neg hkj, add_zero]
      split
      next => rfl
      next hnot => rw [entry_of_not_listed hnot]
  have hrow := same (fun _ k => if k = j then 1 else 0) i hi
  have hbefore : ∑ k ∈ Finset.range i, seen A.nodes (fun _ k => if k = j then 1 else 0) i k *
        sorSweep size (seen A.nodes fun _ k => if k = j then 1 else 0) x b o k =
      (∑ k ∈ Finset.range i, entry A.nodes i k * sorSweep size (entry A.nodes) x b o k) +
        sorSweep size (entry A.nodes) x b o j := by
    calc _ = ∑ k ∈ Finset.range i, (entry A.nodes i k * sorSweep size (entry A.nodes) x b o k +
          if k = j then sorSweep size (entry A.nodes) x b o k else 0) := by
          refine Finset.sum_congr rfl fun k hk => ?_
          have hki := Finset.mem_range.mp hk
          rw [hseen k hki, same _ k (by omega), add_mul, ite_mul, one_mul, zero_mul]
      _ = _ := by
          rw [Finset.sum_add_distrib, Finset.sum_ite_eq', if_pos (Finset.mem_range.mpr hji)]
  have hbehind : ∑ k ∈ Finset.range size with i < k,
        seen A.nodes (fun _ k => if k = j then 1 else 0) i k * x k =
      ∑ k ∈ Finset.range size with i < k, entry A.nodes i k * x k := by
    refine Finset.sum_congr rfl fun k hk => ?_
    rw [seen_behind A.nodes _ (Finset.mem_filter.mp hk).2.le]
  rw [sorSweep_eq, sorSweep_eq] at hrow
  simp only [hbefore, hbehind, seen_behind A.nodes _ le_rfl, if_neg (show i ≠ 0 by omega)] at hrow
  have hquot := mul_left_cancel₀ ho (add_left_cancel hrow)
  rw [div_left_inj' (hdiag i hi)] at hquot
  linear_combination -hquot

theorem fixesSolutions_iff (A : Sparse K size) (hdiag : ∀ i, i < size → entry A.nodes i i ≠ 0)
    (ho : o ≠ 0) : FixesSolutions A x b o ↔ 0 < size ∧ Unseen A x b o := by
  constructor
  · rintro ⟨y, hy, -⟩
    have hsize : 0 < size := by
      by_contra hnot
      have hnil : A.nodes = [] := by
        cases hnodes : A.nodes with
        | nil => rfl
        | cons node nodes =>
          have hin := A.inside node (by rw [hnodes]; exact List.mem_cons_self)
          omega
      obtain ⟨z, hz, -⟩ := hy (fun _ => 0) (fun _ _ => 0) fun _ => 0
      rw [hnil, aSorX_nil] at hz
      cases hz
    have hsame : ∀ a i, i < size → sorSweep size (seen A.nodes a) x b o i = y i := by
      intro a i hi
      obtain ⟨z, hz, hzy⟩ := hy (fun _ => 0) a fun _ => 0
      obtain ⟨z', hz', hzs⟩ := aSorX_eq (x := x) (b := b) (o := o) A hsize hdiag (fun _ => 0) a
        fun _ => 0
      obtain rfl : z = z' := Option.some.inj (hz.symm.trans hz')
      rw [← hzs i hi, hzy i hi]
    have hzero : seen A.nodes (fun _ _ => 0) = entry A.nodes := by
      funext i j
      unfold seen
      split
      next h => rw [entry_of_not_listed h.2]
      next => rfl
    refine ⟨hsize, unseen_of_same A hdiag ho fun a i hi => ?_⟩
    rw [hsame a i hi, ← hzero, hsame _ i hi]
  · rintro ⟨hsize, hunseen⟩
    refine ⟨sorSweep size (entry A.nodes) x b o, fun diag a left => ?_, sorSweep_fixed_iff ho hdiag⟩
    obtain ⟨z, hz, hzs⟩ := aSorX_eq (x := x) (b := b) (o := o) A hsize hdiag diag a left
    refine ⟨z, hz, fun i hi => ?_⟩
    rw [hzs i hi, sorSweep_seen A hunseen a i hi]

/-- For one system the code is right just where nothing unseen counts, and for all systems with a
matrix just where the list holds every place below the diagonal. -/
theorem aSorX_fixes (A : Sparse K size) (hdiag : ∀ i, i < size → entry A.nodes i i ≠ 0) :
    (∀ (x b : Nat → K) (o : K), o ≠ 0 →
        (FixesSolutions A x b o ↔ 0 < size ∧ Unseen A x b o)) ∧
      ((∀ (x b : Nat → K) (o : K), o ≠ 0 → FixesSolutions A x b o) ↔
        0 < size ∧ ∀ i j, j < i → i < size → Listed A.nodes i j) := by
  refine ⟨fun x b o ho => fixesSolutions_iff A hdiag ho, ?_⟩
  constructor
  · intro h
    -- of the system that ones solve, no unknown is 0
    have hones := (fixesSolutions_iff A hdiag one_ne_zero).mp
      (h (fun _ => 1) (A.prod fun _ => 1) 1 one_ne_zero)
    refine ⟨hones.1, fun i j hji hi => (hones.2 i j hji hi).resolve_right ?_⟩
    have hfixed := (sorSweep_fixed_iff (x := fun _ => 1) (b := A.prod fun _ => 1) one_ne_zero
      hdiag).mpr (fun _ _ => rfl) j (by omega)
    rw [hfixed]
    exact one_ne_zero
  · rintro ⟨hsize, hlisted⟩ x b o ho
    exact (fixesSolutions_iff A hdiag ho).mpr
      ⟨hsize, fun i j hji hi => .inl (hlisted i j hji hi)⟩

def dense : Sparse ℚ 2 where
  nodes := [⟨2, 0, 0⟩, ⟨1, 0, 1⟩, ⟨1, 1, 0⟩, ⟨2, 1, 1⟩]
  distinct := by simp [Distinct, Node.At]
  inside := by simp [Inside]

def diagonal : Sparse ℚ 2 where
  nodes := [⟨2, 0, 0⟩, ⟨2, 1, 1⟩]
  distinct := by simp [Distinct, Node.At]
  inside := by simp [Inside]

theorem aSorX_fixes_dense :
    (∀ (x b : Nat → ℚ) (o : ℚ), o ≠ 0 → FixesSolutions dense x b o) ∧
      ¬∀ (x b : Nat → ℚ) (o : ℚ), o ≠ 0 → FixesSolutions diagonal x b o := by
  constructor
  · have hdiag : ∀ i, i < 2 → entry dense.nodes i i ≠ 0 := by
      decide
    have hlisted : ∀ i j, j < i → i < 2 → Listed dense.nodes i j := by
      intro i j hji hi
      obtain rfl : i = 1 := by omega
      obtain rfl : j = 0 := by omega
      decide
    exact (aSorX_fixes dense hdiag).2.mpr ⟨by decide, hlisted⟩
  · have hdiag : ∀ i, i < 2 → entry diagonal.nodes i i ≠ 0 := by
      decide
    intro h
    have hlisted := ((aSorX_fixes diagonal hdiag).2.mp h).2 1 0 (by decide) (by decide)
    exact absurd hlisted (by decide)

/-- The second row of the diagonal matrix takes the memory of `a` into account. -/
theorem aSorX_not_fixes : ¬FixesSolutions diagonal (fun _ => 1) (fun _ => 2) 1 := by
  have hdiag : ∀ i, i < 2 → entry diagonal.nodes i i ≠ 0 := by
    decide
  intro h
  rcases ((fixesSolutions_iff diagonal hdiag one_ne_zero).mp h).2 1 0 (by decide) (by decide) with
    hlisted | hzero
  · exact absurd hlisted (by decide)
  · rw [sorSweep_eq] at hzero
    simp [diagonal, entry, Node.At] at hzero

end Result

end SparseSor

end TcpAndParallel
