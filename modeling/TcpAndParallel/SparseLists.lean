import Mathlib.Algebra.BigOperators.Ring.Finset
import Mathlib.Algebra.Field.Basic

namespace TcpAndParallel

namespace SparseLists

structure Node (K : Type*) where
  G : K
  row : Nat
  col : Nat

variable {K : Type*}

def Node.At (node : Node K) (i j : Nat) : Prop := node.row = i ∧ node.col = j

instance (node : Node K) (i j : Nat) : Decidable (node.At i j) :=
  inferInstanceAs (Decidable (_ ∧ _))

def Listed (nodes : List (Node K)) (i j : Nat) : Prop := ∃ node ∈ nodes, node.At i j

instance (nodes : List (Node K)) (i j : Nat) : Decidable (Listed nodes i j) :=
  inferInstanceAs (Decidable (∃ node ∈ nodes, node.At i j))

/-- The entry that a list has at a place: 0 where no node holds it. -/
def entry [Zero K] : List (Node K) → Nat → Nat → K
  | [], _, _ => 0
  | node :: nodes, i, j => if node.At i j then node.G else entry nodes i j

/-- No node holds the place of one behind it. -/
def Distinct (nodes : List (Node K)) : Prop :=
  nodes.Pairwise fun node other => ¬other.At node.row node.col

def Inside (size : Nat) (nodes : List (Node K)) : Prop :=
  ∀ node ∈ nodes, node.row < size ∧ node.col < size

structure Sparse (K : Type*) (size : Nat) where
  nodes : List (Node K)
  distinct : Distinct nodes
  inside : Inside size nodes

/-- Component `i` of the product of the matrix with `x`. -/
def Sparse.prod [Field K] {size : Nat} (A : Sparse K size) (x : Nat → K) (i : Nat) : K :=
  ∑ j ∈ Finset.range size, entry A.nodes i j * x j

@[simp] theorem not_listed_nil (i j : Nat) : ¬Listed ([] : List (Node K)) i j := by
  rintro ⟨node, hnode, -⟩
  exact absurd hnode List.not_mem_nil

@[simp] theorem listed_cons (node : Node K) (nodes : List (Node K)) (i j : Nat) :
    Listed (node :: nodes) i j ↔ node.At i j ∨ Listed nodes i j := by
  simp [Listed]

theorem Distinct.not_listed {node : Node K} {nodes : List (Node K)}
    (h : Distinct (node :: nodes)) : ¬Listed nodes node.row node.col := by
  rintro ⟨other, hmem, hat⟩
  exact (List.pairwise_cons.mp h).1 other hmem hat

section Entries

variable [Field K]

theorem foldl_add (n : Nat) (f : Nat → K) (r : K) :
    (List.range n).foldl (fun r j => r + f j) r = r + ∑ j ∈ Finset.range n, f j := by
  induction n with
  | zero => simp
  | succ n ih =>
    rw [List.range_succ, List.foldl_append, ih, Finset.sum_range_succ, ← add_assoc]
    rfl

theorem entry_of_not_listed {nodes : List (Node K)} {i j : Nat} (h : ¬Listed nodes i j) :
    entry nodes i j = 0 := by
  induction nodes with
  | nil => rfl
  | cons node nodes ih =>
    rw [listed_cons, not_or] at h
    rw [entry, if_neg h.1]
    exact ih h.2

theorem listed_of_entry {nodes : List (Node K)} {i j : Nat} (h : entry nodes i j ≠ 0) :
    Listed nodes i j := by
  by_contra hnot
  exact h (entry_of_not_listed hnot)

theorem entry_cons {node : Node K} {nodes : List (Node K)} (h : Distinct (node :: nodes))
    (i j : Nat) :
    entry (node :: nodes) i j = (if node.At i j then node.G else 0) + entry nodes i j := by
  rw [entry]
  split
  next hat =>
    obtain ⟨rfl, rfl⟩ := hat
    rw [entry_of_not_listed h.not_listed, add_zero]
  next => rw [zero_add]

theorem sum_at {size : Nat} {node : Node K} (hcol : node.col < size) (keep : Nat → Nat → Prop)
    [∀ i j, Decidable (keep i j)] (f : Nat → Nat → K) (i : Nat) :
    (∑ j ∈ Finset.range size with keep i j, (if node.At i j then node.G else 0) * f i j) =
      if node.row = i ∧ keep node.row node.col then node.G * f node.row node.col else 0 := by
  rw [Finset.sum_filter, Finset.sum_eq_single node.col]
  · by_cases hrow : node.row = i
    · subst hrow
      simp [Node.At]
    · simp [Node.At, hrow]
  · intro j _ hne
    have hat : ¬node.At i j := fun h => hne h.2.symm
    simp [hat]
  · intro hout
    exact absurd (Finset.mem_range.mpr hcol) hout

theorem foldl_rows {size : Nat} (keep : Nat → Nat → Prop) [∀ i j, Decidable (keep i j)]
    (f : Nat → Nat → K) {nodes : List (Node K)} (distinct : Distinct nodes)
    (inside : Inside size nodes) (y : Nat → K) (i : Nat) :
    nodes.foldl (fun y node =>
        if keep node.row node.col then
          Function.update y node.row (y node.row + node.G * f node.row node.col)
        else y) y i =
      y i + ∑ j ∈ Finset.range size with keep i j, entry nodes i j * f i j := by
  induction nodes generalizing y with
  | nil => simp [entry]
  | cons node nodes ih =>
    have hrest : Distinct nodes := (List.pairwise_cons.mp distinct).2
    have hinside : Inside size nodes := fun other h => inside other (List.mem_cons_of_mem _ h)
    have hstep : (if keep node.row node.col then
        Function.update y node.row (y node.row + node.G * f node.row node.col) else y) i =
        y i + if node.row = i ∧ keep node.row node.col then node.G * f node.row node.col else 0 := by
      by_cases hkeep : keep node.row node.col
      · by_cases hrow : node.row = i
        · subst hrow
          simp [hkeep]
        · simp [hkeep, hrow, Function.update_of_ne (Ne.symm hrow)]
      · simp [hkeep]
    rw [List.foldl_cons, ih hrest hinside, hstep,
      ← sum_at (inside node List.mem_cons_self).2 keep f i, add_assoc, ← Finset.sum_add_distrib]
    congr 1
    refine Finset.sum_congr rfl fun j _ => ?_
    rw [entry_cons distinct, add_mul]

end Entries

end SparseLists

end TcpAndParallel
