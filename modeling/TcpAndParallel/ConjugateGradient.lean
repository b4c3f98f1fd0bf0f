import Mathlib.Algebra.Order.Field.Basic
import Mathlib.Tactic.FieldSimp
import Mathlib.Tactic.Linarith
import Mathlib.Tactic.Ring
import TcpAndParallel.Jacobi
import TcpAndParallel.Runs
import TcpAndParallel.SparseLists

namespace TcpAndParallel

namespace ConjugateGradient

open Jacobi (divide)
open SparseLists

variable {K : Type*} [Field K]

structure NodeList (K : Type*) where
  length : Nat
  nodes : List (Node K)

def listInit : NodeList K := ⟨0, []⟩

def listAppend (mylist : NodeList K) (mynode : Node K) : NodeList K :=
  ⟨mylist.length + 1, mylist.nodes ++ [mynode]⟩

def listOf (nodes : List (Node K)) : NodeList K := nodes.foldl listAppend listInit

/-- A pointer to a node is the list from the node on, and `NULL` the empty one. -/
def getNode : List (Node K) → Nat → List (Node K)
  | [], _ => []
  | [mynode], _ => [mynode]
  | mynode :: next :: rest, 0 => mynode :: next :: rest
  | _ :: next :: rest, x + 1 => getNode (next :: rest) x

/-- The array starts with what is in its memory; `none` where a node is read at `NULL`. -/
def aProdX (mylist : NodeList K) (x aX : Nat → K) : Option (Nat → K) :=
  (List.range' 0 mylist.length).foldlM (fun aX i =>
    (getNode mylist.nodes i).head?.map fun mynode =>
      Function.update aX mynode.row (aX mynode.row + mynode.G * x mynode.row)) aX

def xProdA (x : Nat → K) (mylist : NodeList K) (xA : Nat → K) : Option (Nat → K) :=
  (List.range' 0 mylist.length).foldlM (fun xA i =>
    (getNode mylist.nodes i).head?.map fun mynode =>
      Function.update xA mynode.col (xA mynode.col + mynode.G * x mynode.col)) xA

def xSubY (x y : Nat → K) : Nat → K := fun i => x i - y i

def xAddY (x y : Nat → K) : Nat → K := fun i => x i + y i

def xY (size : Nat) (x y : Nat → K) : K :=
  (List.range size).foldl (fun sum i => sum + x i * y i) 0

/-- The nodes that it makes are appended to no list. -/
def cA (_c : K) (_mylist : NodeList K) : NodeList K := listInit

def cX (c : K) (x : Nat → K) : Nat → K := fun i => c * x i

structure State (K : Type*) where
  x : Nat → K
  r : Nat → K
  p : Nat → K

/-- What is in the memory of the arrays `A_x` and `x_A` that `malloc` returns: at first, and in
each iteration. -/
structure Memory (K : Type*) where
  first : Nat → K
  xA : Nat → Nat → K
  aX : Nat → Nat → K

/-- An iteration; `none` where it divides by zero. -/
def iteration [DecidableEq K] (size : Nat) (A : NodeList K) (s : State K) (xA aX : Nat → K) :
    Option (State K) := do
  let pA ← xProdA s.p A xA
  let alpha ← divide (xY size s.r s.r) (xY size pA s.p)
  let alphap := cX alpha s.p
  let newX := xAddY s.x alphap
  let alphaA := cA alpha A
  let alphaAp ← aProdX alphaA s.p aX
  let newR := xSubY s.r alphaAp
  let beta ← divide (xY size newR newR) (xY size s.r s.r)
  let bp := cX beta s.p
  let newP := xAddY newR bp
  some ⟨newX, newR, newP⟩

def createX0 : Nat → K := fun _ => 1

def start (A : NodeList K) (b : Nat → K) (m : Memory K) : Option (State K) := do
  let x := createX0
  let aX ← aProdX A x m.first
  let r := xSubY b aX
  some ⟨x, r, r⟩

def main [DecidableEq K] (size : Nat) (A : NodeList K) (b : Nat → K) (m : Memory K) :
    Nat → Option (State K)
  | 0 => start A b m
  | k + 1 => do
    let s ← main size A b m k
    iteration size A s (m.xA k) (m.aX k)

/-- `r` is what is missing to the right-hand side. -/
def Residual {size : Nat} (A : Sparse K size) (b : Nat → K) (s : State K) : Prop :=
  ∀ i, i < size → s.r i = b i - A.prod s.x i

section Lists

omit [Field K] in
theorem listOf_eq (nodes : List (Node K)) : listOf nodes = ⟨nodes.length, nodes⟩ := by
  have happend : ∀ mylist : NodeList K, nodes.foldl listAppend mylist =
      ⟨mylist.length + nodes.length, mylist.nodes ++ nodes⟩ := by
    induction nodes with
    | nil => simp
    | cons node nodes ih =>
      intro mylist
      rw [List.foldl_cons, ih]
      simp [listAppend, Nat.add_assoc, Nat.add_comm]
  rw [listOf, happend, listInit, Nat.zero_add, List.nil_append]

omit [Field K] in
theorem getNode_eq {nodes : List (Node K)} {x : Nat} (h : x < nodes.length) :
    (getNode nodes x).head? = nodes[x]? := by
  fun_induction getNode nodes x with
  | case1 => simp at h
  | case2 mynode x =>
    obtain rfl : x = 0 := by simpa using h
    rfl
  | case3 => rfl
  | case4 mynode next rest x ih =>
    rw [ih (by simpa using h)]
    rfl

omit [Field K] in
theorem foldlM_getNode {σ : Type*} (f : σ → Node K → σ) (nodes : List (Node K)) (s : σ) :
    (List.range' 0 nodes.length).foldlM (fun s i => (getNode nodes i).head?.map (f s)) s =
      some (nodes.foldl f s) := by
  have hpass : ∀ (i : Fin nodes.length) t, t = (nodes.take i).foldl f s →
      ∃ u, (getNode nodes i).head?.map (f t) = some u ∧ u = (nodes.take (i + 1)).foldl f s := by
    intro i t ht
    refine ⟨f t nodes[i], ?_, ?_⟩
    · rw [getNode_eq i.isLt, List.getElem?_eq_getElem i.isLt]
      rfl
    · rw [ht, List.take_succ_eq_append_getElem i.isLt, List.foldl_append]
      rfl
  obtain ⟨t, ht, hp⟩ := exists_foldlM_zero (s := s) (fun i s => (getNode nodes i).head?.map (f s))
    (fun i t => t = (nodes.take i).foldl f s) rfl hpass
  rw [ht, hp, List.take_length]

theorem aProdX_listOf (nodes : List (Node K)) (x aX : Nat → K) :
    aProdX (listOf nodes) x aX = some (nodes.foldl (fun aX mynode =>
      Function.update aX mynode.row (aX mynode.row + mynode.G * x mynode.row)) aX) := by
  rw [listOf_eq]
  exact foldlM_getNode _ nodes aX

theorem xProdA_listOf (nodes : List (Node K)) (x xA : Nat → K) :
    xProdA x (listOf nodes) xA = some (nodes.foldl (fun xA mynode =>
      Function.update xA mynode.col (xA mynode.col + mynode.G * x mynode.col)) xA) := by
  rw [listOf_eq]
  exact foldlM_getNode _ nodes xA

end Lists

section Sums

theorem foldl_update_sum (key : Node K → Nat) (v : Node K → K) (nodes : List (Node K))
    (y : Nat → K) (i : Nat) :
    nodes.foldl (fun y node => Function.update y (key node) (y (key node) + v node)) y i =
      y i + (nodes.map fun node => if key node = i then v node else 0).sum := by
  induction nodes generalizing y with
  | nil => simp
  | cons node nodes ih =>
    rw [List.foldl_cons, ih, List.map_cons, List.sum_cons, ← add_assoc]
    congr 1
    by_cases hkey : key node = i
    · subst hkey
      simp
    · rw [if_neg hkey, Function.update_of_ne (Ne.symm hkey), add_zero]

def columnSum (nodes : List (Node K)) (x : Nat → K) (i : Nat) : K :=
  (nodes.map fun node => if node.col = i then node.G * x node.col else 0).sum

theorem xProdA_eq (nodes : List (Node K)) (x xA : Nat → K) :
    xProdA x (listOf nodes) xA = some fun i => xA i + columnSum nodes x i := by
  rw [xProdA_listOf, Option.some.injEq]
  funext i
  exact foldl_update_sum (fun node => node.col) (fun node => node.G * x node.col) nodes xA i

theorem columnSum_smul (nodes : List (Node K)) (c : K) (x : Nat → K) (i : Nat) :
    columnSum nodes (fun i => c * x i) i = c * columnSum nodes x i := by
  unfold columnSum
  rw [← List.sum_map_mul_left]
  congr 2
  funext node
  split
  next => ring
  next => rw [mul_zero]

theorem aProdX_ones {size : Nat} (A : Sparse K size) (aX : Nat → K) :
    aProdX (listOf A.nodes) createX0 aX = some fun i => aX i + A.prod createX0 i := by
  rw [aProdX_listOf, Option.some.injEq]
  funext i
  have h := foldl_rows (fun _ _ => True) (fun _ _ => (1 : K)) A.distinct A.inside aX i
  simp only [if_true, Finset.filter_true] at h
  exact h

theorem aProdX_nil (x aX : Nat → K) : aProdX listInit x aX = some aX := rfl

theorem xY_eq (size : Nat) (x y : Nat → K) : xY size x y = ∑ i ∈ Finset.range size, x i * y i := by
  rw [xY, foldl_add, zero_add]

theorem prod_add {size : Nat} (A : Sparse K size) (x y : Nat → K) (t : K) (i : Nat) :
    A.prod (fun i => x i + t * y i) i = A.prod x i + t * A.prod y i := by
  unfold Sparse.prod
  rw [Finset.mul_sum, ← Finset.sum_add_distrib]
  refine Finset.sum_congr rfl fun j _ => ?_
  ring

end Sums

section Iterations

variable {size : Nat} {A : Sparse K size} {b : Nat → K} {m : Memory K} {s t : State K}

theorem start_eq (A : Sparse K size) (b : Nat → K) (m : Memory K) :
    start (listOf A.nodes) b m =
      some ⟨createX0, fun i => b i - (m.first i + A.prod createX0 i),
        fun i => b i - (m.first i + A.prod createX0 i)⟩ := by
  simp only [start, aProdX_ones, Option.bind_eq_bind, Option.bind_some]
  rfl

variable [DecidableEq K]

/-- What an iteration makes: `r` is lessened by what is in the memory, not by a product. -/
theorem iteration_eq (A : Sparse K size) (s : State K) (xA aX : Nat → K) :
    iteration size (listOf A.nodes) s xA aX =
      (divide (xY size s.r s.r) (xY size (fun i => xA i + columnSum A.nodes s.p i) s.p)).bind
        fun alpha => (divide (xY size (xSubY s.r aX) (xSubY s.r aX)) (xY size s.r s.r)).bind
          fun beta => some ⟨fun i => s.x i + alpha * s.p i, xSubY s.r aX,
            fun i => s.r i - aX i + beta * s.p i⟩ := by
  simp only [iteration, xProdA_eq, cA, aProdX_nil, Option.bind_eq_bind, Option.bind_some]
  rfl

theorem divide_eq_some_iff {x y z : K} : divide x y = some z ↔ y ≠ 0 ∧ z = x / y := by
  unfold divide
  split
  next hy => simp [hy]
  next hy => simp [hy, eq_comm]

theorem iteration_eq_some_iff {xA aX : Nat → K} :
    iteration size (listOf A.nodes) s xA aX = some t ↔
      xY size (fun i => xA i + columnSum A.nodes s.p i) s.p ≠ 0 ∧ xY size s.r s.r ≠ 0 ∧
        t = ⟨fun i => s.x i + xY size s.r s.r /
            xY size (fun i => xA i + columnSum A.nodes s.p i) s.p * s.p i, xSubY s.r aX,
          fun i => s.r i - aX i +
            xY size (xSubY s.r aX) (xSubY s.r aX) / xY size s.r s.r * s.p i⟩ := by
  rw [iteration_eq]
  simp only [Option.bind_eq_some_iff, divide_eq_some_iff]
  constructor
  · rintro ⟨alpha, ⟨hpA, rfl⟩, beta, ⟨hr, rfl⟩, ht⟩
    exact ⟨hpA, hr, (Option.some.inj ht).symm⟩
  · rintro ⟨hpA, hr, rfl⟩
    exact ⟨_, ⟨hpA, rfl⟩, _, ⟨hr, rfl⟩, rfl⟩

end Iterations

section Residuals

variable {size : Nat} {s : State K}

def missing (A : Sparse K size) (b : Nat → K) (i : Nat) : K := b i - A.prod createX0 i

/-- What `malloc` returns is all zero. -/
def zeroed : Memory K := ⟨fun _ => 0, fun _ _ => 0, fun _ _ => 0⟩

theorem start_zeroed (A : Sparse K size) (b : Nat → K) :
    start (listOf A.nodes) b zeroed = some ⟨createX0, missing A b, missing A b⟩ := by
  rw [start_eq]
  simp only [zeroed, zero_add]
  rfl

theorem xSubY_zero (r : Nat → K) : xSubY r (fun _ => 0) = r := by
  funext i
  exact sub_zero (r i)

variable [LinearOrder K] [IsStrictOrderedRing K]

theorem main_zeroed (A : Sparse K size) (b : Nat → K) {k : Nat}
    (h : main size (listOf A.nodes) b zeroed k = some s) :
    let q := xY size (missing A b) (missing A b)
    let d := xY size (columnSum A.nodes (missing A b)) (missing A b)
    ∃ l : K, 0 ≤ l ∧ (0 < k → 0 < l ∧ q ≠ 0 ∧ d ≠ 0) ∧
      s = ⟨fun i => createX0 i + l * (q / d) * missing A b i, missing A b,
        fun i => (k + 1) * missing A b i⟩ := by
  intro q d
  set r := missing A b with hr
  induction k generalizing s with
  | zero =>
    rw [main, start_zeroed] at h
    refine ⟨0, le_refl 0, fun hk => absurd hk (lt_irrefl 0), ?_⟩
    rw [← Option.some.inj h]
    simp [hr]
  | succ k ih =>
    obtain ⟨s, hs, h⟩ := Option.bind_eq_some_iff.mp h
    obtain ⟨l, hl, -, rfl⟩ := ih hs
    have hc : (0 : K) < k + 1 := by positivity
    have hpA : xY size (fun i => 0 + columnSum A.nodes (fun i => (k + 1) * r i) i)
        (fun i => (k + 1) * r i) = (k + 1) ^ 2 * d := by
      show _ = (k + 1) ^ 2 * xY size (columnSum A.nodes r) r
      rw [xY_eq, xY_eq, Finset.mul_sum]
      refine Finset.sum_congr rfl fun i _ => ?_
      rw [columnSum_smul]
      ring
    obtain ⟨hd0, hq0, rfl⟩ := iteration_eq_some_iff.mp h
    simp only [zeroed, hpA, xSubY_zero] at hd0 hq0 ⊢
    have hq : q ≠ 0 := hq0
    have hd : d ≠ 0 := right_ne_zero_of_mul hd0
    have hstep : ∀ i, q / ((k + 1) ^ 2 * d) * ((k + 1) * r i) = 1 / (k + 1) * (q / d) * r i := by
      intro i
      field_simp
    refine ⟨l + 1 / (k + 1), by positivity, fun _ => ⟨by positivity, hq, hd⟩, ?_⟩
    show State.mk (fun i => createX0 i + l * (q / d) * r i +
      q / ((k + 1) ^ 2 * d) * ((k + 1) * r i)) r (fun i => r i - 0 + q / q * ((k + 1) * r i)) = _
    rw [div_self hq]
    congr 1
    · funext i
      rw [hstep]
      ring
    · funext i
      push_cast
      ring

theorem residual_zeroed_iff (A : Sparse K size) (b : Nat → K) (k : Nat)
    (h : main size (listOf A.nodes) b zeroed (k + 1) = some s) :
    Residual A b s ↔ ∀ i, i < size → A.prod (missing A b) i = 0 := by
  obtain ⟨l, -, hpos, rfl⟩ := main_zeroed A b h
  obtain ⟨hl, hq, hd⟩ := hpos (Nat.succ_pos k)
  refine forall₂_congr fun i _ => ?_
  rw [prod_add, ← sub_sub]
  show missing A b i = missing A b i - _ ↔ _
  rw [eq_comm, sub_eq_self, mul_eq_zero, or_iff_right]
  exact mul_ne_zero hl.ne' (div_ne_zero hq hd)

/-- What the first product adds to, and what `r` is lessened by, can be anything. -/
theorem exists_not_residual (A : Sparse K size) (b : Nat → K) (hsize : 0 < size) :
    ∃ m s, main size (listOf A.nodes) b m 1 = some s ∧ ¬Residual A b s := by
  let m : Memory K :=
    { first := fun i => b i - A.prod createX0 i - 1
      xA := fun _ i => 1 - columnSum A.nodes (fun _ => 1) i
      aX := fun _ i => 1 - (b i - A.prod (fun _ => 2) i + 1) }
  have hones : xY size (fun _ => (1 : K)) (fun _ => 1) = size := by
    simp [xY_eq]
  have hne : (size : K) ≠ 0 := by
    exact_mod_cast hsize.ne'
  have hstart : start (listOf A.nodes) b m = some ⟨createX0, fun _ => 1, fun _ => 1⟩ := by
    have hr : (fun i => b i - (m.first i + A.prod createX0 i)) = fun _ => 1 := by
      funext i
      show b i - (b i - A.prod createX0 i - 1 + A.prod createX0 i) = 1
      ring
    rw [start_eq, hr]
  have hpA : (fun i => m.xA 0 i + columnSum A.nodes (fun _ => 1) i) = fun _ => 1 := by
    funext i
    exact sub_add_cancel 1 _
  have hx : (fun i => createX0 i + (size : K) / size * 1) = fun _ => 2 := by
    funext i
    rw [div_self hne, createX0]
    norm_num
  have hr : xSubY (fun _ => 1) (m.aX 0) = fun i => b i - A.prod (fun _ => 2) i + 1 := by
    funext i
    exact sub_sub_cancel 1 _
  have hiteration : ∃ p, iteration size (listOf A.nodes) ⟨createX0, fun _ => 1, fun _ => 1⟩
      (m.xA 0) (m.aX 0) = some ⟨fun _ => 2, fun i => b i - A.prod (fun _ => 2) i + 1, p⟩ := by
    refine Exists.imp (fun p => iteration_eq_some_iff.mpr) ?_
    simp only [hpA, hones, hx, hr]
    exact ⟨_, hne, hne, rfl⟩
  obtain ⟨p, hp⟩ := hiteration
  refine ⟨m, ⟨fun _ => 2, fun i => b i - A.prod (fun _ => 2) i + 1, p⟩, ?_, ?_⟩
  · show (start (listOf A.nodes) b m).bind _ = _
    rw [hstart]
    exact hp
  · intro h
    have hfirst : b 0 - A.prod (fun _ => 2) 0 + 1 = b 0 - A.prod (fun _ => 2) 0 := h 0 hsize
    linarith

/-- Whatever `malloc` returns, `r` is right after every iteration only where there are no unknowns;
with zeroed memory only where the product of the matrix with what was missing is 0. -/
theorem residual_iff (A : Sparse K size) (b : Nat → K) :
    ((∀ m k s, main size (listOf A.nodes) b m (k + 1) = some s → Residual A b s) ↔ size = 0) ∧
      ∀ k s, main size (listOf A.nodes) b zeroed (k + 1) = some s →
        (Residual A b s ↔ ∀ i, i < size → A.prod (missing A b) i = 0) := by
  refine ⟨⟨fun h => ?_, ?_⟩, fun k s h => residual_zeroed_iff A b k h⟩
  · by_contra hsize
    obtain ⟨m, s, hs, hnot⟩ := exists_not_residual A b (Nat.pos_of_ne_zero hsize)
    exact hnot (h m 0 s hs)
  · rintro rfl m k s - i hi
    omega

/-- A singular matrix, symmetric, which takes `(2, 1)` to 0. -/
def singular : Sparse ℚ 2 where
  nodes := [⟨1, 0, 0⟩, ⟨-2, 0, 1⟩, ⟨-2, 1, 0⟩, ⟨4, 1, 1⟩]
  distinct := by simp [Distinct, Node.At]
  inside := by simp [Inside]

/-- For the right-hand side `(1, 3)` it is `(2, 1)` that is missing. -/
theorem singular_residual :
    ∃ s, main 2 (listOf singular.nodes) (fun i => if i = 0 then 1 else 3) zeroed 1 = some s ∧
      Residual singular (fun i => if i = 0 then 1 else 3) s := by
  have hrun : (main 2 (listOf singular.nodes) (fun i => if i = 0 then 1 else 3) zeroed 1).isSome := by
    decide +kernel
  obtain ⟨s, hs⟩ := Option.isSome_iff_exists.mp hrun
  refine ⟨s, hs, ((residual_iff singular _).2 0 s hs).mpr ?_⟩
  decide +kernel

def single : Sparse ℚ 1 where
  nodes := [⟨2, 0, 0⟩]
  distinct := by simp [Distinct]
  inside := by simp [Inside]

/-- The first iteration solves it, and `r` stays at 8. -/
theorem single_residual :
    ∃ s, main 1 (listOf single.nodes) (fun _ => 10) zeroed 1 = some s ∧
      s.x 0 = 5 ∧ s.r 0 = 8 ∧ ¬Residual single (fun _ => 10) s := by
  have hrun : (main 1 (listOf single.nodes) (fun _ => 10) zeroed 1).map (fun s => (s.x 0, s.r 0)) =
      some (5, 8) := by
    decide +kernel
  obtain ⟨s, hs, hpair⟩ := Option.map_eq_some_iff.mp hrun
  obtain ⟨hx, hr⟩ := Prod.mk.inj hpair
  refine ⟨s, hs, hx, hr, fun h => ?_⟩
  have hfirst := h 0 (by decide)
  rw [hr] at hfirst
  norm_num [Sparse.prod, single, entry, Node.At, hx] at hfirst

end Residuals

end ConjugateGradient

end TcpAndParallel
