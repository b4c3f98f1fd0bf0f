import Mathlib.Algebra.BigOperators.Group.Finset.Basic
import Mathlib.Algebra.BigOperators.Ring.Finset
import Mathlib.Algebra.Field.Rat
import Mathlib.Tactic.NormNum

namespace TcpAndParallel

namespace Jacobi

variable {K : Type*} [Field K]

/-- The chain: the nodes beside a node, and a sweep over all of it that solves the equation of each
node for the old values of its neighbours. -/
def neighbours (n i : Nat) : Finset Nat := (Finset.range n).filter fun j => i + 1 = j ∨ i = j + 1

def sweep (n : Nat) (B X : Nat → K) (i : Nat) : K :=
  (B i - ∑ j ∈ neighbours n i, X j) / (neighbours n i).card

def link (i j : Nat) : K := if i + 1 = j ∨ i = j + 1 then 1 else 0

/-- The sum of a row before the diagonal is set. -/
def rowSum (size i : Nat) : K := (List.range size).foldl (fun sum j => sum + link i j) 0

def a (size i j : Nat) : K := if i = j then rowSum size i else link i j

def offDiagonal (size i : Nat) (x : Nat → K) : K :=
  (List.range size).foldl (fun sum j => if i ≠ j then sum + a size i j * x j else sum) 0

variable [DecidableEq K]

def divide (r s : K) : Option K := if s = 0 then none else some (r / s)

/-- The value `x_k[i]` that rank `me` of `p` computes from its block `x` and the whole of `B`. -/
def entry (p me size : Nat) (B x : Nat → K) (i : Nat) : Option K :=
  (divide (B i - offDiagonal size i x) (a size i i)).map fun value =>
    let value := if i ≠ 0 ∧ me ≠ 0 then 10 else value
    if i ≠ size - 1 ∧ me ≠ p - 1 then 0 else value

/-- What the collective calls leave with a rank: `MPI_Bcast` and `MPI_Scatter` of a buffer of rank 0,
and `MPI_Allgather` of a block of each rank. -/
structure Mpi (K : Type*) where
  bcast : Nat → (Nat → K) → Nat → Nat → K
  scatter : Nat → (Nat → K) → Nat → Nat → K
  allgather : Nat → List (List K) → List K

/-- The calls move blocks of `count` values as they are. -/
structure Mpi.Faithful (mpi : Mpi K) : Prop where
  bcast : ∀ count buffer me i, i < count → mpi.bcast count buffer me i = buffer i
  scatter : ∀ count buffer me i, i < count → mpi.scatter count buffer me i = buffer (me * count + i)
  allgather : ∀ count blocks, (∀ block ∈ blocks, block.length = count) →
    mpi.allgather count blocks = blocks.flatten

variable (mpi : Mpi K)

/-- The sweep of a rank over the block of `X` that is scattered to it. -/
def rank (p n : Nat) (B X : Nat → K) (me : Nat) : Option (List K) :=
  let size := n / p
  (List.range size).mapM (entry p me size (mpi.bcast (size * p) B me)
    (mpi.scatter size (mpi.bcast (size * p) X 0) me))

/-- `X_k` after the allgather; `none` where some rank divides by zero. -/
def gather (p n : Nat) (B X : Nat → K) : Option (List K) :=
  ((List.range p).mapM (rank mpi p n B X)).map (mpi.allgather (n / p))

omit [DecidableEq K] in
/-- The vectors start as what `malloc` returns. -/
def createB (n : Nat) (junk : Nat → K) : Nat → K :=
  (List.range' 1 (n - 2)).foldl (fun B i => Function.update B i 0) (Function.update junk 0 10)

omit [DecidableEq K] in
def createX (n : Nat) (junk : Nat → K) : Nat → K :=
  let X := (List.range' 1 (n - 2)).foldl
    (fun X i => if i ≠ 0 ∧ i ≠ n - 1 then Function.update X i 1 else X) junk
  Function.update (Function.update X 0 10) (n - 1) 0

/-- With `p` ranks nothing is divided by zero, and the vector gathered is that of a single rank and
of one sweep over the whole chain. -/
def Independent (p n : Nat) (B X : Nat → K) : Prop :=
  gather mpi p n B X = some ((List.range n).map (sweep n B X)) ∧
    gather mpi 1 n B X = gather mpi p n B X

omit [DecidableEq K] in
theorem foldl_add_eq_sum (n : Nat) (c : Nat → Prop) [DecidablePred c] (f : Nat → K) :
    (List.range n).foldl (fun sum j => if c j then sum + f j else sum) 0 =
      ∑ j ∈ (Finset.range n).filter c, f j := by
  induction n with
  | zero => simp
  | succ n ih =>
    rw [List.range_succ, List.foldl_append, ih, Finset.range_add_one, Finset.filter_insert]
    simp only [List.foldl_cons, List.foldl_nil]
    split
    next => rw [Finset.sum_insert (by simp), add_comm]
    next => rfl

omit [DecidableEq K] in
theorem rowSum_eq (size i : Nat) : (rowSum size i : K) = (neighbours size i).card := by
  have h := foldl_add_eq_sum (K := K) size (fun _ => True) (link i)
  simp only [if_true, Finset.filter_true] at h
  rw [rowSum, h, neighbours]
  simp [link, Finset.sum_boole]

omit [DecidableEq K] in
theorem offDiagonal_eq (size i : Nat) (x : Nat → K) :
    offDiagonal size i x = ∑ j ∈ neighbours size i, x j := by
  rw [offDiagonal, foldl_add_eq_sum size (fun j => i ≠ j) fun j => a size i j * x j, neighbours,
    Finset.sum_filter, Finset.sum_filter]
  refine Finset.sum_congr rfl fun j _ => ?_
  by_cases hij : i = j
  · simp [hij]
  · simp [hij, a, link]

theorem neighbours_nonempty {n i : Nat} (hn : 2 ≤ n) (hi : i < n) : (neighbours n i).Nonempty := by
  by_cases last : i + 1 < n
  · exact ⟨i + 1, by simp [neighbours, last]⟩
  · refine ⟨i - 1, ?_⟩
    simp only [neighbours, Finset.mem_filter, Finset.mem_range]
    omega

theorem neighbours_one : neighbours 1 0 = ∅ := by
  decide

theorem entry_eq (p me size : Nat) (B x : Nat → K) (i : Nat) :
    entry p me size B x i =
      if ((neighbours size i).card : K) = 0 then none
      else some (if i ≠ size - 1 ∧ me ≠ p - 1 then 0
        else if i ≠ 0 ∧ me ≠ 0 then 10 else sweep size B x i) := by
  simp only [entry, divide, a, if_true, rowSum_eq, offDiagonal_eq, sweep]
  by_cases card : ((neighbours size i).card : K) = 0
  · rw [if_pos card, if_pos card, Option.map_none]
  · rw [if_neg card, if_neg card, Option.map_some]

theorem mapM_eq_some_map {α β : Type*} {f : α → Option β} {g : α → β} {l : List α}
    (h : ∀ x ∈ l, f x = some (g x)) : l.mapM f = some (l.map g) := by
  induction l with
  | nil => rfl
  | cons x l ih =>
    rw [List.mapM_cons, h x List.mem_cons_self, ih fun y hy => h y (List.mem_cons_of_mem x hy)]
    rfl

theorem mapM_congr {α β : Type*} {f g : α → Option β} {l : List α} (h : ∀ x ∈ l, f x = g x) :
    l.mapM f = l.mapM g := by
  induction l with
  | nil => rfl
  | cons x l ih =>
    rw [List.mapM_cons, List.mapM_cons, h x List.mem_cons_self,
      ih fun y hy => h y (List.mem_cons_of_mem x hy)]

theorem mem_of_mapM {α β : Type*} {f : α → Option β} {l : List α} {ys : List β} {y : β}
    (h : l.mapM f = some ys) (hy : y ∈ ys) : ∃ x ∈ l, f x = some y := by
  induction l generalizing ys with
  | nil =>
    obtain rfl := Option.some.inj h
    simp at hy
  | cons x l ih =>
    rw [List.mapM_cons] at h
    obtain ⟨z, hz, h⟩ := Option.bind_eq_some_iff.mp h
    obtain ⟨zs, hzs, h⟩ := Option.bind_eq_some_iff.mp h
    obtain rfl := Option.some.inj h
    rcases List.mem_cons.mp hy with rfl | hy
    · exact ⟨x, List.mem_cons_self, hz⟩
    · obtain ⟨w, hw, he⟩ := ih hzs hy
      exact ⟨w, List.mem_cons_of_mem x hw, he⟩

theorem length_mapM {α β : Type*} {f : α → Option β} {l : List α} {ys : List β}
    (h : l.mapM f = some ys) : ys.length = l.length := by
  induction l generalizing ys with
  | nil =>
    obtain rfl := Option.some.inj h
    rfl
  | cons x l ih =>
    rw [List.mapM_cons] at h
    obtain ⟨y, -, h⟩ := Option.bind_eq_some_iff.mp h
    obtain ⟨zs, hzs, h⟩ := Option.bind_eq_some_iff.mp h
    obtain rfl := Option.some.inj h
    rw [List.length_cons, List.length_cons, ih hzs]

theorem gather_eq {mpi : Mpi K} (faithful : mpi.Faithful) (p n : Nat) (B X : Nat → K) :
    gather mpi p n B X = ((List.range p).mapM (rank mpi p n B X)).map List.flatten := by
  unfold gather
  refine Option.map_congr fun blocks hblocks => faithful.allgather _ _ fun block hblock => ?_
  obtain ⟨me, -, hme⟩ := mem_of_mapM hblocks hblock
  rw [length_mapM hme, List.length_range]

theorem rank_eq {mpi : Mpi K} (faithful : mpi.Faithful) {p n me : Nat} (hp : 0 < p) (hme : me < p)
    (B X : Nat → K) : rank mpi p n B X me =
      (List.range (n / p)).mapM (entry p me (n / p) B fun j => X (me * (n / p) + j)) := by
  refine mapM_congr fun i hi => ?_
  have hi := List.mem_range.mp hi
  have hsize : n / p ≤ n / p * p := Nat.le_mul_of_pos_right _ hp
  have hoff : offDiagonal (n / p) i (mpi.scatter (n / p) (mpi.bcast (n / p * p) X 0) me) =
      offDiagonal (n / p) i fun j => X (me * (n / p) + j) := by
    rw [offDiagonal_eq, offDiagonal_eq]
    refine Finset.sum_congr rfl fun j hj => ?_
    have hj : j < n / p := by simpa [neighbours] using (Finset.mem_filter.mp hj).1
    rw [faithful.scatter _ _ _ _ hj, faithful.bcast _ _ _ _ ?_]
    calc me * (n / p) + j < (me + 1) * (n / p) := by rw [Nat.succ_mul]; omega
      _ ≤ n / p * p := by rw [Nat.mul_comm]; exact Nat.mul_le_mul_left _ hme
  have hB : mpi.bcast (n / p * p) B me i = B i := faithful.bcast _ _ _ _ (by omega)
  simp only [entry, hoff, hB]

theorem gather_one [CharZero K] {mpi : Mpi K} (faithful : mpi.Faithful) {n : Nat} (hn : 2 ≤ n)
    (B X : Nat → K) : gather mpi 1 n B X = some ((List.range n).map (sweep n B X)) := by
  have block : rank mpi 1 n B X 0 = some ((List.range n).map (sweep n B X)) := by
    rw [rank_eq faithful Nat.one_pos Nat.one_pos]
    simp only [Nat.div_one, Nat.zero_mul, Nat.zero_add]
    refine mapM_eq_some_map fun i hi => ?_
    have card : ((neighbours n i).card : K) ≠ 0 :=
      Nat.cast_ne_zero.mpr (neighbours_nonempty hn (List.mem_range.mp hi)).card_ne_zero
    rw [entry_eq, if_neg card]
    simp
  simp [gather_eq faithful, List.range_succ, block]

/-- The first of several ranks writes zero over the first value of its block, if it gets that far
at all. -/
theorem gather_head {mpi : Mpi K} (faithful : mpi.Faithful) {p n : Nat} (hp : 2 ≤ p) (hdvd : p ∣ n)
    (hn : 2 ≤ n) {B X : Nat → K} {xs : List K} (h : gather mpi p n B X = some xs) :
    xs.head? = some 0 := by
  obtain ⟨size, rfl⟩ := hdvd
  have hdiv : p * size / p = size := Nat.mul_div_cancel_left size (by omega)
  have hrank := rank_eq faithful (n := p * size) (by omega) (by omega : 0 < p) B X
  rw [gather_eq faithful] at h
  obtain ⟨k, rfl⟩ : ∃ k, p = k + 1 := ⟨p - 1, by omega⟩
  obtain ⟨m, rfl⟩ : ∃ m, size = m + 1 := by
    refine ⟨size - 1, ?_⟩
    have : size ≠ 0 := fun h0 => by simp [h0] at hn
    omega
  simp only [List.range_succ_eq_map, List.mapM_cons] at h
  obtain ⟨blocks, hblocks, rfl⟩ := Option.map_eq_some_iff.mp h
  obtain ⟨block, hblock, hrest⟩ := Option.bind_eq_some_iff.mp hblocks
  obtain ⟨rest, -, hpure⟩ := Option.bind_eq_some_iff.mp hrest
  obtain rfl := Option.some.inj hpure
  rw [hrank] at hblock
  simp only [hdiv, List.range_succ_eq_map, List.mapM_cons] at hblock
  obtain ⟨value, hvalue, hrow⟩ := Option.bind_eq_some_iff.mp hblock
  obtain ⟨values, -, hpure⟩ := Option.bind_eq_some_iff.mp hrow
  obtain rfl := Option.some.inj hpure
  rw [entry_eq] at hvalue
  split at hvalue
  next => simp at hvalue
  next card =>
    have hm : m ≠ 0 := by
      rintro rfl
      simp [neighbours_one] at card
    obtain rfl := Option.some.inj hvalue
    rw [if_pos (by omega)]
    rfl

theorem foldl_update {α : Type*} (c : Nat → Prop) [DecidablePred c] (b : α) (l : List Nat)
    (v : Nat → α) (i : Nat) :
    l.foldl (fun v i => if c i then Function.update v i b else v) v i =
      if i ∈ l ∧ c i then b else v i := by
  induction l generalizing v with
  | nil => simp
  | cons j l ih =>
    rw [List.foldl_cons, ih]
    by_cases hij : i = j
    · subst hij
      by_cases hc : c i <;> simp [hc]
    · by_cases hc : c j <;> simp [hc, hij]

omit [DecidableEq K] in
theorem createB_zero (n : Nat) (junk : Nat → K) : createB n junk 0 = 10 := by
  have h := foldl_update (fun _ => True) (0 : K) (List.range' 1 (n - 2)) (Function.update junk 0 10) 0
  simpa [createB] using h

omit [DecidableEq K] in
theorem createX_one {n : Nat} (hn : 2 ≤ n) (junk : Nat → K) :
    createX n junk 1 = if n = 2 then 0 else 1 := by
  by_cases two : n = 2
  · simp [createX, two]
  · have inner : (1 : Nat) ≠ n - 1 := by omega
    have h := foldl_update (fun i => i ≠ 0 ∧ i ≠ n - 1) (1 : K) (List.range' 1 (n - 2)) junk 1
    rw [if_pos ⟨by simp; omega, by omega⟩] at h
    rw [if_neg two, createX, Function.update_of_ne inner, Function.update_of_ne (by omega)]
    exact h

omit [DecidableEq K] in
theorem sweep_zero_ne [CharZero K] {n : Nat} (hn : 2 ≤ n) (junk junk' : Nat → K) :
    sweep n (createB n junk) (createX n junk') 0 ≠ 0 := by
  have nbrs : neighbours n 0 = {1} := by
    ext j
    simp only [neighbours, Finset.mem_filter, Finset.mem_range, Finset.mem_singleton]
    omega
  rw [sweep, nbrs, Finset.sum_singleton, createB_zero, createX_one hn]
  split <;> norm_num

theorem not_independent [CharZero K] {mpi : Mpi K} (faithful : mpi.Faithful) {p n : Nat} (two : 2 ≤ p)
    (hn : 2 ≤ n) (hp : p ∣ n) (junk junk' : Nat → K) :
    ¬Independent mpi p n (createB n junk) (createX n junk') := by
  rintro ⟨gathered, -⟩
  have head := gather_head faithful two hp hn gathered
  obtain ⟨m, rfl⟩ : ∃ m, n = m + 1 := ⟨n - 1, by omega⟩
  rw [List.range_succ_eq_map, List.map_cons, List.head?_cons] at head
  exact sweep_zero_ne hn junk junk' (Option.some.inj head)

/-- The result is that of a single rank only if there is no other: of several ranks the first
overwrites the end of the chain. -/
theorem independent_iff [CharZero K] {mpi : Mpi K} (faithful : mpi.Faithful) {p n : Nat} (hn : 2 ≤ n)
    (hp : p ∣ n) (junk junk' : Nat → K) :
    Independent mpi p n (createB n junk) (createX n junk') ↔ p = 1 := by
  constructor
  · intro h
    by_contra ne
    have pos : p ≠ 0 := fun h0 => by simp [h0] at hp; omega
    exact not_independent faithful (by omega) hn hp junk junk' h
  · rintro rfl
    exact ⟨gather_one faithful hn _ _, rfl⟩

def copying : Mpi ℚ where
  bcast _ buffer _ := buffer
  scatter count buffer me i := buffer (me * count + i)
  allgather _ := List.flatten

theorem copying_faithful : copying.Faithful :=
  ⟨fun _ _ _ _ _ => rfl, fun _ _ _ _ _ => rfl, fun _ _ _ => rfl⟩

/-- The program's chain of sixteen nodes, on one rank. -/
theorem independent_sixteen : Independent copying 1 16 (createB 16 0) (createX 16 0) :=
  (independent_iff copying_faithful (by omega) (one_dvd 16) 0 0).mpr rfl

/-- The same chain on four ranks. -/
theorem four_ranks_differ : ¬Independent copying 4 16 (createB 16 0) (createX 16 0) :=
  not_independent copying_faithful (by omega) (by omega) ⟨4, rfl⟩ 0 0

end Jacobi

end TcpAndParallel
