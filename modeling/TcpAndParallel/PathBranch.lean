import Mathlib.Data.List.FinRange
import Mathlib.Data.List.Chain
import Mathlib.Data.List.Nodup

namespace TcpAndParallel

namespace PathBranch

variable {lim : Nat}

/-- `path_find`: -1 if a step of the path has the node, else 0. A path is the list of its steps'
nodes from the head on, and nodes on a path count from one. -/
def pathFind (myroot : List Int) (mynode : Int) : Int :=
  myroot.foldl (fun ret step => if step = mynode then -1 else ret) 0

def pathPut (myroot : List Int) (mynode : Int) : List Int := myroot ++ [mynode]

/-- The loop of `path_clone` from the step `mystep` on; `none` is a null pointer. A new step keeps
the node that `malloc` finds in the memory. -/
def cloneLoop (memory : Nat → Int) : List Int → List Int → Option (List Int)
  | _mystep :: step :: steps, newroot =>
    let newroot := pathPut newroot (memory newroot.length)
    if steps = [] then some newroot else cloneLoop memory (step :: steps) newroot
  | _, _ => none

/-- `path_clone`, which first prints the node at the head. -/
def pathClone (memory : Nat → Int) (myroot : List Int) : Option (List Int) :=
  match myroot with
  | [] => none
  | _ => cloneLoop memory myroot []

structure Call (lim : Nat) where
  myroot : List Int
  mybranch : Fin lim
  deriving DecidableEq

/-- The test for an entry in the adjacency mask, on the signed `adj_sum`. -/
def entry (adj : Fin lim → UInt32) (mybranch n : Fin lim) : Bool :=
  decide ((1 : Int32) ≤ (adj mybranch).toInt32 &&& ((1 : Int32) <<< n.val.toInt32))

/-- The calls that a call of `path_branch` makes, in itself and in the processes it forks. A child
that meets a null pointer makes none; its parent goes on. `none` says that the fuel is used up. -/
def pathBranch (memory : Nat → Int) (adj : Fin lim → UInt32) :
    Nat → List Int → Fin lim → Option (List (Call lim))
  | 0, _, _ => none
  | fuel + 1, myroot, mybranch =>
    if pathFind myroot (mybranch.val + 1) = 0 then
      ((List.finRange lim).mapM fun n =>
        if entry adj mybranch n then
          match pathClone memory myroot with
          | none => some []
          | some clone =>
            (pathBranch memory adj fuel (pathPut clone (mybranch.val + 1)) n).map
              (⟨pathPut clone (mybranch.val + 1), n⟩ :: ·)
        else some []).map List.flatten
    else some []

def Neighbour (adj : Fin lim → UInt32) (v n : Fin lim) : Prop := (adj v).toNat.testBit n.val = true

/-- The path runs from the first node along neighbours and meets no node twice. -/
structure SimplePath (adj : Fin lim → UInt32) (start : Fin lim) (P : List (Fin lim)) : Prop where
  head : P.head? = some start
  chain : P.IsChain (Neighbour adj)
  nodup : P.Nodup

/-- The call goes on along a simple path to a neighbour of its last node. -/
def Extends (adj : Fin lim → UInt32) (start : Fin lim) (c : Call lim) : Prop :=
  ∃ P last, SimplePath adj start P ∧ P.getLast? = some last ∧ Neighbour adj last c.mybranch ∧
    c.myroot = P.map fun v => (v.val : Int) + 1

/-- The exploration from the empty path ends, and the calls in it are those along the simple paths,
each made once. -/
def Enumerates (memory : Nat → Int) (adj : Fin lim → UInt32) (start : Fin lim) : Prop :=
  ∃ fuel calls, pathBranch memory adj fuel [] start = some calls ∧ calls.Nodup ∧
    ∀ c, c ∈ calls ↔ Extends adj start c

theorem cloneLoop_length {memory : Nat → Int} {steps newroot clone : List Int}
    (h : cloneLoop memory steps newroot = some clone) :
    clone.length + 1 = newroot.length + steps.length := by
  fun_induction cloneLoop memory steps newroot with
  | case1 newroot mystep step newroot' =>
    obtain rfl := Option.some.inj h
    simp [newroot', pathPut]
  | case2 newroot mystep step steps newroot' ne ih =>
    have := ih h
    simp only [newroot', pathPut, List.length_append, List.length_cons, List.length_nil] at this ⊢
    omega
  | case3 => simp at h

theorem pathClone_length {memory : Nat → Int} {myroot clone : List Int}
    (h : pathClone memory myroot = some clone) : clone.length + 1 = myroot.length := by
  cases myroot with
  | nil => simp [pathClone] at h
  | cons step steps =>
    have := cloneLoop_length (show cloneLoop memory (step :: steps) [] = some clone from h)
    simpa using this

theorem pathPut_clone_ne {memory : Nat → Int} {myroot clone : List Int}
    (h : pathClone memory myroot = some clone) (node : Int) :
    pathPut clone node ≠ pathPut myroot node := by
  intro he
  have length := congrArg List.length he
  have shorter := pathClone_length h
  simp only [pathPut, List.length_append] at length
  omega

theorem mapM_const {α β : Type*} (b : β) (l : List α) :
    (l.mapM fun _ => some b) = some (List.replicate l.length b) := by
  induction l with
  | nil => rfl
  | cons x l ih =>
    rw [List.mapM_cons, ih]
    rfl

/-- From the empty path every child ends in `path_clone`. -/
theorem pathBranch_empty (memory : Nat → Int) (adj : Fin lim → UInt32) (fuel : Nat)
    (start : Fin lim) : pathBranch memory adj (fuel + 1) [] start = some [] := by
  have none : pathClone memory [] = Option.none := rfl
  simp only [pathBranch, none, ite_self, mapM_const]
  simp [pathFind]

theorem eq_nil_of_empty {memory : Nat → Int} {adj : Fin lim → UInt32} {fuel : Nat} {start : Fin lim}
    {calls : List (Call lim)} (h : pathBranch memory adj fuel [] start = some calls) :
    calls = [] := by
  cases fuel with
  | zero => simp [pathBranch] at h
  | succ fuel =>
    rw [pathBranch_empty] at h
    exact (Option.some.inj h).symm

theorem extends_start {adj : Fin lim → UInt32} {start n : Fin lim} (h : Neighbour adj start n) :
    Extends adj start ⟨[(start.val : Int) + 1], n⟩ :=
  ⟨[start], start, ⟨rfl, List.isChain_singleton start, List.nodup_singleton start⟩, rfl, h, rfl⟩

theorem eq_singleton_of_isolated {adj : Fin lim → UInt32} {start : Fin lim} {P : List (Fin lim)}
    (isolated : ∀ n, ¬Neighbour adj start n) (h : SimplePath adj start P) : P = [start] := by
  obtain ⟨head, chain, -⟩ := h
  cases P with
  | nil => simp at head
  | cons v P =>
    obtain rfl := Option.some.inj head
    cases P with
    | nil => rfl
    | cons w P => exact absurd (List.isChain_cons_cons.mp chain).1 (isolated w)

theorem not_enumerates {memory : Nat → Int} {adj : Fin lim → UInt32} {start n : Fin lim}
    (h : Neighbour adj start n) : ¬Enumerates memory adj start := by
  rintro ⟨fuel, calls, hcalls, -, mem⟩
  obtain rfl := eq_nil_of_empty hcalls
  exact absurd ((mem _).mpr (extends_start h)) List.not_mem_nil

/-- The paths are enumerated only from a node without neighbours: the first clone is of the empty
path, whose head is a null pointer. -/
theorem enumerates_iff_isolated (memory : Nat → Int) (adj : Fin lim → UInt32) (start : Fin lim) :
    Enumerates memory adj start ↔ ∀ n, ¬Neighbour adj start n := by
  constructor
  · intro h n hn
    exact not_enumerates hn h
  · intro isolated
    refine ⟨1, [], pathBranch_empty memory adj 0 start, List.nodup_nil, fun c => ?_⟩
    constructor
    · intro hc
      exact absurd hc List.not_mem_nil
    · rintro ⟨P, last, simple, hlast, hn, -⟩
      obtain rfl := eq_singleton_of_isolated isolated simple
      obtain rfl := Option.some.inj hlast
      exact absurd hn (isolated c.mybranch)

/-- One resistor between two nodes. -/
theorem pair_not_enumerated :
    ¬Enumerates (fun _ => 0) (fun v : Fin 2 => if v.val = 0 then 2 else 1) 0 :=
  not_enumerates (show Neighbour _ 0 1 from rfl)

end PathBranch

end TcpAndParallel
