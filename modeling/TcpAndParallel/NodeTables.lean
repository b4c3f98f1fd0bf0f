import Mathlib.Algebra.Field.Defs
import Mathlib.Data.List.OfFn

namespace TcpAndParallel

namespace NodeTables

/-- A node of a table; doubles are exact numbers. -/
structure Node (K : Type*) where
  row : Nat
  col : Nat
  real : K
  imag : K
  deriving DecidableEq

/-- The tables that `invert` is given and those that it makes. -/
inductive TableId
  | mytable
  | augment
  | a
  | aug
  | subtr
  | asubtr
  | aprime
  | augprime
  deriving DecidableEq

/-- The nodes of each column of each table, from its head on. -/
abbrev Tables (K : Type*) := TableId → Nat → List (Node K)

variable {K : Type*}

def setColumn (m : Tables K) (t : TableId) (i : Nat) (nodes : List (Node K)) : Tables K :=
  Function.update m t (Function.update (m t) i nodes)

/-- `for (i=lo;i<hi;i++)`. -/
def forColumns (lo hi : Nat) (body : Nat → Tables K → Option (Tables K)) (m : Tables K) :
    Option (Tables K) :=
  (List.range' lo (hi - lo)).foldlM (fun m i => body i m) m

def tableInit (t : TableId) (m : Tables K) : Tables K := Function.update m t fun _ => []

def tableAppend (t : TableId) (m : Tables K) (node : Node K) : Tables K :=
  setColumn m t node.col (m t node.col ++ [node])

/-- Copies of the nodes of one table are appended to another. -/
def copyTable (n : Nat) (target source : TableId) (m : Tables K) : Option (Tables K) :=
  forColumns 0 n (fun i m => some ((m source i).foldl (tableAppend target) m)) m

/-- A table of zeros, row by row. -/
def zeroTable [Zero K] (n : Nat) (t : TableId) (m : Tables K) : Option (Tables K) :=
  forColumns 0 n (fun i m => forColumns 0 n (fun j m => some (tableAppend t m ⟨i, j, 0, 0⟩)) m) m

def copyRowFromTable (array : List (Node K)) (m : Tables K) (t : TableId) (row : Nat) :
    List (Node K) :=
  array.mapIdx fun i old => ((m t i).find? fun node => node.row = row).getD old

/-- The first node of the row is written from the array. -/
def copyToNode (write : Node K → Node K → Node K) (entry : Option (Node K)) (row : Nat)
    (nodes : List (Node K)) : Option (List (Node K)) :=
  match nodes.findIdx? fun node => node.row = row with
  | none => some nodes
  | some k => entry.map fun e => nodes.modify k fun node => write node e

def copyRowToTable (write : Node K → Node K → Node K) (n : Nat) (t : TableId)
    (array : List (Node K)) (row : Nat) (m : Tables K) : Option (Tables K) :=
  forColumns 0 n (fun i m =>
    (copyToNode write array[i]? row (m t i)).map fun nodes => setColumn m t i nodes) m

/-- For each row the place in the column of the last node of the row; a pointer to it. -/
def getColumnFromTable (m : Tables K) (t : TableId) (column : Nat) : Nat → Option Nat :=
  (m t column).zipIdx.foldl (fun cnodes x => Function.update cnodes x.1.row (some x.2))
    fun _ => none

def zeroColumns [Zero K] (t : TableId) (hi : Nat) (m : Tables K) : Option (Tables K) :=
  forColumns 0 hi (fun i m =>
    some (setColumn m t i ((m t i).map fun node => { node with real := 0, imag := 0 }))) m

def product [Mul K] [Add K] [Sub K] (c e : Node K) : K × K :=
  (c.real * e.real - c.imag * e.imag, c.real * e.imag + c.imag * e.real)

def augProduct [Mul K] [Add K] (c e : Node K) : K × K :=
  (c.real * e.real + c.imag * e.imag, c.real * e.imag + c.imag * e.real)

/-- One node of the subtrahend. `Cr` points into the pivot column of the matrix. -/
def subtrahendNode [Zero K] (times : Node K → Node K → K × K) (r : Nat) (pivots : List (Node K))
    (cr : Nat → Option Nat) (array : List (Node K)) (mynode snode : Node K) : Option (Node K) :=
  if snode.row ≠ r then
    ((cr mynode.row).bind fun k => pivots[k]?).bind fun c =>
      (array[mynode.col]?).map fun e =>
        { snode with real := (times c e).1, imag := (times c e).2 }
  else some { snode with real := 0, imag := 0 }

/-- `while (mynode != NULL && snode != NULL)`. -/
def subtrahendNodes (node : Node K → Node K → Option (Node K)) :
    List (Node K) → List (Node K) → Option (List (Node K))
  | x :: xs, s :: ss => do
    let s ← node x s
    let ss ← subtrahendNodes node xs ss
    some (s :: ss)
  | _, ss => some ss

def subtrahend [Zero K] (times : Node K → Node K → K × K) (lo hi r : Nat) (s t matrix : TableId)
    (cr : Nat → Option Nat) (array : List (Node K)) (m : Tables K) : Option (Tables K) :=
  forColumns lo hi (fun i m =>
    (subtrahendNodes (subtrahendNode times r (m matrix r) cr array) (m t i) (m s i)).map
      fun nodes => setColumn m s i nodes) m

/-- `while (anode != NULL && bnode != NULL)`; the nodes of `C` may be those of `A`. The walk is no
longer than the column. -/
def subNodes [Sub K] (C A B : TableId) (i : Nat) : Nat → Nat → Tables K → Option (Tables K)
  | 0, _, m => some m
  | fuel + 1, k, m =>
    match (m A i)[k]?, (m B i)[k]? with
    | some anode, some bnode =>
      match (m C i)[k]? with
      | some _ => subNodes C A B i fuel (k + 1) (setColumn m C i ((m C i).set k
          ⟨anode.row, anode.col, anode.real - bnode.real, anode.imag - bnode.imag⟩))
      | none => none
    | _, _ => some m

def tableSub [Sub K] (n : Nat) (C A B : TableId) (m : Tables K) : Option (Tables K) :=
  forColumns 0 n (fun i m => subNodes C A B i (m A i).length 0 m) m

def copyValues : List (Node K) → List (Node K) → List (Node K)
  | x :: xs, y :: ys => { x with real := y.real, imag := y.imag } :: copyValues xs ys
  | xs, _ => xs

/-- The result is written to the nodes of the augment. -/
def writeBack (n : Nat) (target source : TableId) (m : Tables K) : Option (Tables K) :=
  forColumns 0 n (fun i m =>
    some (setColumn m target i (copyValues (m target i) (m source i)))) m

structure Locals (K : Type*) where
  tables : Tables K
  A : TableId
  Aug : TableId
  Rr : List (Node K)
  Ar : List (Node K)

section Invert

variable [Zero K] [Mul K] [Add K] [Sub K] (write : Node K → Node K → Node K)
  (normalise : Nat → List (Node K) → List (Node K) → Option (List (Node K) × List (Node K)))
  (n : Nat)

/-- One round of the loop over the pivots. -/
def round (r : Nat) (s : Locals K) : Option (Locals K) := do
  let Rr := copyRowFromTable s.Rr s.tables s.A r
  let Ar := copyRowFromTable s.Ar s.tables s.Aug r
  let (Rr, Ar) ← normalise r Rr Ar
  let m ← copyRowToTable write n s.A Rr r s.tables
  let m ← copyRowToTable write n s.Aug Ar r m
  let cr := getColumnFromTable m s.A r
  let m ← zeroColumns .subtr r m
  let m ← zeroColumns .asubtr r m
  let m ← subtrahend product r n r .subtr s.A s.A cr Rr m
  let m ← subtrahend augProduct 0 (r + 1) r .asubtr s.Aug s.A cr Ar m
  let m ← tableSub n .aprime s.A .subtr m
  let m ← tableSub n .augprime s.Aug .asubtr m
  some ⟨m, .aprime, .augprime, Rr, Ar⟩

/-- `Rr` and `Ar` are as `malloc` leaves them. -/
def prepare (Rr Ar : Fin n → Node K) (m : Tables K) : Option (Locals K) := do
  let m ← copyTable n .a .mytable (tableInit .a m)
  let m ← copyTable n .aug .augment (tableInit .aug m)
  let m ← zeroTable n .subtr (tableInit .subtr m)
  let m ← zeroTable n .asubtr (tableInit .asubtr m)
  let m ← zeroTable n .aprime (tableInit .aprime m)
  let m ← zeroTable n .augprime (tableInit .augprime m)
  some ⟨m, .a, .aug, List.ofFn Rr, List.ofFn Ar⟩

/-- `invert (mytable,augment)` for tables of `n` rows and columns, with its loop over the first
`pivots` pivots. -/
def invert (pivots : Nat) (Rr Ar : Fin n → Node K) (m : Tables K) : Option (Tables K) := do
  let s ← prepare n Rr Ar m
  let s ← (List.range pivots).foldlM (fun s r => round write normalise n r s) s
  writeBack n .augment s.Aug s.tables

end Invert

end NodeTables

end TcpAndParallel
