import TcpAndParallel.TaskFarm

namespace TcpAndParallel

theorem exists_step_of_lt {f : Nat → Nat} {i n : Nat} (first : f 0 ≤ i) (last : i < f n) :
    ∃ w < n, f w ≤ i ∧ i < f (w + 1) := by
  induction n with
  | zero => omega
  | succ n ih =>
    by_cases h : i < f n
    · obtain ⟨w, hw, hi⟩ := ih h
      exact ⟨w, by omega, hi⟩
    · exact ⟨n, by omega, by omega, last⟩

namespace MatrixMultiply

universe u

/-- The calls that put rows of doubles into a message and take so many of them out of it. -/
structure Pvm where
  Packed : Type u → Type u
  pkdouble {β : Type u} : List β → Packed β
  upkdouble {β : Type u} : Nat → Packed β → Option (List β)

/-- What has been packed is unpacked. -/
def Pvm.Exact (pvm : Pvm.{u}) : Prop :=
  ∀ {β : Type u} (xs : List β), pvm.upkdouble xs.length (pvm.pkdouble xs) = some xs

/-- What a worker task is sent: the position and the number of its rows of `A`, these rows, and `B`. -/
structure Request (pvm : Pvm.{u}) (nca ncb : Nat) (α : Type u) where
  offset : Nat
  rows : Nat
  a : pvm.Packed (Fin nca → α)
  b : pvm.Packed (Fin ncb → α)

structure Reply (pvm : Pvm.{u}) (ncb : Nat) (α : Type u) where
  offset : Nat
  rows : Nat
  c : pvm.Packed (Fin ncb → α)

/-- The variables of `main` that its two loops set. -/
structure Data (nra ncb : Nat) (α : Type u) where
  offset : Nat
  rows : Nat
  c : Fin nra → Fin ncb → α

variable {nproc nra nca ncb : Nat} {α β : Type u} {pvm : Pvm.{u}}

/-- So many rows of a matrix in the memory; `none` where they are not all in it. -/
def readRows (a : Fin nra → β) (offset rows : Nat) : Option (List β) :=
  if h : offset + rows ≤ nra then some (List.ofFn fun k : Fin rows => a ⟨offset + k, by omega⟩) else none

def writeRows (c : Fin nra → β) (offset : Nat) (xs : List β) : Option (Fin nra → β) :=
  if offset + xs.length ≤ nra then
    some fun i => if offset ≤ i then xs.getD (i - offset) (c i) else c i
  else none

/-- `(i < extra) ? averow+1 : averow` -/
def rowsFor (nproc nra i : Nat) : Nat :=
  let averow := nra / nproc
  let extra := nra % nproc
  if i < extra then averow + 1 else averow

/-- The passes of the loops of `main`. -/
def main (pvm : Pvm.{u}) (nproc : Nat) (a : Fin nra → Fin nca → α) (b : Fin nca → Fin ncb → α) :
    Farm.Master (Request pvm nca ncb α) (Reply pvm ncb α) (Data nra ncb α) where
  send i d :=
    let rows := rowsFor nproc nra i
    (readRows a d.offset rows).map fun rowsOfA =>
      (⟨d.offset, rows, pvm.pkdouble rowsOfA, pvm.pkdouble (List.ofFn b)⟩,
        { d with offset := d.offset + rows, rows })
  receive reply d :=
    (pvm.upkdouble reply.rows reply.c).bind fun rowsOfC =>
      (writeRows d.c reply.offset rowsOfC).map fun c => ⟨reply.offset, reply.rows, c⟩

/-- The worker's code is not at hand: it multiplies each row it is sent with `B`, by some function
`multiply`, and answers with the products under the position it was sent. -/
def Multiplies (pvm : Pvm.{u}) (multiply : (Fin nca → Fin ncb → α) → (Fin nca → α) → Fin ncb → α)
    (work : Request pvm nca ncb α → Reply pvm ncb α) : Prop :=
  ∀ offset rows b, work ⟨offset, rows.length, pvm.pkdouble rows, pvm.pkdouble (List.ofFn b)⟩ =
    ⟨offset, rows.length, pvm.pkdouble (rows.map (multiply b))⟩

/-- Where the rows for worker `i` begin. -/
def offsetOf (nproc nra i : Nat) : Nat := i * (nra / nproc) + min i (nra % nproc)

section Blocks

theorem offsetOf_succ (nproc nra i : Nat) :
    offsetOf nproc nra (i + 1) = offsetOf nproc nra i + rowsFor nproc nra i := by
  simp only [offsetOf, rowsFor, Nat.add_mul, Nat.one_mul]
  split <;> omega

theorem offsetOf_nproc (hn : 0 < nproc) (nra : Nat) : offsetOf nproc nra nproc = nra := by
  have hlt : nra % nproc < nproc := Nat.mod_lt _ hn
  have hdiv := Nat.div_add_mod nra nproc
  rw [offsetOf, Nat.min_eq_right hlt.le]
  exact hdiv

theorem offsetOf_le (hn : 0 < nproc) {i : Nat} (hi : i ≤ nproc) : offsetOf nproc nra i ≤ nra := by
  have hmono : Monotone (offsetOf nproc nra) :=
    monotone_nat_of_le_succ fun i => by rw [offsetOf_succ]; exact Nat.le_add_right _ _
  have hle := hmono hi
  rwa [offsetOf_nproc hn] at hle

/-- Row `i` is in the block of worker `w`. -/
def InBlock (nproc nra w i : Nat) : Prop := offsetOf nproc nra w ≤ i ∧ i < offsetOf nproc nra (w + 1)

/-- Every row is handed out. -/
theorem exists_inBlock (hn : 0 < nproc) (i : Fin nra) : ∃ w : Fin nproc, InBlock nproc nra w i := by
  have hlast : (i : Nat) < offsetOf nproc nra nproc := by
    rw [offsetOf_nproc hn]
    exact i.isLt
  obtain ⟨w, hw, hi⟩ := exists_step_of_lt (f := offsetOf nproc nra) (by simp [offsetOf]) hlast
  exact ⟨⟨w, hw⟩, hi⟩

end Blocks

section Tasks

variable {a : Fin nra → Fin nca → α} {b : Fin nca → Fin ncb → α}
  {multiply : (Fin nca → Fin ncb → α) → (Fin nca → α) → Fin ncb → α}
  {work : Request pvm nca ncb α → Reply pvm ncb α}
  {out : Mailboxes nproc (Request pvm nca ncb α)} {back : Mailboxes nproc (Reply pvm ncb α)}

def block (nproc : Nat) (a : Fin nra → Fin nca → α) (w : Nat) : List (Fin nca → α) :=
  (readRows a (offsetOf nproc nra w) (rowsFor nproc nra w)).getD []

def request (pvm : Pvm.{u}) (nproc : Nat) (a : Fin nra → Fin nca → α) (b : Fin nca → Fin ncb → α)
    (w : Fin nproc) : Request pvm nca ncb α :=
  ⟨offsetOf nproc nra w, rowsFor nproc nra w, pvm.pkdouble (block nproc a w), pvm.pkdouble (List.ofFn b)⟩

def before (nproc rows : Nat) (c : Fin nra → Fin ncb → α) : Nat → Data nra ncb α
  | 0 => ⟨0, rows, c⟩
  | i + 1 => ⟨offsetOf nproc nra (i + 1), rowsFor nproc nra i, c⟩

theorem before_offset (nproc rows : Nat) (c : Fin nra → Fin ncb → α) (i : Nat) :
    (before nproc rows c i).offset = offsetOf nproc nra i := by
  cases i with
  | zero => simp [before, offsetOf]
  | succ i => rfl

theorem before_c (nproc rows : Nat) (c : Fin nra → Fin ncb → α) (i : Nat) : (before nproc rows c i).c = c := by
  cases i <;> rfl

theorem before_succ (nproc rows : Nat) (c : Fin nra → Fin ncb → α) (i : Nat) :
    before nproc rows c (i + 1) = ⟨offsetOf nproc nra (i + 1), rowsFor nproc nra i, c⟩ := rfl

theorem offsetOf_add_rowsFor_le (hn : 0 < nproc) (w : Fin nproc) :
    offsetOf nproc nra w + rowsFor nproc nra w ≤ nra := by
  rw [← offsetOf_succ]
  exact offsetOf_le hn w.isLt

theorem readRows_block (hn : 0 < nproc) (a : Fin nra → Fin nca → α) (w : Fin nproc) :
    readRows a (offsetOf nproc nra w) (rowsFor nproc nra w) = some (block nproc a w) := by
  rw [block, readRows, dif_pos (offsetOf_add_rowsFor_le hn w), Option.getD_some]

theorem main_sends (hn : 0 < nproc) (a : Fin nra → Fin nca → α) (b : Fin nca → Fin ncb → α) (rows : Nat)
    (c : Fin nra → Fin ncb → α) :
    Farm.Sends (main pvm nproc a b) (request pvm nproc a b) (before nproc rows c) := by
  intro i
  simp only [main, readRows_block hn, Option.map_some, request, before_offset, before_c, before_succ, offsetOf_succ]

theorem block_length (hn : 0 < nproc) (a : Fin nra → Fin nca → α) (w : Fin nproc) :
    (block nproc a w).length = rowsFor nproc nra w := by
  rw [block, readRows, dif_pos (offsetOf_add_rowsFor_le hn w)]
  simp

theorem exists_inv (ho : out.Reliable) (hb : back.Reliable) (hn : 0 < nproc) {spawned : Fin nproc → Bool}
    (rows : Nat) (c : Fin nra → Fin ncb → α) {es : List (Farm.Event nproc)} {s : Farm.State out back _}
    (run : es.foldlM (Farm.step (main pvm nproc a b) work spawned) (Farm.start out back ⟨0, rows, c⟩) = some s) :
    ∃ ws, Farm.Inv (main pvm nproc a b) work spawned (request pvm nproc a b) (before nproc rows c) s ws :=
  Farm.exists_inv ho hb (main_sends hn a b rows c) run

theorem main_receives (exact : pvm.Exact) (hn : 0 < nproc) (hw : Multiplies pvm multiply work)
    (w : Fin nproc) (d : Data nra ncb α) :
    ∃ d', (main pvm nproc a b).receive (work (request pvm nproc a b w)) d = some d' ∧
      ∀ i : Fin nra, (InBlock nproc nra w i → d'.c i = multiply b (a i)) ∧
        (¬InBlock nproc nra w i → d'.c i = d.c i) := by
  have hlen := block_length hn a w
  have hreply : work (request pvm nproc a b w) = ⟨offsetOf nproc nra w, rowsFor nproc nra w,
      pvm.pkdouble ((block nproc a w).map (multiply b))⟩ := by
    rw [request, ← hlen, hw]
  have hunpack : pvm.upkdouble (rowsFor nproc nra w)
      (pvm.pkdouble ((block nproc a w).map (multiply b))) = some ((block nproc a w).map (multiply b)) := by
    have hback := exact ((block nproc a w).map (multiply b))
    rwa [List.length_map, hlen] at hback
  have hroom : offsetOf nproc nra w + ((block nproc a w).map (multiply b)).length ≤ nra := by
    rw [List.length_map, hlen]
    exact offsetOf_add_rowsFor_le hn w
  rw [hreply]
  refine ⟨_, by simp only [main, hunpack, Option.bind_some, writeRows, if_pos hroom, Option.map_some]; rfl,
    fun i => ⟨fun hi => ?_, fun hi => ?_⟩⟩
  · have hi' : offsetOf nproc nra w ≤ i ∧ i < offsetOf nproc nra w + rowsFor nproc nra w := by
      rw [← offsetOf_succ]
      exact hi
    have hk : (i : Nat) - offsetOf nproc nra w < rowsFor nproc nra w := by omega
    have hrow : (⟨offsetOf nproc nra w + (i - offsetOf nproc nra w), by omega⟩ : Fin nra) = i :=
      Fin.ext (by simp only; omega)
    dsimp only
    rw [if_pos hi'.1, block, readRows, dif_pos (offsetOf_add_rowsFor_le hn w), Option.getD_some]
    simp [List.getD_eq_getElem?_getD, hk, hrow]
  · rw [InBlock, offsetOf_succ] at hi
    dsimp only
    split
    next hle =>
      have hnone : ((block nproc a w).map (multiply b))[(i : Nat) - offsetOf nproc nra w]? = none :=
        List.getElem?_eq_none (by rw [List.length_map, hlen]; omega)
      rw [List.getD_eq_getElem?_getD, hnone, Option.getD_none]
    next => rfl

theorem main_takes (exact : pvm.Exact) (hn : 0 < nproc) (hw : Multiplies pvm multiply work) (w : Fin nproc)
    (d : Data nra ncb α) :
    ((main pvm nproc a b).receive (work (request pvm nproc a b w)) d).isSome = true := by
  obtain ⟨d', hd, -⟩ := main_receives (a := a) (b := b) exact hn hw w d
  rw [hd, Option.isSome_some]

/-- Whatever the order of the replies, the rows of their blocks are the products. -/
theorem collect_products (exact : pvm.Exact) (hn : 0 < nproc) (hw : Multiplies pvm multiply work)
    (ws : List (Fin nproc)) (d : Data nra ncb α) :
    ∃ d', Farm.collect (main pvm nproc a b) work (request pvm nproc a b) ws d = some d' ∧
      ∀ i : Fin nra, (d.c i = multiply b (a i) ∨ ∃ w ∈ ws, InBlock nproc nra w i) →
        d'.c i = multiply b (a i) := by
  induction ws generalizing d with
  | nil => exact ⟨d, rfl, fun i hi => hi.elim id fun ⟨w, hw, _⟩ => absurd hw List.not_mem_nil⟩
  | cons w ws ih =>
    obtain ⟨d₁, h₁, hrows⟩ := main_receives (a := a) (b := b) exact hn hw w d
    obtain ⟨d₂, h₂, hall⟩ := ih d₁
    refine ⟨d₂, by rw [Farm.collect, List.foldlM_cons, h₁]; exact h₂, fun i hi => hall i ?_⟩
    by_cases hin : InBlock nproc nra w i
    · exact .inl ((hrows i).1 hin)
    · rcases hi with hi | ⟨v, hv, hvi⟩
      · exact .inl (((hrows i).2 hin).trans hi)
      · rcases List.mem_cons.mp hv with rfl | hv
        · exact absurd hvi hin
        · exact .inr ⟨v, hv, hvi⟩

end Tasks

section Runs

variable {out : Mailboxes nproc (Request pvm nca ncb α)} {back : Mailboxes nproc (Reply pvm ncb α)}

/-- In every run, however the tasks are interleaved and in whichever order the replies come, `main`
prints the products of all rows, each in its place; and as long as it has not, some task can go on,
which ends after three steps for each worker at the latest. -/
theorem main_prints_products (ho : out.Reliable) (hb : back.Reliable) (exact : pvm.Exact) (hn : 0 < nproc)
    {a : Fin nra → Fin nca → α} {b : Fin nca → Fin ncb → α}
    {multiply : (Fin nca → Fin ncb → α) → (Fin nca → α) → Fin ncb → α}
    {work : Request pvm nca ncb α → Reply pvm ncb α} (hw : Multiplies pvm multiply work)
    {spawned : Fin nproc → Bool} (all : ∀ w, spawned w = true) (rows : Nat) (c : Fin nra → Fin ncb → α)
    {es : List (Farm.Event nproc)} {s : Farm.State out back _}
    (run : es.foldlM (Farm.step (main pvm nproc a b) work spawned) (Farm.start out back ⟨0, rows, c⟩) = some s) :
    (s.received = nproc → s.data.c = fun i => multiply b (a i)) ∧
      (s.received ≠ nproc → ∃ e t, Farm.step (main pvm nproc a b) work spawned s e = some t) ∧
      es.length ≤ 3 * nproc := by
  obtain ⟨ws, h⟩ := exists_inv ho hb hn rows c run
  refine ⟨fun hall => funext fun i => ?_, fun hrest => ?_, Farm.length_le ho hb run⟩
  · obtain ⟨hmem, hdata⟩ := h.collected hall
    obtain ⟨d, hd, hrows⟩ := collect_products (a := a) (b := b) exact hn hw ws (before nproc rows c s.sent)
    obtain rfl : d = s.data := Option.some.inj (hd.symm.trans hdata)
    obtain ⟨w, hin⟩ := exists_inBlock hn i
    exact hrows i (.inr ⟨w, hmem w, hin⟩)
  · exact h.progress ho hb (main_sends hn a b rows c) (main_takes exact hn hw) all hrest

end Runs

/-- The matrices that `main` sets up, and a worker that multiplies. -/
def initA (nra nca : Nat) (i : Fin nra) (j : Fin nca) : Int := i + j

def initB (nca ncb : Nat) (i : Fin nca) (j : Fin ncb) : Int := i * j

def dot (b : Fin nca → Fin ncb → Int) (row : Fin nca → Int) (j : Fin ncb) : Int :=
  (List.finRange nca).foldl (fun sum k => sum + row k * b k j) 0

/-- Messages that hold the rows as they are. -/
def plain : Pvm.{0} where
  Packed := List
  pkdouble xs := xs
  upkdouble rows xs := if rows ≤ xs.length then some (xs.take rows) else none

theorem plain_exact : plain.Exact := by
  intro β xs
  simp [plain]

def worker (q : Request plain nca ncb Int) : Reply plain ncb Int :=
  ⟨q.offset, q.rows, List.map (dot fun k j => (List.map (fun row : Fin ncb → Int => row j) q.b).getD k 0) q.a⟩

theorem worker_multiplies : Multiplies plain dot (worker : Request plain nca ncb Int → Reply plain ncb Int) := by
  intro offset rows b
  have hb : (fun (k : Fin nca) (j : Fin ncb) =>
      (List.map (fun row : Fin ncb → Int => row j) (List.ofFn b)).getD k 0) = b := by
    funext k j
    simp [List.getD_eq_getElem?_getD]
  simp only [worker, plain, hb]

def secondFirst : List (Farm.Event 2) :=
  [.send, .work ⟨0, Nat.zero_lt_two⟩, .send, .work ⟨1, Nat.one_lt_two⟩, .receive ⟨1, Nat.one_lt_two⟩,
    .receive ⟨0, Nat.zero_lt_two⟩]

theorem main_prints_products_two :
    ∃ s : Farm.State (Mailboxes.lists 2 (Request plain 2 2 Int)) (Mailboxes.lists 2 (Reply plain 2 Int)) (Data 3 2 Int),
      secondFirst.foldlM (Farm.step (main plain 2 (initA 3 2) (initB 2 2)) worker fun _ => true)
          (Farm.start _ _ ⟨0, 0, fun _ _ => 7⟩) = some s ∧
        s.received = 2 ∧ s.data.c = fun i => dot (initB 2 2) (initA 3 2 i) := by
  obtain ⟨s, run, hall⟩ :
      ∃ s : Farm.State (Mailboxes.lists 2 (Request plain 2 2 Int)) (Mailboxes.lists 2 (Reply plain 2 Int)) (Data 3 2 Int),
        secondFirst.foldlM (Farm.step (main plain 2 (initA 3 2) (initB 2 2)) worker fun _ => true)
          (Farm.start _ _ ⟨0, 0, fun _ _ => 7⟩) = some s ∧ s.received = 2 := ⟨_, rfl, rfl⟩
  have h := main_prints_products (Mailboxes.lists_reliable 2 _) (Mailboxes.lists_reliable 2 _) plain_exact
    Nat.zero_lt_two worker_multiplies (fun _ => rfl) 0 (fun _ _ => 7) run
  exact ⟨s, run, hall, h.1 hall⟩

section Spawns

variable {out : Mailboxes nproc (Request pvm nca ncb α)} {back : Mailboxes nproc (Reply pvm ncb α)}

/-- The result of `pvm_spawn` is not checked: `main` can come to print if every worker was started, and
else every run comes to where it waits in `pvm_recv` and no message is there or will be. -/
theorem main_prints_iff_spawned (ho : out.Reliable) (hb : back.Reliable) (exact : pvm.Exact) (hn : 0 < nproc)
    {a : Fin nra → Fin nca → α} {b : Fin nca → Fin ncb → α}
    {multiply : (Fin nca → Fin ncb → α) → (Fin nca → α) → Fin ncb → α}
    {work : Request pvm nca ncb α → Reply pvm ncb α} (hw : Multiplies pvm multiply work)
    (spawned : Fin nproc → Bool) (rows : Nat) (c : Fin nra → Fin ncb → α) :
    ((∃ (es : List (Farm.Event nproc)) (s : Farm.State out back _),
      es.foldlM (Farm.step (main pvm nproc a b) work spawned) (Farm.start out back ⟨0, rows, c⟩) = some s ∧
        s.received = nproc) ↔ ∀ w, spawned w = true) ∧
    ((∃ w, spawned w = false) → ∀ (es : List (Farm.Event nproc)) (s : Farm.State out back _),
      es.foldlM (Farm.step (main pvm nproc a b) work spawned) (Farm.start out back ⟨0, rows, c⟩) = some s →
        es.length ≤ 3 * nproc ∧
          ((∃ e t, Farm.step (main pvm nproc a b) work spawned s e = some t) ∨ Farm.Stuck s)) := by
  have alive : ∀ (es : List (Farm.Event nproc)) (s : Farm.State out back _),
      es.foldlM (Farm.step (main pvm nproc a b) work spawned) (Farm.start out back ⟨0, rows, c⟩) = some s →
        s.received = nproc → ∀ w, spawned w = true := by
    intro es s run hall w
    obtain ⟨ws, h⟩ := exists_inv ho hb hn rows c run
    exact h.alive w ((h.collected hall).1 w)
  refine ⟨⟨fun ⟨es, s, run, hall⟩ => alive es s run hall, fun all => ?_⟩, fun ⟨w, hdead⟩ es s run => ?_⟩
  · have run := Farm.exists_run ho hb (main_sends hn a b rows c) (main_takes exact hn hw) all
    exact run
  · obtain ⟨ws, h⟩ := exists_inv ho hb hn rows c run
    have hrest : s.received ≠ nproc := by
      intro hall
      have hw := alive es s run hall w
      simp [hdead] at hw
    exact ⟨Farm.length_le ho hb run,
      h.progress_or_stuck ho hb (main_sends hn a b rows c) (main_takes exact hn hw) hrest⟩

theorem main_prints_iff_spawned_four : ¬∃ (es : List (Farm.Event 4))
    (s : Farm.State (Mailboxes.lists 4 (Request plain 15 7 Int)) (Mailboxes.lists 4 (Reply plain 7 Int)) (Data 62 7 Int)),
      es.foldlM (Farm.step (main plain 4 (initA 62 15) (initB 15 7)) worker fun w => w.val != 3)
          (Farm.start _ _ ⟨0, 0, fun _ _ => 0⟩) = some s ∧ s.received = 4 := by
  intro h
  have hiff := main_prints_iff_spawned (Mailboxes.lists_reliable 4 _) (Mailboxes.lists_reliable 4 _) plain_exact
    (by decide) worker_multiplies (a := initA 62 15) (b := initB 15 7) (fun w => w.val != 3) 0 fun _ _ => 0
  exact absurd (hiff.1.mp h 3) (by decide)

end Spawns

end MatrixMultiply

end TcpAndParallel
