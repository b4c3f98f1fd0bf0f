import TcpAndParallel.FirstFit
import TcpAndParallel.Ledger

namespace TcpAndParallel

namespace QuickFit

def listLength : Nat := 3

def boardSize : Nat := 20

/-- "threshold at which to sort all the scores" -/
def threshold : Int32 := 3

structure QuickSlot where
  qNext : Option (Fin listLength)
  hBase : UInt32
  deriving DecidableEq

structure Score where
  sNext : Option (Fin boardSize)
  sLen : UInt32
  sReq : Int32
  deriving DecidableEq

/-- What the file does not settle: where the arrays lie, which decides two comparisons of
addresses in `mem_init`, and what the two pointers to `int` point to. -/
structure Build where
  belowQuicklist : Bool
  belowScore : Bool
  quickSize : Option Int32
  sortAttempts : Option Int32

structure Quick (n : Nat) where
  table : Table n
  quicklist : Fin listLength → QuickSlot
  quickHead : Option (Fin listLength)
  freeQSlots : Option (Fin listLength)
  score : Fin boardSize → Score
  scoreHead : Option (Fin boardSize)
  freeSSlots : Option (Fin boardSize)
  quickSize : Option Int32
  sortAttempts : Option Int32

variable {n : Nat}

/-- Two neighbours change places if the second one has more requests. -/
def sortStep (score : Fin boardSize → Score) (sp : Fin boardSize) :
    Except Fault (Fin boardSize → Score) := do
  let next ← deref (score sp).sNext
  if (score sp).sReq < (score next).sReq then
    let temp := score sp
    let score := Function.update score sp
      { temp with sLen := (score next).sLen, sReq := (score next).sReq }
    .ok (Function.update score next { score next with sLen := temp.sLen, sReq := temp.sReq })
  else .ok score

/-- "Make empty entries." The loop starts three entries before the end of the board and stops
in front of the last. -/
def emptyTail (score : Fin boardSize → Score) (i : Fin boardSize) : Score :=
  if boardSize - 3 ≤ i.val ∧ i.val < boardSize - 1 then { score i with sLen := 0, sReq := 0 } else score i

/-- "Sort the score board", in as many passes as there are entries. -/
def sort (score : Fin boardSize → Score) : Except Fault (Fin boardSize → Score) := do
  let pass := (List.finRange boardSize).take (boardSize - 1)
  let sorted ← (List.range boardSize).foldlM (fun score _ => pass.foldlM sortStep score) score
  .ok (emptyTail sorted)

/-- "Score the number of requests for allocated memory sizes." -/
def countRequest (clicks : UInt32) (score : Fin boardSize → Score) :
    Nat → Option (Fin boardSize) → Except Fault (Fin boardSize → Score)
  | _, none => .ok score
  | 0, some _ => .error .endless
  | fuel + 1, some sp =>
    if clicks = (score sp).sLen ∨ (score sp).sLen = 0 then
      let score := Function.update score sp { score sp with sLen := clicks, sReq := (score sp).sReq + 1 }
      if threshold < (score sp).sReq then sort score else .ok score
    else countRequest clicks score fuel (score sp).sNext

/-- The first entry of the quick list that holds a block. -/
def takeQuick (quicklist : Fin listLength → QuickSlot) :
    Nat → Option (Fin listLength) → Except Fault (Option (Fin listLength))
  | _, none => .ok none
  | 0, some _ => .error .endless
  | fuel + 1, some qp =>
    if (quicklist qp).hBase ≠ 0 then .ok (some qp) else takeQuick quicklist fuel (quicklist qp).qNext

/-- "Go to first 0 entry": the loop goes on while `qp != NULL || qp->h_base != 0`. -/
def seekEmpty (quicklist : Fin listLength → QuickSlot) :
    Nat → Option (Fin listLength) → Except Fault (Option (Fin listLength))
  | _, none => .error .nullPointer
  | 0, some _ => .error .endless
  | fuel + 1, some qp => seekEmpty quicklist fuel (quicklist qp).qNext

/-- "Check if hole is quick list size and quicklist has free slots." Yields `new_qp`, which only
the second half of the condition assigns. -/
def claimSlot (x : Int32) (base clicks : UInt32) (s : Quick n) :
    Option (Option (Fin listLength)) × Quick n :=
  if clicks = x.toUInt32 then
    match s.freeQSlots with
    | some q => (some (some q), { s with
        quicklist := Function.update s.quicklist q { s.quicklist q with hBase := base }
        freeQSlots := (s.quicklist q).qNext })
    | none => (some none, s)
  else (none, s)

def freeMem (base clicks : UInt32) (s : Quick n) : Except Fault (Quick n) := do
  let x ← deref s.quickSize
  if clicks = 0 then .ok s
  else do
    let (newQp, s) := claimSlot x base clicks s
    match s.quickHead with
    | none => do
      let q ← readLocal newQp
      let q ← deref q
      .ok { s with
        quicklist := Function.update s.quicklist q { s.quicklist q with qNext := none }
        quickHead := some q }
    | some head => do
      match ← seekEmpty s.quicklist listLength (some head) with
      | some q =>
        .ok { s with quicklist := Function.update s.quicklist q { s.quicklist q with hBase := base } }
      | none => (TcpAndParallel.freeMem base clicks s.table).map fun t => { s with table := t }

/-- "If the requested size is equal to the quick list size, alocate memory from the quick
list." -/
def fromQuick (m : Minix) (x : Int32) (clicks : UInt32) (s : Quick n) : Except Fault (UInt32 × Quick n) :=
  if clicks = x.toUInt32 then do
    match ← takeQuick s.quicklist listLength s.quickHead with
    | some qp => .ok ((s.quicklist qp).hBase,
        { s with quicklist := Function.update s.quicklist qp { s.quicklist qp with hBase := 0 } })
    | none => .ok (m.noMem, s)
  else .ok (m.noMem, s)

/-- The hole list is only searched while `mem == NO_MEM`. -/
def fromHoles (m : Minix) (clicks memflags mem : UInt32) (s : Quick n) : Except Fault (UInt32 × Quick n) :=
  if mem = m.noMem then
    (FirstFit.takeFit m clicks memflags s.table).map fun (mem, t) => (mem, { s with table := t })
  else .ok (mem, s)

/-- The last part of `alloc_mem`, which gives back clicks with this file's `free_mem`. -/
def alignBlock (alignClicks mem : UInt32) (s : Quick n) : Except Fault (UInt32 × Quick n) :=
  if alignClicks ≠ 0 then
    let o := mem % alignClicks
    if 0 < o then
      let e := alignClicks - o
      (freeMem mem e s).map fun s => (mem + e, s)
    else .ok (mem, s)
  else .ok (mem, s)

def allocMem (m : Minix) (clicks memflags : UInt32) (s : Quick n) :
    Except Fault (UInt32 × Quick n) := do
  let x ← deref s.quickSize
  let score ← countRequest clicks s.score boardSize s.scoreHead
  let (mem, s) ← fromQuick m x clicks { s with score := score }
  let alignClicks := m.alignClicks memflags
  let (mem, s) ← fromHoles m (clicks + alignClicks) memflags mem s
  if mem = m.noMem then .ok (mem, s) else alignBlock alignClicks mem s

def emptied (n : Nat) (b : Build) : Quick n where
  table := Table.unused n
  quicklist _ := ⟨none, 0⟩
  quickHead := none
  freeQSlots := some ⟨0, by decide⟩
  score _ := ⟨none, 0, 0⟩
  scoreHead := none
  freeSSlots := some ⟨0, by decide⟩
  quickSize := b.quickSize
  sortAttempts := some 3

/-- The loop over the chunks, from the last to the first. -/
def freeChunks (n : Nat) (b : Build) (chunks : List Memory) : Except Fault (Quick n) :=
  chunks.foldr (fun c s => s >>= fun s => if 0 < c.size then freeMem c.base c.size s else .ok s)
    (.ok (emptied n b))

/-- `mem_init`. Each of the loops over `quicklist` and `score` compares `hp`, which has come to
the end of `hole`, with the end of its own array; it either stops at once or leaves the array. -/
def memInit (n : Nat) (b : Build) (chunks : List Memory) : Except Fault (Quick n) := do
  if b.belowQuicklist then .error .outOfBounds
  else do
    let _ ← deref b.sortAttempts
    if b.belowScore then .error .outOfBounds
    else freeChunks n b chunks

/-- The blocks on the quick list; an entry with base zero holds none. -/
def Quick.blocks (s : Quick n) : List Extent :=
  ((walk (fun i => (s.quicklist i).qNext) listLength s.quickHead).getD []).filterMap fun i =>
    if (s.quicklist i).hBase ≠ 0 then
      some ⟨(s.quicklist i).hBase.toNat, ((s.quickSize.getD 0).toUInt32).toNat⟩
    else none

structure QuickLedger (n : Nat) where
  quick : Quick n
  live : List Memory

def boot (n : Nat) (b : Build) (chunks : List Memory) : Except Fault (QuickLedger n) :=
  (memInit n b chunks).map fun s => ⟨s, []⟩

def serve (m : Minix) (s : QuickLedger n) : Request → Except Fault (QuickLedger n)
  | .alloc clicks memflags =>
    (allocMem m clicks memflags s.quick).map fun (mem, q) =>
      ⟨q, if mem = m.noMem then s.live else ⟨mem, clicks⟩ :: s.live⟩
  | .free base clicks =>
    (freeMem base clicks s.quick).map fun q => ⟨q, s.live.erase ⟨base, clicks⟩⟩

/-- Every click of the memory lies in one live block, one hole or one block of the quick list. -/
def Conserved (chunks : List Memory) (s : QuickLedger n) : Prop :=
  Tiles (s.quick.table.holes ++ s.quick.blocks ++ s.live.map Memory.extent) (chunks.map Memory.extent)

/-- `mem_init` and all requests after it return and conserve memory. -/
def Conserves (m : Minix) (b : Build) (n : Nat) (chunks : List Memory) (rs : List Request) : Prop :=
  ∃ s : QuickLedger n, boot n b chunks = .ok s ∧ Upholds (serve m) (Conserved chunks) s rs

/-- Nothing in the file assigns the two pointers. -/
def Build.asWritten (belowQuicklist belowScore : Bool) : Build :=
  ⟨belowQuicklist, belowScore, none, none⟩

def nonempty (chunks : List Memory) : List Memory := chunks.filter fun c => 0 < c.size

/-- The quick list is set up over no memory, or over one chunk of the quick size. -/
def Startable (b : Build) (chunks : List Memory) : Prop :=
  b.belowQuicklist = false ∧ b.belowScore = false ∧ b.sortAttempts ≠ none ∧
    (nonempty chunks = [] ∨
      ∃ c x, nonempty chunks = [c] ∧ b.quickSize = some x ∧
        c.size = x.toUInt32 ∧ c.base ≠ 0)

/-- Nothing is freed, and a request of the quick size does not have to realign its block. -/
def Harmless (m : Minix) (s : QuickLedger n) : Request → Prop
  | .alloc clicks memflags => ∃ x, s.quick.quickSize = some x ∧
    (clicks = x.toUInt32 → m.alignClicks memflags ≠ 0 →
      ∀ e ∈ s.quick.blocks, e.base % (m.alignClicks memflags).toNat = 0)
  | .free _ _ => False

theorem seekEmpty_faults (quicklist : Fin listLength → QuickSlot) (fuel : Nat)
    (p : Option (Fin listLength)) : ∃ fault, seekEmpty quicklist fuel p = .error fault := by
  induction fuel generalizing p with
  | zero => cases p <;> exact ⟨_, rfl⟩
  | succ fuel ih =>
    cases p with
    | none => exact ⟨_, rfl⟩
    | some q => exact ih (quicklist q).qNext

theorem claimSlot_quickHead (x : Int32) (base clicks : UInt32) (s : Quick n) :
    (claimSlot x base clicks s).2.quickHead = s.quickHead := by
  simp only [claimSlot]
  split
  · split <;> rfl
  · rfl

theorem freeMem_faults {base clicks : UInt32} {s : Quick n} {q : Fin listLength}
    (hq : s.quickHead = some q) (hc : clicks ≠ 0) : ∃ fault, freeMem base clicks s = .error fault := by
  cases hx : s.quickSize with
  | none => exact ⟨.nullPointer, by simp [freeMem, hx, deref, bind, Except.bind]⟩
  | some x =>
    obtain ⟨fault, hf⟩ := seekEmpty_faults (claimSlot x base clicks s).2.quicklist listLength (some q)
    have hhead := (claimSlot_quickHead x base clicks s).trans hq
    exact ⟨fault, by simp [freeMem, hx, deref, bind, Except.bind, hc, hhead, hf]⟩

structure Loaded (b : Build) (base : UInt32) (s : Quick n) : Prop where
  holeHead : s.table.holeHead = none
  scoreHead : s.scoreHead = none
  quickSize : s.quickSize = b.quickSize
  entry : ∃ q, s.quickHead = some q ∧ s.quicklist q = ⟨none, base⟩

/-- The first block goes on the quick list if it has the quick size; any other reads `new_qp`
unassigned. -/
theorem freeMem_emptied {b : Build} {base clicks : UInt32} (hc : clicks ≠ 0) :
    (∃ x s, b.quickSize = some x ∧ clicks = x.toUInt32 ∧
      freeMem base clicks (emptied n b) = .ok s ∧ Loaded b base s) ∨
    (∃ fault, freeMem base clicks (emptied n b) = .error fault) ∧
      ∀ x, b.quickSize = some x → clicks ≠ x.toUInt32 := by
  cases hx : b.quickSize with
  | none => exact .inr ⟨⟨.nullPointer, by simp [freeMem, emptied, hx, deref, bind, Except.bind]⟩, by simp⟩
  | some x =>
    by_cases he : clicks = x.toUInt32
    · refine .inl ⟨x, { emptied n b with
        quicklist := Function.update (fun _ => ⟨none, 0⟩) ⟨0, by decide⟩ ⟨none, base⟩
        quickHead := some ⟨0, by decide⟩
        freeQSlots := none }, rfl, he, ?_, ?_⟩
      · have hx0 : x.toUInt32 ≠ 0 := he ▸ hc
        simp [freeMem, claimSlot, emptied, hx, deref, bind, Except.bind, hx0, he, readLocal]
      · exact ⟨rfl, rfl, rfl, _, rfl, by simp⟩
    · refine .inr ⟨⟨.unset, ?_⟩, by simpa using he⟩
      simp [freeMem, claimSlot, emptied, hx, deref, bind, Except.bind, hc, he, readLocal]

theorem freeChunks_cons (b : Build) (c : Memory) (chunks : List Memory) :
    freeChunks n b (c :: chunks) = freeChunks n b chunks >>= fun s =>
      if 0 < c.size then freeMem c.base c.size s else .ok s := rfl

theorem freeChunks_cases (n : Nat) (b : Build) (chunks : List Memory) :
    (nonempty chunks = [] ∧ freeChunks n b chunks = .ok (emptied n b)) ∨
    (∃ c x s, nonempty chunks = [c] ∧ b.quickSize = some x ∧ c.size = x.toUInt32 ∧
      freeChunks n b chunks = .ok s ∧ Loaded b c.base s) ∨
    (∃ fault, freeChunks n b chunks = .error fault) ∧ nonempty chunks ≠ [] ∧
      ∀ c x, nonempty chunks = [c] → b.quickSize = some x → c.size ≠ x.toUInt32 := by
  induction chunks with
  | nil => exact .inl ⟨rfl, rfl⟩
  | cons c chunks ih =>
    rw [freeChunks_cons]
    by_cases hc : 0 < c.size
    · have hcons : nonempty (c :: chunks) = c :: nonempty chunks := by simp [nonempty, hc]
      have hne := UInt32.pos_iff_ne_zero.mp hc
      rw [hcons]
      rcases ih with ⟨hnil, he⟩ | ⟨d, x, s, hd, hx, -, he, hl⟩ | ⟨⟨fault, he⟩, hnil, -⟩
      · rw [he, hnil]
        rcases @freeMem_emptied n b c.base c.size hne with ⟨x, s, hx, hsize, hs, hl⟩ | ⟨⟨fault, hf⟩, hno⟩
        · exact .inr (.inl ⟨c, x, s, rfl, hx, hsize, by simp [bind, Except.bind, hc, hs], hl⟩)
        · refine .inr (.inr ⟨⟨fault, by simp [bind, Except.bind, hc, hf]⟩, by simp, ?_⟩)
          rintro d x hd hx
          obtain rfl : c = d := by simpa using hd
          exact hno x hx
      · obtain ⟨q, hq, -⟩ := hl.entry
        obtain ⟨fault, hf⟩ := @freeMem_faults n c.base c.size s q hq hne
        exact .inr (.inr ⟨⟨fault, by simp [he, bind, Except.bind, hc, hf]⟩, by simp, by simp [hd]⟩)
      · exact .inr (.inr ⟨⟨fault, by simp [he, bind, Except.bind]⟩, by simp, by simp [hnil]⟩)
    · have hcons : nonempty (c :: chunks) = nonempty chunks := by simp [nonempty, hc]
      have hsame : freeChunks n b chunks >>= (fun s =>
          if 0 < c.size then freeMem c.base c.size s else .ok s) = freeChunks n b chunks := by
        cases freeChunks n b chunks <;> simp [bind, Except.bind, hc]
      rw [hcons, hsame]
      exact ih

/-- How far a run can come: there is no memory, or it is one block of the quick size, which is
on the quick list or is handed out. -/
inductive Phase (b : Build) (chunks : List Memory) : QuickLedger n → Prop
  | bare {q : Quick n} (none : nonempty chunks = []) (holeHead : q.table.holeHead = .none)
      (scoreHead : q.scoreHead = .none) (quickSize : q.quickSize = b.quickSize)
      (quickHead : q.quickHead = .none) : Phase b chunks ⟨q, []⟩
  | stocked {q : Quick n} {c : Memory} {x : Int32} (one : nonempty chunks = [c])
      (quickSize : b.quickSize = some x) (size : c.size = x.toUInt32) (base : c.base ≠ 0)
      (loaded : Loaded b c.base q) : Phase b chunks ⟨q, []⟩
  | spent {q : Quick n} {c : Memory} {x : Int32} (one : nonempty chunks = [c])
      (quickSize : b.quickSize = some x) (size : c.size = x.toUInt32)
      (loaded : Loaded b 0 q) : Phase b chunks ⟨q, [c]⟩

theorem tally_nonempty (chunks : List Memory) (x : Nat) :
    tally (chunks.map Memory.extent) x = tally ((nonempty chunks).map Memory.extent) x := by
  induction chunks with
  | nil => rfl
  | cons c chunks ih =>
    by_cases hc : 0 < c.size
    · rw [List.map_cons, tally_cons, ih, show nonempty (c :: chunks) = c :: nonempty chunks by simp [nonempty, hc],
        List.map_cons, tally_cons]
    · have h0 : c.extent.len = 0 := by
        rw [UInt32.not_lt, UInt32.le_iff_toNat_le] at hc
        simpa [Memory.extent] using hc
      rw [List.map_cons, tally_cons_empty h0, ih,
        show nonempty (c :: chunks) = nonempty chunks by simp [nonempty, hc]]

theorem holes_of_none {t : Table n} (h : t.holeHead = none) : t.holes = [] := by
  cases n <;> simp [Table.holes, h, walk, Table.extents]

theorem blocks_of_none {s : Quick n} (h : s.quickHead = none) : s.blocks = [] := by
  simp [Quick.blocks, h, walk, listLength]

theorem Loaded.blocks {b : Build} {base : UInt32} {s : Quick n} (h : Loaded b base s) {x : Int32}
    (hx : b.quickSize = some x) :
    s.blocks = if base ≠ 0 then [⟨base.toNat, x.toUInt32.toNat⟩] else [] := by
  obtain ⟨q, hq, he⟩ := h.entry
  have hw : walk (fun i => (s.quicklist i).qNext) listLength s.quickHead = some [q] :=
    walk_eq_some_iff.mpr ⟨⟨hq, congrArg QuickSlot.qNext he⟩, Nat.le_add_left 1 2⟩
  have hsize := h.quickSize.trans hx
  by_cases hb : base = 0 <;> simp [Quick.blocks, hw, he, hsize, hb]

theorem Phase.conserved {b : Build} {chunks : List Memory} (hc : Chunks chunks) {s : QuickLedger n}
    (h : Phase b chunks s) : Conserved chunks s := by
  refine (tiles_iff_tally hc.apart).mpr fun x => ?_
  rw [tally_nonempty]
  cases h with
  | bare none holeHead _ _ quickHead => simp [none, holes_of_none holeHead, blocks_of_none quickHead]
  | stocked one quickSize size base loaded =>
    simp [one, holes_of_none loaded.holeHead, loaded.blocks quickSize, base, Memory.extent, size]
  | spent one quickSize size loaded =>
    simp [one, holes_of_none loaded.holeHead, loaded.blocks quickSize]

theorem takeFit_of_none {m : Minix} {clicks memflags : UInt32} {t : Table n} (h : t.holeHead = none) :
    FirstFit.takeFit m clicks memflags t = .ok (m.noMem, t) := by
  cases n <;> simp [FirstFit.takeFit, FirstFit.findFit, h, bind, Except.bind]

theorem allocMem_eq {m : Minix} {clicks memflags : UInt32} {s : Quick n} {x : Int32}
    (hx : s.quickSize = some x) (scoreHead : s.scoreHead = none) :
    allocMem m clicks memflags s = fromQuick m x clicks s >>= fun (mem, s) =>
      fromHoles m (clicks + m.alignClicks memflags) memflags mem s >>= fun (mem, s) =>
        if mem = m.noMem then .ok (mem, s) else alignBlock (m.alignClicks memflags) mem s := by
  simp only [allocMem, hx, deref, scoreHead, countRequest, bind, Except.bind]
  rw [← scoreHead, ← hx]

theorem allocMem_miss {m : Minix} {clicks memflags : UInt32} {s : Quick n} {x : Int32}
    (hx : s.quickSize = some x) (holeHead : s.table.holeHead = none) (scoreHead : s.scoreHead = none)
    (miss : clicks = x.toUInt32 → takeQuick s.quicklist listLength s.quickHead = .ok none) :
    allocMem m clicks memflags s = .ok (m.noMem, s) := by
  have hquick : fromQuick m x clicks s = .ok (m.noMem, s) := by
    rw [fromQuick]
    split
    next he => simp [miss he, bind, Except.bind]
    next => rfl
  rw [allocMem_eq hx scoreHead, hquick]
  simp [bind, Except.bind, fromHoles, takeFit_of_none holeHead, Except.map]

theorem allocMem_hit {m : Minix} {b : Build} {base : UInt32} {s : Quick n} {x : Int32} (memflags : UInt32)
    (h : Loaded b base s) (hx : b.quickSize = some x) (hbase : base ≠ 0) (hmem : base ≠ m.noMem) :
    (m.alignClicks memflags ≠ 0 ∧ base % m.alignClicks memflags ≠ 0 ∧
      ∃ fault, allocMem m x.toUInt32 memflags s = .error fault) ∨
    ((m.alignClicks memflags ≠ 0 → base % m.alignClicks memflags = 0) ∧
      ∃ s', allocMem m x.toUInt32 memflags s = .ok (base, s') ∧ Loaded b 0 s') := by
  obtain ⟨q, hq, he⟩ := h.entry
  have hfound : takeQuick s.quicklist listLength s.quickHead = .ok (some q) := by
    simp [takeQuick, hq, he, hbase, listLength]
  have hquick : fromQuick m x x.toUInt32 s = .ok (base,
      { s with quicklist := Function.update s.quicklist q ⟨none, 0⟩ }) := by
    simp [fromQuick, hfound, bind, Except.bind, he]
  have hrun : allocMem m x.toUInt32 memflags s = alignBlock (m.alignClicks memflags) base
      { s with quicklist := Function.update s.quicklist q ⟨none, 0⟩ } := by
    rw [allocMem_eq (h.quickSize.trans hx) h.scoreHead, hquick]
    simp [bind, Except.bind, fromHoles, hmem]
  have loaded : Loaded b 0 { s with quicklist := Function.update s.quicklist q ⟨none, 0⟩ } :=
    ⟨h.holeHead, h.scoreHead, h.quickSize, q, hq, by simp⟩
  by_cases hmis : m.alignClicks memflags ≠ 0 ∧ base % m.alignClicks memflags ≠ 0
  · obtain ⟨fault, hf⟩ := @freeMem_faults n base _
      { s with quicklist := Function.update s.quicklist q ⟨none, 0⟩ } q hq (gap_toNat hmis.1 base).2
    refine .inl ⟨hmis.1, hmis.2, fault, ?_⟩
    rw [hrun]
    simp [alignBlock, hmis.1, UInt32.pos_iff_ne_zero, hmis.2, hf, Except.map]
  · refine .inr ⟨fun ha => by_contra fun hm => hmis ⟨ha, hm⟩, _, ?_, loaded⟩
    rw [hrun]
    by_cases ha : m.alignClicks memflags = 0
    · simp [alignBlock, ha]
    · have h0 : base % m.alignClicks memflags = 0 := by_contra fun hm => hmis ⟨ha, hm⟩
      simp [alignBlock, h0]

theorem Phase.serve_cases {m : Minix} {b : Build} {chunks : List Memory}
    (sentinel : ∀ c ∈ chunks, m.noMem.toNat ∉ c.extent.units) {s : QuickLedger n} {r : Request}
    (h : Phase b chunks s) (owned : Owned s.live r) :
    (¬Harmless m s r ∧ ∃ fault, serve m s r = .error fault) ∨
    (Harmless m s r ∧ ∃ s', serve m s r = .ok s' ∧ Phase b chunks s') := by
  cases r with
  | free base clicks =>
    refine .inl ⟨id, ?_⟩
    cases h with
    | bare => simp [Owned] at owned
    | stocked => simp [Owned] at owned
    | @spent q c x one quickSize size loaded =>
      obtain rfl : ⟨base, clicks⟩ = c := by simpa [Owned] using owned
      have hm : ⟨base, clicks⟩ ∈ nonempty chunks := by simp [one]
      have hne : clicks ≠ 0 := by
        have := (List.mem_filter.mp hm).2
        simpa [UInt32.pos_iff_ne_zero] using this
      obtain ⟨p, hp, -⟩ := loaded.entry
      obtain ⟨fault, hf⟩ : ∃ fault, freeMem base clicks q = .error fault := freeMem_faults hp hne
      exact ⟨fault, by simp [serve, hf, Except.map]⟩
  | alloc clicks memflags =>
    cases h with
    | @bare q none holeHead scoreHead quickSize quickHead =>
      cases hx : q.quickSize with
      | none =>
        refine .inl ⟨by simp [Harmless, hx], .nullPointer, ?_⟩
        simp [serve, allocMem, hx, deref, bind, Except.bind, Except.map]
      | some x =>
        refine .inr ⟨⟨x, hx, fun _ _ => by simp [blocks_of_none quickHead]⟩, ⟨q, []⟩, ?_,
          .bare none holeHead scoreHead quickSize quickHead⟩
        rw [serve, allocMem_miss hx holeHead scoreHead fun _ => by simp [quickHead, takeQuick, listLength]]
        simp [Except.map]
    | @stocked q c x one quickSize size base loaded =>
      have hx := loaded.quickSize.trans quickSize
      have hblocks : q.blocks = [⟨c.base.toNat, x.toUInt32.toNat⟩] := by simp [loaded.blocks quickSize, base]
      have hmod : ∀ a : UInt32, c.base % a = 0 ↔ c.base.toNat % a.toNat = 0 := by
        intro a
        rw [← UInt32.toNat_inj, UInt32.toNat_mod, UInt32.toNat_zero]
      by_cases he : clicks = x.toUInt32
      · obtain rfl := he
        have hc : c ∈ nonempty chunks := by simp [one]
        obtain ⟨hm, hpos⟩ := List.mem_filter.mp hc
        have hmem : c.base ≠ m.noMem := by
          intro hb
          refine sentinel c hm (Extent.mem_units.mpr ⟨hb ▸ le_rfl, ?_⟩)
          have := UInt32.lt_iff_toNat_lt.mp (of_decide_eq_true hpos)
          simp only [Extent.stop, Memory.extent, ← hb]
          simp at this
          omega
        rcases allocMem_hit memflags loaded quickSize base hmem with
          ⟨ha, hmis, fault, hf⟩ | ⟨hal, q', hok, loaded'⟩
        · refine .inl ⟨?_, fault, by simp [serve, hf, Except.map]⟩
          rintro ⟨y, hy, hfit⟩
          obtain rfl : x = y := by simpa [hx] using hy
          exact hmis ((hmod _).mpr (hfit rfl ha ⟨_, _⟩ (hblocks ▸ List.mem_singleton_self _)))
        · refine .inr ⟨⟨x, hx, fun _ ha e hm => ?_⟩, ⟨q', [c]⟩, ?_, .spent one quickSize size loaded'⟩
          · rw [hblocks, List.mem_singleton] at hm
            exact hm ▸ (hmod _).mp (hal ha)
          · rw [← size] at hok ⊢
            simp [serve, hok, Except.map, hmem]
      · refine .inr ⟨⟨x, hx, fun hcl => absurd hcl he⟩, ⟨q, []⟩, ?_, .stocked one quickSize size base loaded⟩
        rw [serve, allocMem_miss hx loaded.holeHead loaded.scoreHead fun hcl => absurd hcl he]
        simp [Except.map]
    | @spent q c x one quickSize size loaded =>
      obtain ⟨p, hp, he⟩ := loaded.entry
      have hx := loaded.quickSize.trans quickSize
      refine .inr ⟨⟨x, hx, fun _ _ => by simp [loaded.blocks quickSize]⟩, ⟨q, [c]⟩, ?_,
        .spent one quickSize size loaded⟩
      rw [serve, allocMem_miss hx loaded.holeHead loaded.scoreHead fun _ => by
        simp [hp, takeQuick, listLength, he]]
      simp [Except.map]

theorem boot_eq {b : Build} {chunks : List Memory} (hq : b.belowQuicklist = false)
    (hs : b.belowScore = false) (ha : b.sortAttempts ≠ none) :
    boot n b chunks = (freeChunks n b chunks).map fun s => ⟨s, []⟩ := by
  obtain ⟨k, hk⟩ := Option.ne_none_iff_exists'.mp ha
  simp [boot, memInit, hq, hs, hk, deref, bind, Except.bind]

theorem boot_phase {b : Build} {chunks : List Memory} (h : Startable b chunks) :
    ∃ s : QuickLedger n, boot n b chunks = .ok s ∧ Phase b chunks s := by
  obtain ⟨hq, hs, ha, hcases⟩ := h
  rw [boot_eq hq hs ha]
  rcases freeChunks_cases n b chunks with ⟨hnil, he⟩ | ⟨c, x, s, hone, hx, hsize, he, hl⟩ | ⟨-, hne, hno⟩
  · exact ⟨⟨emptied n b, []⟩, by simp [he, Except.map], .bare hnil rfl rfl rfl rfl⟩
  · obtain ⟨d, -, hd, -, -, hbase⟩ := hcases.resolve_left (by simp [hone])
    obtain rfl : c = d := by simpa [hone] using hd
    exact ⟨⟨s, []⟩, by simp [he, Except.map], .stocked hone hx hsize hbase hl⟩
  · obtain ⟨c, x, hone, hx, hsize, -⟩ := hcases.resolve_left hne
    exact absurd hsize (hno c x hone hx)

theorem startable_of_boot {b : Build} {chunks : List Memory} (hc : Chunks chunks) {s : QuickLedger n}
    (he : boot n b chunks = .ok s) (conserved : Conserved chunks s) : Startable b chunks := by
  obtain ⟨hq, hs, ha⟩ : b.belowQuicklist = false ∧ b.belowScore = false ∧ b.sortAttempts ≠ none := by
    obtain ⟨bq, bs, size, attempts⟩ := b
    cases bq <;> cases attempts <;> cases bs <;>
      simp [boot, memInit, deref, bind, Except.bind, Except.map] at he ⊢
  refine ⟨hq, hs, ha, ?_⟩
  rw [boot_eq hq hs ha] at he
  rcases freeChunks_cases n b chunks with ⟨hnil, -⟩ | ⟨c, x, q, hone, hx, hsize, hf, hl⟩ | ⟨⟨fault, hf⟩, -⟩
  · exact .inl hnil
  · refine .inr ⟨c, x, hone, hx, hsize, fun h0 => ?_⟩
    obtain rfl : ⟨q, []⟩ = s := by simpa [hf, Except.map] using he
    have hcm : c ∈ nonempty chunks := by simp [hone]
    have hpos := UInt32.lt_iff_toNat_lt.mp (of_decide_eq_true (List.mem_filter.mp hcm).2)
    have htally := (tiles_iff_tally hc.apart).mp conserved c.base.toNat
    rw [tally_nonempty, hone] at htally
    have hunit : c.base.toNat ∈ c.extent.units := by
      refine Extent.mem_units.mpr ⟨le_rfl, ?_⟩
      simp only [Extent.stop, Memory.extent]
      simp at hpos
      omega
    simp [holes_of_none hl.holeHead, hl.blocks hx, h0, tally_cons] at htally hunit
    exact htally hunit
  · simp [hf, Except.map] at he

theorem conserves_never (belowQuicklist belowScore : Bool) (m : Minix) (n : Nat) (chunks : List Memory)
    (rs : List Request) : ¬Conserves m (.asWritten belowQuicklist belowScore) n chunks rs := by
  rintro ⟨s, hs, -⟩
  cases belowQuicklist <;>
    simp [boot, memInit, Build.asWritten, deref, bind, Except.bind, Except.map] at hs

/-- With the pointers as the file leaves them no run conserves memory. For any other contents of
the pointers, memory is conserved in the runs that never free and that find at most one chunk,
of the quick size. -/
theorem conserves_iff_harmless {m : Minix} {chunks : List Memory} (hc : Chunks chunks)
    (sentinel : ∀ c ∈ chunks, m.noMem.toNat ∉ c.extent.units) (rs : List Request) :
    (∀ belowQuicklist belowScore, ¬Conserves m (.asWritten belowQuicklist belowScore) n chunks rs) ∧
    ∀ b, (∀ s, boot n b chunks = .ok s → Meets (serve m) (fun s r => Owned s.live r) s rs) →
      (Conserves m b n chunks rs ↔ Startable b chunks ∧
        ∀ s : QuickLedger n, boot n b chunks = .ok s → Meets (serve m) (Harmless m) s rs) := by
  have keeps : ∀ b (s : QuickLedger n) r, Phase b chunks s → Owned s.live r → Harmless m s r →
      ∃ s', serve m s r = .ok s' ∧ Phase b chunks s' := fun b s r h owned harmless =>
    ((h.serve_cases sentinel owned).resolve_left fun hf => hf.1 harmless).2
  have only : ∀ b (s : QuickLedger n) r s', Phase b chunks s → Owned s.live r →
      serve m s r = .ok s' → Conserved chunks s' → Harmless m s r := by
    intro b s r s' h owned he _
    rcases h.serve_cases sentinel owned with ⟨-, fault, hf⟩ | ⟨harmless, -⟩
    · simp [he] at hf
    · exact harmless
  refine ⟨fun bq bs => conserves_never bq bs m n chunks rs, fun b owned => ⟨?_, ?_⟩⟩
  · rintro ⟨s, hs, conserved⟩
    have start := startable_of_boot hc hs conserved.head
    refine ⟨start, fun s' hs' => ?_⟩
    obtain ⟨s₀, hs₀, phase⟩ := boot_phase (n := n) start
    obtain rfl : s₀ = s := by simpa [hs₀] using hs
    obtain rfl : s₀ = s' := by simpa [hs₀] using hs'
    exact meets_of_upholds (keeps b) (only b) phase (owned s₀ hs₀) conserved
  · rintro ⟨start, harmless⟩
    obtain ⟨s, hs, phase⟩ := boot_phase (n := n) start
    exact ⟨s, hs, upholds_of_meets (fun _ h => h.conserved hc) (fun s r h hcond => keeps b s r h hcond.1 hcond.2)
      phase ((owned s hs).and (harmless s hs))⟩

theorem conserves_one_quick_block :
    Conserves pc ⟨false, false, some 8, some 0⟩ 512 [⟨16, 8⟩] [.alloc 8 0] := by
  obtain ⟨-, h⟩ := @conserves_iff_harmless 512 pc [⟨16, 8⟩] ⟨by simp, by decide⟩ (by decide) [.alloc 8 0]
  refine (h ⟨false, false, some 8, some 0⟩ fun _ _ => ⟨trivial, fun _ _ => trivial⟩).mpr
    ⟨⟨rfl, rfl, by simp, .inr ⟨⟨16, 8⟩, 8, rfl, rfl, rfl, by decide⟩⟩, fun s hs => ?_⟩
  obtain rfl := Except.ok.inj hs
  exact ⟨⟨8, rfl, by decide⟩, fun _ _ => trivial⟩

theorem memInit_null_pointer :
    memInit 512 (.asWritten false false) [⟨16, 8⟩] = .error .nullPointer ∧
      ¬Conserves pc (.asWritten false false) 512 [⟨16, 8⟩] [] := by
  refine ⟨rfl, ?_⟩
  rintro ⟨s, hs, -⟩
  exact absurd hs (by simp [boot, memInit, Build.asWritten, deref, bind, Except.bind, Except.map])

/-- With the pointers set, the block that was handed out cannot be freed. -/
example : (boot 512 ⟨false, false, some 8, some 0⟩ [⟨16, 8⟩] >>= fun s =>
    serve pc s (.alloc 8 0) >>= fun s =>
      serve pc s (.free 16 8)) = .error .nullPointer := by
  rfl

end QuickFit

end TcpAndParallel
