import TcpAndParallel.Runs
import TcpAndParallel.BestFit

namespace TcpAndParallel

variable {n : Nat}

def Memory.extent (b : Memory) : Extent := ⟨b.base.toNat, b.size.toNat⟩

inductive Request
  | alloc (clicks memflags : UInt32)
  | free (base clicks : UInt32)
  deriving DecidableEq, Repr

/-- The table together with the blocks that were handed out and not freed since. -/
structure Ledger (n : Nat) where
  table : Table n
  live : List Memory

/-- One call. `NO_MEM` in place of an address means that nothing was handed out. -/
def serve (m : Minix) (allocMem : UInt32 → UInt32 → Table n → Except Fault (UInt32 × Table n))
    (s : Ledger n) : Request → Except Fault (Ledger n)
  | .alloc clicks memflags =>
    (allocMem clicks memflags s.table).map fun (mem, t) =>
      ⟨t, if mem = m.noMem then s.live else ⟨mem, clicks⟩ :: s.live⟩
  | .free base clicks =>
    (freeMem base clicks s.table).map fun t => ⟨t, s.live.erase ⟨base, clicks⟩⟩

/-- Only blocks that are handed out are freed, with the base and length they were handed
out with. -/
def Owned (live : List Memory) : Request → Prop
  | .alloc _ _ => True
  | .free base clicks => ⟨base, clicks⟩ ∈ live

instance (live : List Memory) : DecidablePred (Owned live)
  | .alloc _ _ => inferInstanceAs (Decidable True)
  | .free base clicks => inferInstanceAs (Decidable (⟨base, clicks⟩ ∈ live))

/-- A request of a run: the caller owns what it frees, and the call does not run out of slots. -/
def Lawful (m : Minix) (allocMem : UInt32 → UInt32 → Table n → Except Fault (UInt32 × Table n))
    (s : Ledger n) (r : Request) : Prop :=
  Owned s.live r ∧ serve m allocMem s r ≠ .error .tableFull

instance (m : Minix) (allocMem : UInt32 → UInt32 → Table n → Except Fault (UInt32 × Table n))
    (s : Ledger n) (r : Request) : Decidable (Lawful m allocMem s r) :=
  inferInstanceAs (Decidable (Owned s.live r ∧ ¬serve m allocMem s r = .error .tableFull))

structure Chunks (chunks : List Memory) : Prop where
  apart : (chunks.map Memory.extent).Pairwise (fun a b => Disjoint a.units b.units)
  stop : ∀ c ∈ chunks, c.extent.stop < 2 ^ 32

def boot (n : Nat) (chunks : List Memory) : Except Fault (Ledger n) :=
  (memInit n chunks).map fun t => ⟨t, []⟩

theorem memInit_cons (n : Nat) (c : Memory) (chunks : List Memory) :
    memInit n (c :: chunks) = memInit n chunks >>= fun t =>
      if 0 < c.size then freeMem c.base c.size t else .ok t := rfl

/-- The size test only saves the call, as `free_mem` returns at once for no clicks. -/
theorem memInit_free (c : Memory) (t : Table n) :
    (if 0 < c.size then freeMem c.base c.size t else .ok t) = freeMem c.base c.size t := by
  by_cases h : c.size = 0
  · simp [h, freeMem]
  · rw [if_pos (UInt32.pos_iff_ne_zero.mpr h)]

theorem memInit_spec {chunks : List Memory} (hc : Chunks chunks)
    (room : memInit n chunks ≠ .error .tableFull) :
    ∃ t hs fs, memInit n chunks = .ok t ∧ Threads t hs fs ∧ t.Below hs ∧
      (∀ x, tally (t.extents hs) x = tally (chunks.map Memory.extent) x) ∧
      Spaced (t.extents hs) := by
  induction chunks with
  | nil => exact ⟨_, [], _, rfl, unused_threads n, by simp [Table.Below], fun _ => rfl, spaced_nil⟩
  | cons c chunks ih =>
    have hc' : Chunks chunks := ⟨(List.pairwise_cons.mp hc.apart).2, fun d hd => hc.stop d (by simp [hd])⟩
    have room' : memInit n chunks ≠ .error .tableFull := by
      intro he
      exact room (by rw [memInit_cons, he]; rfl)
    obtain ⟨t, hs, fs, ht, hth, below, htally, hsp⟩ := ih hc' room'
    have step : memInit n (c :: chunks) = freeMem c.base c.size t := by
      rw [memInit_cons, ht]
      exact memInit_free c t
    have both : ∀ x, tally (c.extent :: t.extents hs) x = tally ((c :: chunks).map Memory.extent) x := by
      intro x
      rw [tally_cons, htally x, List.map_cons, tally_cons]
    obtain ⟨t', hs', fs', ht', hth', below', htally', hsp', -⟩ := freeMem_keeps hth below
      (hc.stop c (by simp)) (step ▸ room)
    refine ⟨t', hs', fs', step.trans ht', hth', below', fun x => (htally' x).trans (both x), hsp' hsp ?_⟩
    intro x
    rw [show (⟨c.base.toNat, c.size.toNat⟩ : Extent) = c.extent from rfl, both x]
    exact apart_iff_tally_le_one.mp hc.apart x

def Ledger.extents (s : Ledger n) : List Extent := s.table.holes ++ s.live.map Memory.extent

structure Ledger.Sound (s : Ledger n) : Prop where
  threads : ∃ hs fs, Threads s.table hs fs
  stop : ∀ e ∈ s.extents, e.stop < 2 ^ 32

theorem Ledger.Sound.below {s : Ledger n} (h : s.Sound) {hs fs : List (Fin n)}
    (hth : Threads s.table hs fs) : s.table.Below hs := by
  intro i hi
  refine h.stop _ (List.mem_append_left _ ?_)
  rw [hth.holes_eq]
  exact List.mem_map_of_mem hi

theorem boot_spec {chunks : List Memory} (hc : Chunks chunks)
    (room : memInit n chunks ≠ .error .tableFull) :
    ∃ s, boot n chunks = .ok s ∧ s.Sound ∧ Spaced s.table.holes ∧
      ∀ x, tally s.extents x = tally (chunks.map Memory.extent) x := by
  obtain ⟨t, hs, fs, ht, hth, below, htally, hsp⟩ := memInit_spec hc room
  have hext : (⟨t, []⟩ : Ledger n).extents = t.extents hs := by
    simp [Ledger.extents, hth.holes_eq]
  refine ⟨⟨t, []⟩, by rw [boot, ht]; rfl, ⟨⟨hs, fs, hth⟩, ?_⟩, hth.holes_eq ▸ hsp, ?_⟩
  · rw [hext]
    exact below.extents_stop
  · rw [hext]
    exact htally

theorem serve_free {m : Minix} {alloc : UInt32 → UInt32 → Table n → Except Fault (UInt32 × Table n)}
    {s : Ledger n} {base clicks : UInt32} (h : s.Sound)
    (lawful : Lawful m alloc s (.free base clicks)) :
    ∃ s', serve m alloc s (.free base clicks) = .ok s' ∧ s'.Sound ∧
      (∀ x, tally s'.extents x = tally s.extents x) ∧
      (Spaced s.table.holes → (∀ x, tally s.extents x ≤ 1) → Spaced s'.table.holes) := by
  obtain ⟨owned, room⟩ := lawful
  have hm : ⟨base, clicks⟩ ∈ s.live := owned
  obtain ⟨hs, fs, hth⟩ := h.threads
  have hroom : freeMem base clicks s.table ≠ .error .tableFull := by
    intro he
    exact room (by rw [serve, he]; rfl)
  have hb : (⟨base.toNat, clicks.toNat⟩ : Extent).stop < 2 ^ 32 :=
    h.stop _ (List.mem_append_right _ (List.mem_map_of_mem hm))
  obtain ⟨t', hs', fs', ht, hth', below', htally, hsp, -⟩ :=
    freeMem_keeps hth (h.below hth) hb hroom
  have hperm : (s.live.map Memory.extent).Perm
      (⟨base.toNat, clicks.toNat⟩ :: (s.live.erase ⟨base, clicks⟩).map Memory.extent) :=
    (List.perm_cons_erase hm).map Memory.extent
  refine ⟨⟨t', s.live.erase ⟨base, clicks⟩⟩, by rw [serve, ht]; rfl, ⟨⟨hs', fs', hth'⟩, ?_⟩, ?_, ?_⟩
  · intro e he
    rcases List.mem_append.mp he with he | he
    · rw [hth'.holes_eq] at he
      exact below'.extents_stop e he
    · refine h.stop e (List.mem_append_right _ ?_)
      exact List.map_subset _ List.erase_subset he
  · intro x
    simp only [Ledger.extents, hth'.holes_eq, hth.holes_eq, tally_append, htally x, tally_perm hperm x,
      tally_cons]
    omega
  · intro hspaced hone
    rw [hth.holes_eq] at hspaced
    rw [hth'.holes_eq]
    refine hsp hspaced fun x => ?_
    have hx := hone x
    simp only [Ledger.extents, hth.holes_eq, tally_append, tally_perm hperm x, tally_cons] at hx
    rw [tally_cons]
    omega

end TcpAndParallel
