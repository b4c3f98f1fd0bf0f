import TcpAndParallel.PageLists

namespace TcpAndParallel

namespace Pages

variable {τ : Type*}

/-- The pool together with the lists that were handed out and not freed since. -/
structure Ledger (τ : Type*) where
  pool : Pool τ
  live : List (List MemBlock)
  deriving DecidableEq

inductive Request
  | alloc (bytes : Nat) (flags : MemFlags) (slab : List MemBlock → Bool)
  | free (list : List MemBlock)
  /-- The owner of a list yields its blocks, which `free_yielded` may free. -/
  | yield (list : List MemBlock)

def MemBlock.range (vm : Vm) (b : MemBlock) : PageRange := ⟨b.phys / vm.pageSize, b.length / vm.pageSize⟩

def serve (v : AddrAvl τ) (vm : Vm) (s : Ledger τ) : Request → Except Stop (Ledger τ)
  | .alloc bytes flags slab =>
    (allocMemInList v vm bytes flags slab s.pool).map fun (list, pool) =>
      ⟨pool, list.toList ++ s.live⟩
  | .free list =>
    ((freeMemList v vm true list s.pool.addravl).mapError Stop.failed).map fun t =>
      ⟨⟨t, s.pool.yielded⟩, s.live.erase list⟩
  | .yield list => .ok ⟨⟨s.pool.addravl, s.pool.yielded ++ list.map (MemBlock.range vm)⟩, s.live.erase list⟩

/-- Whole pages are asked for, and only lists that were handed out are given back. -/
def Lawful (vm : Vm) (s : Ledger τ) : Request → Prop
  | .alloc bytes _ _ => 0 < bytes ∧ bytes % vm.pageSize = 0
  | .free list => list ∈ s.live
  | .yield list => list ∈ s.live

instance (vm : Vm) (s : Ledger τ) : DecidablePred (Lawful vm s)
  | .alloc _ _ _ => inferInstanceAs (Decidable (_ ∧ _))
  | .free _ => inferInstanceAs (Decidable (_ ∈ _))
  | .yield _ => inferInstanceAs (Decidable (_ ∈ _))

/-- The calls of `mem_init` for its chunks, the last one first. -/
def memInit (v : AddrAvl τ) (chunks : List PageRange) : Except Fault τ :=
  freeAll v (chunks.filter fun c => 0 < c.size).reverse v.init

def boot (v : AddrAvl τ) (chunks : List PageRange) : Except Fault (Ledger τ) :=
  (memInit v chunks).map fun t => ⟨⟨t, []⟩, []⟩

/-- All pages that there are: free, yielded, or in a list that was handed out. -/
def Ledger.extents (v : AddrAvl τ) (vm : Vm) (s : Ledger τ) : List Extent :=
  s.live.flatten.map (MemBlock.extent vm) ++ s.pool.extents v

structure Ledger.Sound (v : AddrAvl τ) (vm : Vm) (chunks : List PageRange) (s : Ledger τ) : Prop where
  pool : s.pool.Sound v
  paged : ∀ list ∈ s.live, ∀ b ∈ list, Paged vm b
  same : ∀ x, tally (s.extents v vm) x = tally (chunks.map PageRange.extent) x

/-- The chunks are apart, and neither page 0 nor `NO_MEM` is in one. -/
structure Chunks (vm : Vm) (chunks : List PageRange) : Prop where
  apart : (chunks.map PageRange.extent).Pairwise fun a b => Disjoint a.units b.units
  zero : ∀ c ∈ chunks, 0 ∉ c.extent.units
  noMem : ∀ c ∈ chunks, vm.noMem ∉ c.extent.units

section Runs

variable {v : AddrAvl τ} {vm : Vm} {chunks : List PageRange} {s : Ledger τ}

theorem tally_zero {es : List Extent} {x : Nat} (h : ∀ e ∈ es, x ∉ e.units) : tally es x = 0 := by
  by_contra hne
  obtain ⟨e, he, hx⟩ := tally_pos_iff.mp (Nat.pos_of_ne_zero hne)
  exact h e he hx

/-- A list for all the bytes, of whole pages that were not in use, or nothing at all; and nothing
only if one block was asked for, or one below a boundary, or no node was to be had, or there are too
few pages. -/
inductive AllOrNothing (v : AddrAvl τ) (vm : Vm) (bytes : Nat) (flags : MemFlags)
    (slab : List MemBlock → Bool) (s s' : Ledger τ) : Prop
  | all (list : List MemBlock) (live : s'.live = list :: s.live)
      (paged : ∀ b ∈ list, Paged vm b) (size : (list.map MemBlock.length).sum = bytes)
      (one : flags.contig = true → flags.firstBlock = false → list.length = 1)
      (cut : unitsOf (s'.pool.extents v) =
        unitsOf (s.pool.extents v) \ unitsOf (list.map (MemBlock.extent vm)))
      (apart : (list.map (MemBlock.extent vm)).Pairwise fun a b => Disjoint a.units b.units)
      (unused : unitsOf (list.map (MemBlock.extent vm)) ⊆ unitsOf (s.pool.extents v))
  | nothing (live : s'.live = s.live)
      (same : unitsOf (s'.pool.extents v) = unitsOf (s.pool.extents v))
      (short : flags.contig = false → flags.lower16MB = false → flags.lower1MB = false → vm.Frees →
        (∀ list, slab list = true) → total (s.pool.extents v) * vm.pageSize < bytes)

theorem Ledger.Sound.reserved (h : s.Sound v vm chunks) {x : Nat} (hx : ∀ c ∈ chunks, x ∉ c.extent.units) :
    tally (s.pool.extents v) x = 0 := by
  have hsame := h.same x
  have hzero : tally (chunks.map PageRange.extent) x = 0 := tally_zero fun e he => by
    obtain ⟨c, hc, rfl⟩ := List.mem_map.mp he
    exact hx c hc
  rw [Ledger.extents, tally_append] at hsame
  omega

theorem serve_alloc (hv : v.Lawful) (hvm : vm.Sane) (hc : Chunks vm chunks) (h : s.Sound v vm chunks)
    {bytes : Nat} {flags : MemFlags} {slab : List MemBlock → Bool} (pos : 0 < bytes)
    (whole : bytes % vm.pageSize = 0) :
    ∃ s', serve v vm s (.alloc bytes flags slab) = .ok s' ∧ s'.Sound v vm chunks ∧
      AllOrNothing v vm bytes flags slab s s' := by
  have hone := apart_iff_tally_le_one.mp hc.apart
  obtain ⟨pages, rfl⟩ := Nat.dvd_of_mod_eq_zero whole
  have hpages : vm.pageSize * pages / vm.pageSize = pages := Nat.mul_div_cancel_left pages hvm.page
  have hpos : 0 < pages := Nat.pos_of_mul_pos_left pos
  generalize hflags : (if flags.contig then flags else { flags with firstBlock := true }) = flags'
  have noMem := h.reserved hc.noMem
  have apart : ∀ x, tally (([] : List MemBlock).map (MemBlock.extent vm) ++ s.pool.extents v) x ≤ 1 :=
    h.pool.apart
  obtain ⟨list, pool, hgather, sound, gathered⟩ :=
    gather_ok hv hvm flags' slab le_rfl hpos h.pool (by simp) noMem apart
  have hrun : ∀ ok : (∀ b ∈ list.getD [], b.phys ≠ 0 ∧ b.length ≠ 0),
      serve v vm s (.alloc (vm.pageSize * pages) flags slab) = .ok ⟨pool, list.toList ++ s.live⟩ := by
    intro ok
    rw [serve, allocMemInList, if_neg (not_not.mpr ⟨pos, whole⟩), hpages, hflags]
    dsimp only
    rw [hgather]
    exact congrArg (Except.map _) (if_pos ok)
  cases list with
  | none =>
    obtain ⟨same, short⟩ := gathered
    simp only [List.map_nil, List.nil_append] at same
    refine ⟨⟨pool, s.live⟩, hrun (by simp), ⟨sound, h.paged, fun x => ?_⟩, .nothing rfl ?_ ?_⟩
    · rw [← h.same x]
      simp only [Ledger.extents, tally_append, same]
    · ext x
      simp only [mem_unitsOf, same]
    · intro hcontig h16 h1 frees hslab
      obtain rfl : { flags with firstBlock := true } = flags' := by simpa [hcontig] using hflags
      have hlt := short rfl h16 h1 frees hslab
      rw [Nat.mul_comm]
      exact Nat.mul_lt_mul_of_pos_left hlt hvm.page
  | some list =>
    obtain ⟨new, hnew, hpaged, hsize, hsingle, hsame⟩ := gathered
    obtain rfl : list = new := by simpa using hnew
    have hsum : ∀ x, tally (list.map (MemBlock.extent vm)) x + tally (pool.extents v) x =
        tally (s.pool.extents v) x := fun x => by rw [← tally_append, hsame]
    have hle : ∀ x, tally (s.pool.extents v) x ≤ 1 := h.pool.apart
    have ok : ∀ b ∈ list, b.phys ≠ 0 ∧ b.length ≠ 0 := by
      intro b hb
      refine ⟨fun hzero => ?_, (hpaged b hb).pos.ne'⟩
      have hunits : 0 ∈ (b.extent vm).units := by
        have hlen := (hpaged b hb).extent_pos
        rw [Extent.mem_units, Extent.stop]
        simp only [MemBlock.extent, hzero, Nat.zero_div] at hlen ⊢
        omega
      have htally := one_le_tally (List.mem_map_of_mem hb) hunits
      have hreserved := h.reserved hc.zero
      have hx := hsum 0
      omega
    refine ⟨⟨pool, list :: s.live⟩, hrun ok, ⟨sound, ?_, fun x => ?_⟩, .all list rfl hpaged ?_ ?_ ?_ ?_ ?_⟩
    · intro l hl
      rcases List.mem_cons.mp hl with rfl | hl
      · exact hpaged
      · exact h.paged l hl
    · have hx := hsum x
      rw [← h.same x]
      simp only [Ledger.extents, List.flatten_cons, List.map_append, tally_append] at hx ⊢
      omega
    · rw [hsize, Nat.mul_comm]
    · intro hcontig hfirst
      obtain rfl : flags = flags' := by simpa [hcontig] using hflags
      exact hsingle hfirst
    · ext x
      have hx := hsum x
      have hone' := hle x
      change x ∈ unitsOf (pool.extents v) ↔ _
      rw [Set.mem_sdiff, mem_unitsOf, mem_unitsOf, mem_unitsOf]
      omega
    · exact apart_iff_tally_le_one.mpr fun x => by
        have hx := hsum x
        have hone' := hle x
        omega
    · intro x hx
      rw [mem_unitsOf] at hx ⊢
      have hx' := hsum x
      omega

theorem live_perm (vm : Vm) {live : List (List MemBlock)} {list : List MemBlock} (hl : list ∈ live) (x : Nat) :
    tally (live.flatten.map (MemBlock.extent vm)) x = tally (list.map (MemBlock.extent vm)) x +
      tally ((live.erase list).flatten.map (MemBlock.extent vm)) x := by
  rw [tally_perm ((List.perm_cons_erase hl).flatten.map (MemBlock.extent vm)), List.flatten_cons,
    List.map_append, tally_append]

theorem serve_free (hv : v.Lawful) (hc : Chunks vm chunks) (h : s.Sound v vm chunks) {list : List MemBlock}
    (hl : list ∈ s.live) :
    ∃ s', serve v vm s (.free list) = .ok s' ∧ s'.Sound v vm chunks ∧ s'.live = s.live.erase list ∧
      ∀ x, tally (s'.pool.extents v) x = tally (list.map (MemBlock.extent vm) ++ s.pool.extents v) x := by
  have hone := apart_iff_tally_le_one.mp hc.apart
  have apart : ∀ x, tally (list.map (MemBlock.extent vm) ++ s.pool.extents v) x ≤ 1 := fun x => by
    have hx := h.same x
    have hperm := live_perm vm hl x
    have hle := hone x
    rw [Ledger.extents, tally_append] at hx
    rw [tally_append]
    omega
  obtain ⟨t', ht', sound, same⟩ := freeMemList_ok hv (h.paged list hl) h.pool apart
  refine ⟨⟨⟨t', s.pool.yielded⟩, s.live.erase list⟩, ?_,
    ⟨sound, fun l hm => h.paged l (List.mem_of_mem_erase hm), fun x => ?_⟩, rfl, same⟩
  · rw [serve, ht']
    rfl
  · have hperm := live_perm vm hl x
    have hx := same x
    rw [← h.same x]
    simp only [Ledger.extents, tally_append] at hx ⊢
    omega

/-- What a request does to the sets of the pages that are not in use. -/
def Served (v : AddrAvl τ) (vm : Vm) (s : Ledger τ) (r : Request) (s' : Ledger τ) : Prop :=
  match r with
  | .alloc bytes flags slab => AllOrNothing v vm bytes flags slab s s'
  | .free list | .yield list => s'.live = s.live.erase list ∧
      unitsOf (s'.pool.extents v) = unitsOf (s.pool.extents v) ∪ unitsOf (list.map (MemBlock.extent vm))

/-- The free ranges are in order, none is empty and no two touch; they, the yielded blocks and the
lists that are out make up the chunks. -/
structure Whole (v : AddrAvl τ) (vm : Vm) (chunks : List PageRange) (s : Ledger τ) : Prop where
  spaced : Spaced (v.free s.pool.addravl)
  tiles : Tiles (s.extents v vm) (chunks.map PageRange.extent)

end Runs

end Pages

end TcpAndParallel
