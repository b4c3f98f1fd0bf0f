import TcpAndParallel.PageAlloc

namespace TcpAndParallel

namespace Pages

variable {τ : Type*}

/-- `struct memlist` without its `next`. -/
structure MemBlock where
  phys : Nat
  length : Nat
  deriving DecidableEq, Repr

/-- The free pages, and the blocks that were yielded and can be taken back. -/
structure Pool (τ : Type*) where
  addravl : τ
  yielded : List PageRange
  deriving DecidableEq

/-- The ways in which a function with a loop does not return. -/
inductive Stop
  | failed (f : Fault)
  /-- The loop has not ended in the given number of rounds. -/
  | unfinished
  deriving DecidableEq, Repr

section Functions

variable (v : AddrAvl τ) (vm : Vm)

def freeAll (rs : List PageRange) (t : τ) : Except Fault τ :=
  rs.foldlM (fun t r => freePages v r.addr r.size t) t

/-- `free_yielded` with the bytes it has freed. -/
def freeYielded (bytes : Nat) (s : Pool τ) : Except Fault (Nat × Pool τ) :=
  (freeAll v (vm.freeYielded bytes s.yielded).1 s.addravl).map fun t =>
    (((vm.freeYielded bytes s.yielded).1.map PageRange.size).sum * vm.pageSize,
      ⟨t, (vm.freeYielded bytes s.yielded).2⟩)

/-- The inner loop of `alloc_mem_in_list`: as long as nothing is found and yielded blocks can be
freed, try again. -/
def tryPages (pages : Nat) (flags : MemFlags) : Nat → Pool τ → Except Stop (Nat × Nat × Pool τ)
  | 0, _ => .error .unfinished
  | n + 1, s =>
    (allocPages v vm pages flags s.addravl).mapError Stop.failed >>= fun (mem, got, t) =>
      if mem ≠ vm.noMem then .ok (mem, got, ⟨t, s.yielded⟩)
      else (freeYielded v vm (pages * vm.pageSize) ⟨t, s.yielded⟩).mapError Stop.failed >>=
        fun (freed, s) =>
          if 0 < freed then tryPages pages flags n s else .ok (mem, got, s)

/-- `free_mem_list`; the pages stay in use unless `all` is set. -/
def freeMemList (all : Bool) (list : List MemBlock) (t : τ) : Except Fault τ :=
  list.foldlM (fun t b =>
    if b.phys % vm.pageSize = 0 ∧ b.length % vm.pageSize = 0 then
      if all then freePages v (b.phys / vm.pageSize) (b.length / vm.pageSize) t else .ok t
    else .error .assertion) t

/-- `free_mem_list(head, 1)` and the end of `alloc_mem_in_list` without a list. -/
def giveUp (head : List MemBlock) (s : Pool τ) : Except Stop (Option (List MemBlock) × Pool τ) :=
  ((freeMemList v vm true head s.addravl).mapError Stop.failed).map fun t => (none, ⟨t, s.yielded⟩)

/-- The outer loop of `alloc_mem_in_list`. `slab` tells whether `SLABALLOC` yields a node for the next
block of the list. -/
def gather (flags : MemFlags) (slab : List MemBlock → Bool) :
    Nat → Nat → List MemBlock → Pool τ → Except Stop (Option (List MemBlock) × Pool τ)
  | 0, _, _, _ => .error .unfinished
  | n + 1, rempages, head, s =>
    tryPages v vm rempages flags (s.yielded.length + 1) s >>= fun (mem, gotpages, s) =>
      if mem = vm.noMem then giveUp v vm head s
      else if ¬(gotpages ≤ rempages ∧ 0 < gotpages) then .error (.failed .assertion)
      else if slab head then
        if 0 < rempages - gotpages then
          gather flags slab n (rempages - gotpages)
            (⟨mem * vm.clickSize, gotpages * vm.clickSize⟩ :: head) s
        else .ok (some (⟨mem * vm.clickSize, gotpages * vm.clickSize⟩ :: head), s)
      else giveUp v vm head s >>= fun (list, s) =>
        ((freePages v mem gotpages s.addravl).mapError Stop.failed).map fun t => (list, ⟨t, s.yielded⟩)

def allocMemInList (bytes : Nat) (flags : MemFlags) (slab : List MemBlock → Bool) (s : Pool τ) :
    Except Stop (Option (List MemBlock) × Pool τ) :=
  if ¬(0 < bytes ∧ bytes % vm.pageSize = 0) then .error (.failed .assertion)
  else
    let flags := if flags.contig then flags else { flags with firstBlock := true }
    gather v vm flags slab (bytes / vm.pageSize) (bytes / vm.pageSize) [] s >>= fun (list, s) =>
      if ∀ b ∈ list.getD [], b.phys ≠ 0 ∧ b.length ≠ 0 then .ok (list, s)
      else .error (.failed .assertion)

end Functions

def MemBlock.extent (vm : Vm) (b : MemBlock) : Extent := ⟨b.phys / vm.pageSize, b.length / vm.pageSize⟩

/-- The blocks whose pages are not in use. -/
def Pool.extents (v : AddrAvl τ) (s : Pool τ) : List Extent :=
  v.free s.addravl ++ s.yielded.map PageRange.extent

structure Pool.Sound (v : AddrAvl τ) (s : Pool τ) : Prop where
  spaced : Spaced (v.free s.addravl)
  filled : ∀ r ∈ s.yielded, 0 < r.size
  apart : ∀ x, tally (s.extents v) x ≤ 1

/-- What is relied on outside of alloc.c. -/
structure Vm.Sane (vm : Vm) : Prop where
  page : 0 < vm.pageSize
  click : vm.clickSize = vm.pageSize
  memset : ∀ a b, vm.sysMemset a b = 0
  yielded : ∀ bytes rs, ((vm.freeYielded bytes rs).1 ++ (vm.freeYielded bytes rs).2).Perm rs

section Specs

variable {v : AddrAvl τ} {vm : Vm} {s : Pool τ} {t : τ}

theorem freePages_tally (hv : v.Lawful) (hs : Spaced (v.free t)) {e : Extent} (pos : 0 < e.len)
    (away : ∀ x, tally (e :: v.free t) x ≤ 1) :
    ∃ t', freePages v e.base e.len t = .ok t' ∧ Spaced (v.free t') ∧
      ∀ x, tally (v.free t') x = tally (e :: v.free t) x := by
  have apart := disjoint_of_tally_le_one away
  obtain ⟨t', ht, hfree⟩ := freePages_ok hv hs pos apart
  refine ⟨t', ht, ?_, fun x => ?_⟩
  · rw [hfree]
    exact release_spaced pos apart hs
  · rw [hfree]
    exact tally_release _ _ x

theorem free_loop (hv : v.Lawful) {α : Type*} {body : τ → α → Except Fault τ} {extent : α → Extent}
    {items : List α} (hbody : ∀ t a, a ∈ items → body t a = freePages v (extent a).base (extent a).len t)
    (filled : ∀ a ∈ items, 0 < (extent a).len) (hs : Spaced (v.free t))
    (apart : ∀ x, tally (items.map extent ++ v.free t) x ≤ 1) :
    ∃ t', items.foldlM body t = .ok t' ∧ Spaced (v.free t') ∧
      ∀ x, tally (v.free t') x = tally (items.map extent ++ v.free t) x := by
  induction items generalizing t with
  | nil => exact ⟨t, rfl, hs, fun x => rfl⟩
  | cons a items ih =>
    have hfirst : ∀ x, tally (extent a :: v.free t) x ≤ 1 := fun x => by
      have hx := apart x
      simp only [List.map_cons, List.cons_append, tally_cons, tally_append] at hx ⊢
      omega
    obtain ⟨t₁, ht₁, hs₁, htally₁⟩ := freePages_tally hv hs (filled a (by simp)) hfirst
    have hsum : ∀ x, tally (items.map extent ++ v.free t₁) x =
        tally ((a :: items).map extent ++ v.free t) x := fun x => by
      simp only [List.map_cons, List.cons_append, tally_append, htally₁, tally_cons]
      omega
    obtain ⟨t', ht', hs', htally'⟩ := ih (fun t b hb => hbody t b (by simp [hb]))
      (fun b hb => filled b (by simp [hb])) hs₁ fun x => (hsum x).trans_le (apart x)
    refine ⟨t', ?_, hs', fun x => (htally' x).trans (hsum x)⟩
    rw [List.foldlM_cons, hbody t a (by simp), ht₁]
    exact ht'

/-- What stays as it is when pages go from the yielded blocks to the tree. -/
structure Moved (v : AddrAvl τ) (s s' : Pool τ) : Prop where
  sound : s'.Sound v
  same : ∀ x, tally (s'.extents v) x = tally (s.extents v) x

theorem freeYielded_ok (hv : v.Lawful) (hvm : vm.Sane) (hs : s.Sound v) (bytes : Nat) :
    ∃ freed s', freeYielded v vm bytes s = .ok (freed, s') ∧ Moved v s s' ∧
      s'.yielded = (vm.freeYielded bytes s.yielded).2 ∧
      (0 < freed ↔ (vm.freeYielded bytes s.yielded).1 ≠ []) ∧
      ((vm.freeYielded bytes s.yielded).1 = [] → s'.addravl = s.addravl) := by
  have hperm := hvm.yielded bytes s.yielded
  obtain ⟨gone, hgone⟩ : ∃ gone, (vm.freeYielded bytes s.yielded).1 = gone := ⟨_, rfl⟩
  obtain ⟨kept, hkept⟩ : ∃ kept, (vm.freeYielded bytes s.yielded).2 = kept := ⟨_, rfl⟩
  rw [hgone, hkept] at hperm
  have hyielded : ∀ x, tally (s.yielded.map PageRange.extent) x =
      tally (gone.map PageRange.extent) x + tally (kept.map PageRange.extent) x := fun x => by
    rw [← tally_perm (hperm.map PageRange.extent), List.map_append, tally_append]
  have filled : ∀ r ∈ gone ++ kept, 0 < r.size := fun r hr => hs.filled r (hperm.mem_iff.mp hr)
  have apart : ∀ x, tally (gone.map PageRange.extent ++ v.free s.addravl) x ≤ 1 := fun x => by
    have hx := hs.apart x
    rw [Pool.extents, tally_append, hyielded] at hx
    rw [tally_append]
    omega
  have hloop : ∃ t', freeAll v gone s.addravl = .ok t' ∧ Spaced (v.free t') ∧
      ∀ x, tally (v.free t') x = tally (gone.map PageRange.extent ++ v.free s.addravl) x :=
    free_loop hv (fun _ _ _ => rfl) (fun r hr => filled r (by simp [hr])) hs.spaced apart
  obtain ⟨t', ht', spaced, htally⟩ := hloop
  have same : ∀ x, tally ((⟨t', kept⟩ : Pool τ).extents v) x = tally (s.extents v) x := fun x => by
    simp only [Pool.extents, tally_append, htally, hyielded]
    omega
  refine ⟨(gone.map PageRange.size).sum * vm.pageSize, ⟨t', kept⟩, ?_, ⟨⟨spaced, fun r hr => filled r
    (by simp [hr]), fun x => (same x).trans_le (hs.apart x)⟩, same⟩, hkept.symm, ?_, fun hnil => ?_⟩
  · rw [freeYielded, hgone, ht', hkept]
    rfl
  · rw [hgone]
    cases gone with
    | nil => simp
    | cons r gone =>
      have hpos := filled r (by simp)
      have hpage := hvm.page
      simp only [List.map_cons, List.sum_cons, ne_eq, reduceCtorEq, not_false_eq_true, iff_true]
      exact Nat.mul_pos (by omega) hpage
  · obtain rfl : gone = [] := hgone.symm.trans hnil
    exact (Except.ok.inj ht').symm

/-- `free_yielded` frees something if there is anything. -/
def Vm.Frees (vm : Vm) : Prop := ∀ bytes rs, 0 < bytes → rs ≠ [] → (vm.freeYielded bytes rs).1 ≠ []

/-- Some pages have gone from the pool. -/
structure Cut (v : AddrAvl τ) (s s' : Pool τ) (mem got : Nat) : Prop where
  sound : s'.Sound v
  pos : 0 < got
  same : ∀ x, tally (⟨mem, got⟩ :: s'.extents v) x = tally (s.extents v) x

theorem Granted.cut (hs : s.Sound v) {t' : τ} {pre post : List PageRange} {pr : PageRange} {mem got : Nat}
    (h : Granted v s.addravl t' pre pr post mem got) : Cut v s ⟨t', s.yielded⟩ mem got := by
  have hfree : v.free s.addravl = pre.map PageRange.extent ++ pr.extent :: post.map PageRange.extent := by
    rw [AddrAvl.free, h.nodes, List.map_append, List.map_cons]
  have same : ∀ x, tally (⟨mem, got⟩ :: v.free t') x = tally (v.free s.addravl) x := fun x => by
    have hmem : mem = pr.extent.stop - got := h.start
    rw [hmem, h.free, hfree]
    exact tally_trim _ _ h.fits x
  have total : ∀ x, tally (⟨mem, got⟩ :: (⟨t', s.yielded⟩ : Pool τ).extents v) x = tally (s.extents v) x :=
    fun x => by
      have hx := same x
      rw [tally_cons] at hx
      simp only [Pool.extents, tally_cons, tally_append] at hx ⊢
      omega
  refine ⟨⟨?_, hs.filled, fun x => ?_⟩, h.pos, total⟩
  · rw [h.free]
    exact trim_spaced (hfree ▸ hs.spaced) h.fits
  · have hx := total x
    have hone := hs.apart x
    rw [tally_cons] at hx
    omega

theorem Moved.trans {s₁ s₂ s₃ : Pool τ} (h : Moved v s₁ s₂) (h' : Moved v s₂ s₃) : Moved v s₁ s₃ :=
  ⟨h'.sound, fun x => (h'.same x).trans (h.same x)⟩

theorem Moved.cut {s₁ s₂ s₃ : Pool τ} {mem got : Nat} (h : Moved v s₁ s₂) (h' : Cut v s₂ s₃ mem got) :
    Cut v s₁ s₃ mem got :=
  ⟨h'.sound, h'.pos, fun x => (h'.same x).trans (h.same x)⟩

theorem Cut.ne_noMem {s' : Pool τ} {mem got : Nat} (h : Cut v s s' mem got) {b : Nat}
    (hb : tally (s.extents v) b = 0) : mem ≠ b := by
  rintro rfl
  have hx := h.same mem
  have hmem : mem ∈ (⟨mem, got⟩ : Extent).units :=
    Extent.mem_units.mpr ⟨le_rfl, Nat.lt_add_of_pos_right h.pos⟩
  rw [tally_cons, if_pos hmem] at hx
  omega

/-- The pool has nothing more to give to a caller that takes any block. -/
def Empties (v : AddrAvl τ) (vm : Vm) (flags : MemFlags) (s : Pool τ) : Prop :=
  flags.firstBlock = true → flags.lower16MB = false → flags.lower1MB = false → vm.Frees → s.extents v = []

theorem tryPages_ok (hv : v.Lawful) (hvm : vm.Sane) {pages : Nat} (flags : MemFlags) (pos : 0 < pages)
    {n : Nat} (hs : s.Sound v) (hn : s.yielded.length < n) (sentinel : tally (s.extents v) vm.noMem = 0) :
    ∃ mem got s', tryPages v vm pages flags n s = .ok (mem, got, s') ∧
      (mem = vm.noMem ∧ Moved v s s' ∧ Empties v vm flags s' ∨
        mem ≠ vm.noMem ∧ Cut v s s' mem got ∧ got ≤ pages ∧ (flags.firstBlock = false → got = pages)) := by
  induction n generalizing s with
  | zero => omega
  | succ n ih =>
    rcases allocPages_cases hv hvm.memset flags hs.spaced pos with
      ⟨halloc, why⟩ | ⟨pre, pr, post, mem, got, t', halloc, granted, hgot, hfit, -, -⟩
    · obtain ⟨freed, s', hfreed, moved, hkept, hiff, hstay⟩ :=
        freeYielded_ok hv hvm hs (pages * vm.pageSize)
      have hrun : tryPages v vm pages flags (n + 1) s =
          if 0 < freed then tryPages v vm pages flags n s' else .ok (vm.noMem, 0, s') := by
        have hfreed' : freeYielded v vm (pages * vm.pageSize) ⟨s.addravl, s.yielded⟩ = .ok (freed, s') := hfreed
        rw [tryPages, halloc]
        refine (if_neg (not_not.mpr rfl)).trans ?_
        rw [hfreed']
        rfl
      by_cases hpos : 0 < freed
      · have hshort : s'.yielded.length < n := by
          have hperm := (hvm.yielded (pages * vm.pageSize) s.yielded).length_eq
          have hgone := List.length_pos_iff.mpr (hiff.mp hpos)
          rw [List.length_append] at hperm
          rw [hkept]
          omega
        obtain ⟨mem, got, s'', he, ⟨hmem, moved', hempty⟩ | ⟨hmem, cut, hle, hall⟩⟩ :=
          ih moved.sound hshort ((moved.same _).trans sentinel)
        · exact ⟨mem, got, s'', hrun.trans ((if_pos hpos).trans he), .inl ⟨hmem, moved.trans moved', hempty⟩⟩
        · exact ⟨mem, got, s'', hrun.trans ((if_pos hpos).trans he), .inr ⟨hmem, moved.cut cut, hle, hall⟩⟩
      · refine ⟨_, _, s', hrun.trans (if_neg hpos), .inl ⟨rfl, moved, fun hfirst h16 h1 frees => ?_⟩⟩
        have hgone : (vm.freeYielded (pages * vm.pageSize) s.yielded).1 = [] := by
          by_contra hne
          exact hpos (hiff.mpr hne)
        have hyielded : s.yielded = [] := by
          by_contra hne
          exact frees _ _ (Nat.mul_pos pos hvm.page) hne hgone
        have hkeptnil : s'.yielded = [] := by
          have hperm := hvm.yielded (pages * vm.pageSize) s.yielded
          rw [hgone, hyielded] at hperm
          rw [hkept, hyielded]
          exact List.perm_nil.mp hperm
        have hnodes : v.nodes s.addravl = [] := by
          rcases why with small | ⟨-, pr, -, -, -, -, hb⟩
          · refine List.eq_nil_iff_forall_not_mem.mpr fun r hr => ?_
            exact absurd ((small r hr).2.symm.trans hfirst) (by decide)
          · simp [beyond, h16, h1] at hb
        rw [Pool.extents, hkeptnil, hstay hgone, AddrAvl.free, hnodes]
        rfl
    · have cut := granted.cut hs
      have hne := cut.ne_noMem sentinel
      refine ⟨mem, got, ⟨t', s.yielded⟩, ?_, .inr ⟨hne, cut, by omega, fun hfirst => ?_⟩⟩
      · simp only [tryPages, halloc]
        exact if_pos hne
      · have hle : pages ≤ pr.size := by simpa [hfirst] using hfit
        omega

/-- A block of a list as `alloc_mem_in_list` makes it. -/
structure Paged (vm : Vm) (b : MemBlock) : Prop where
  phys : b.phys % vm.pageSize = 0
  length : b.length % vm.pageSize = 0
  pos : 0 < b.length

instance (vm : Vm) (b : MemBlock) : Decidable (Paged vm b) :=
  decidable_of_iff (b.phys % vm.pageSize = 0 ∧ b.length % vm.pageSize = 0 ∧ 0 < b.length)
    ⟨fun h => ⟨h.1, h.2.1, h.2.2⟩, fun h => ⟨h.phys, h.length, h.pos⟩⟩

theorem Paged.extent_pos {b : MemBlock} (h : Paged vm b) : 0 < (b.extent vm).len := by
  have hdvd := Nat.dvd_of_mod_eq_zero h.length
  exact Nat.div_pos (Nat.le_of_dvd h.pos hdvd) (Nat.pos_of_dvd_of_pos hdvd h.pos)

theorem freeMemList_ok (hv : v.Lawful) {list : List MemBlock} (hlist : ∀ b ∈ list, Paged vm b)
    (hs : s.Sound v)
    (apart : ∀ x, tally (list.map (MemBlock.extent vm) ++ s.extents v) x ≤ 1) :
    ∃ t', freeMemList v vm true list s.addravl = .ok t' ∧ (⟨t', s.yielded⟩ : Pool τ).Sound v ∧
      ∀ x, tally ((⟨t', s.yielded⟩ : Pool τ).extents v) x =
        tally (list.map (MemBlock.extent vm) ++ s.extents v) x := by
  have hfree : ∀ x, tally (list.map (MemBlock.extent vm) ++ v.free s.addravl) x ≤ 1 := fun x => by
    have hx := apart x
    simp only [Pool.extents, tally_append] at hx ⊢
    omega
  have hloop : ∃ t', freeMemList v vm true list s.addravl = .ok t' ∧ Spaced (v.free t') ∧
      ∀ x, tally (v.free t') x = tally (list.map (MemBlock.extent vm) ++ v.free s.addravl) x :=
    free_loop hv (fun t b hb => if_pos ⟨(hlist b hb).phys, (hlist b hb).length⟩)
      (fun b hb => (hlist b hb).extent_pos) hs.spaced hfree
  obtain ⟨t', ht', spaced, htally⟩ := hloop
  have same : ∀ x, tally ((⟨t', s.yielded⟩ : Pool τ).extents v) x =
      tally (list.map (MemBlock.extent vm) ++ s.extents v) x := fun x => by
    simp only [Pool.extents, tally_append, htally]
    omega
  exact ⟨t', ht', ⟨spaced, hs.filled, fun x => (same x).trans_le (apart x)⟩, same⟩

theorem giveUp_ok (hv : v.Lawful) {head : List MemBlock} (hhead : ∀ b ∈ head, Paged vm b) (hs : s.Sound v)
    (apart : ∀ x, tally (head.map (MemBlock.extent vm) ++ s.extents v) x ≤ 1) :
    ∃ s', giveUp v vm head s = .ok (none, s') ∧ s'.Sound v ∧
      ∀ x, tally (s'.extents v) x = tally (head.map (MemBlock.extent vm) ++ s.extents v) x := by
  obtain ⟨t', ht', sound, same⟩ := freeMemList_ok hv hhead hs apart
  refine ⟨⟨t', s.yielded⟩, ?_, sound, same⟩
  rw [giveUp, ht']
  rfl

/-- The block that the loop puts in front of the list. -/
abbrev Vm.block (vm : Vm) (mem got : Nat) : MemBlock := ⟨mem * vm.clickSize, got * vm.clickSize⟩

theorem block_extent (hvm : vm.Sane) (mem got : Nat) : (vm.block mem got).extent vm = ⟨mem, got⟩ := by
  rw [Vm.block, MemBlock.extent, hvm.click, Nat.mul_div_cancel _ hvm.page, Nat.mul_div_cancel _ hvm.page]

theorem block_paged (hvm : vm.Sane) (mem : Nat) {got : Nat} (pos : 0 < got) : Paged vm (vm.block mem got) := by
  refine ⟨?_, ?_, Nat.mul_pos pos (hvm.click ▸ hvm.page)⟩ <;> simp [hvm.click]

/-- A list for all pages that were missing, or everything is given back. -/
def Gathered (v : AddrAvl τ) (vm : Vm) (flags : MemFlags) (slab : List MemBlock → Bool) (rempages : Nat)
    (head : List MemBlock) (s s' : Pool τ) : Option (List MemBlock) → Prop
  | some list => ∃ new, list = new ++ head ∧ (∀ b ∈ new, Paged vm b) ∧
      (new.map MemBlock.length).sum = rempages * vm.pageSize ∧
      (flags.firstBlock = false → new.length = 1) ∧
      ∀ x, tally (new.map (MemBlock.extent vm) ++ s'.extents v) x = tally (s.extents v) x
  | none => (∀ x, tally (s'.extents v) x = tally (head.map (MemBlock.extent vm) ++ s.extents v) x) ∧
      (flags.firstBlock = true → flags.lower16MB = false → flags.lower1MB = false → vm.Frees →
        (∀ list, slab list = true) → total (s.extents v) < rempages)

section Round

variable {flags : MemFlags} {slab : List MemBlock → Bool} {rempages mem got : Nat} {head : List MemBlock}
  {s₁ s' : Pool τ}

theorem Cut.tally_head (cut : Cut v s s₁ mem got) (head : List MemBlock) (x : Nat) :
    tally (⟨mem, got⟩ :: (head.map (MemBlock.extent vm) ++ s₁.extents v)) x =
      tally (head.map (MemBlock.extent vm) ++ s.extents v) x := by
  have hx := cut.same x
  simp only [tally_cons, tally_append] at hx ⊢
  omega

theorem Gathered.last (hvm : vm.Sane) (cut : Cut v s s₁ mem got) :
    Gathered v vm flags slab got head s s₁ (some (vm.block mem got :: head)) := by
  refine ⟨[vm.block mem got], rfl, ?_, ?_, fun _ => rfl, fun x => ?_⟩
  · intro b hb
    obtain rfl := List.mem_singleton.mp hb
    exact block_paged hvm mem cut.pos
  · simp [hvm.click]
  · rw [List.map_singleton, block_extent hvm, List.singleton_append, cut.same]

theorem Gathered.cons (hvm : vm.Sane) (cut : Cut v s s₁ mem got) (hle : got ≤ rempages)
    (hall : flags.firstBlock = false → got = rempages) (hrest : 0 < rempages - got)
    {list : Option (List MemBlock)}
    (h : Gathered v vm flags slab (rempages - got) (vm.block mem got :: head) s₁ s' list) :
    Gathered v vm flags slab rempages head s s' list := by
  have hextent := block_extent hvm mem got
  cases list with
  | none =>
    obtain ⟨same, short⟩ := h
    refine ⟨fun x => ?_, fun hfirst h16 h1 frees hslab => ?_⟩
    · rw [same, List.map_cons, hextent, List.cons_append, cut.tally_head]
    · have hlt := short hfirst h16 h1 frees hslab
      have htotal : total (s.extents v) = got + total (s₁.extents v) :=
        (total_eq_of_tally cut.same).symm.trans rfl
      omega
  | some list =>
    obtain ⟨new, rfl, hpages, hsize, -, hsame⟩ := h
    refine ⟨new ++ [vm.block mem got], by simp, ?_, ?_, fun hfirst => ?_, fun x => ?_⟩
    · intro b hb
      rcases List.mem_append.mp hb with hb | hb
      · exact hpages b hb
      · obtain rfl := List.mem_singleton.mp hb
        exact block_paged hvm mem cut.pos
    · have hlength : (vm.block mem got).length = got * vm.pageSize := by rw [← hvm.click]
      rw [List.map_append, List.sum_append, hsize, List.map_singleton, List.sum_singleton, hlength,
        ← Nat.add_mul, Nat.sub_add_cancel hle]
    · have hgot := hall hfirst
      omega
    · have hx := hsame x
      have hy := cut.same x
      simp only [List.map_append, List.map_cons, List.map_nil, hextent, tally_append, tally_cons,
        tally_nil] at hx hy ⊢
      omega

/-- No node for the list: the blocks before go back, and then the pages of this round. -/
theorem unlisted_ok (hv : v.Lawful) (hhead : ∀ b ∈ head, Paged vm b) (cut : Cut v s s₁ mem got)
    (apart : ∀ x, tally (head.map (MemBlock.extent vm) ++ s.extents v) x ≤ 1) :
    ∃ s' : Pool τ, (giveUp v vm head s₁ >>= fun (list, s) =>
        ((freePages v mem got s.addravl).mapError Stop.failed).map fun t =>
          (list, (⟨t, s.yielded⟩ : Pool τ))) = .ok (none, s') ∧ s'.Sound v ∧
        ∀ x, tally (s'.extents v) x = tally (head.map (MemBlock.extent vm) ++ s.extents v) x := by
  have hgot : ∀ x, tally (head.map (MemBlock.extent vm) ++ s₁.extents v) x ≤ 1 := fun x => by
    have hx : _ = tally (head.map (MemBlock.extent vm) ++ s.extents v) x := cut.tally_head head x
    have hone := apart x
    rw [tally_cons] at hx
    omega
  obtain ⟨s₂, hgive, sound₂, same₂⟩ := giveUp_ok hv hhead cut.sound hgot
  have hback : ∀ x, tally (⟨mem, got⟩ :: s₂.extents v) x =
      tally (head.map (MemBlock.extent vm) ++ s.extents v) x := fun x => by
    rw [tally_cons, same₂, ← tally_cons, cut.tally_head]
  have haway : ∀ x, tally (⟨mem, got⟩ :: v.free s₂.addravl) x ≤ 1 := fun x => by
    have hx := hback x
    have hone := apart x
    simp only [Pool.extents, tally_cons, tally_append] at hx hone ⊢
    omega
  obtain ⟨t', ht', spaced, htally⟩ := freePages_tally hv sound₂.spaced (e := ⟨mem, got⟩) cut.pos haway
  have same : ∀ x, tally ((⟨t', s₂.yielded⟩ : Pool τ).extents v) x =
      tally (head.map (MemBlock.extent vm) ++ s.extents v) x := fun x => by
    have hx := hback x
    simp only [Pool.extents, tally_cons, tally_append, htally] at hx ⊢
    omega
  refine ⟨⟨t', s₂.yielded⟩, ?_, ⟨spaced, sound₂.filled, fun x => (same x).trans_le (apart x)⟩, same⟩
  rw [hgive]
  simp only [bind, Except.bind]
  rw [ht']
  rfl

end Round

theorem gather_ok (hv : v.Lawful) (hvm : vm.Sane) (flags : MemFlags) (slab : List MemBlock → Bool)
    {n rempages : Nat} {head : List MemBlock} (hn : rempages ≤ n) (pos : 0 < rempages) (hs : s.Sound v)
    (hhead : ∀ b ∈ head, Paged vm b) (sentinel : tally (s.extents v) vm.noMem = 0)
    (apart : ∀ x, tally (head.map (MemBlock.extent vm) ++ s.extents v) x ≤ 1) :
    ∃ list s', gather v vm flags slab n rempages head s = .ok (list, s') ∧ s'.Sound v ∧
      Gathered v vm flags slab rempages head s s' list := by
  induction n generalizing rempages head s with
  | zero => omega
  | succ n ih =>
    obtain ⟨mem, got, s₁, htry, ⟨hmem, moved, empties⟩ | ⟨hmem, cut, hle, hall⟩⟩ :=
      tryPages_ok hv hvm flags pos hs (Nat.lt_succ_self _) sentinel
    · have hsum : ∀ x, tally (head.map (MemBlock.extent vm) ++ s₁.extents v) x =
          tally (head.map (MemBlock.extent vm) ++ s.extents v) x := fun x => by
        simp only [tally_append, moved.same]
      obtain ⟨s', hgive, sound, same⟩ := giveUp_ok hv hhead moved.sound fun x => (hsum x).trans_le (apart x)
      refine ⟨none, s', ?_, sound, fun x => (same x).trans (hsum x), fun hfirst h16 h1 frees _ => ?_⟩
      · rw [gather, htry]
        exact (if_pos hmem).trans hgive
      · rw [← total_eq_of_tally moved.same, empties hfirst h16 h1 frees]
        exact pos
    · have hbounds : ¬¬(got ≤ rempages ∧ 0 < got) := not_not.mpr ⟨hle, cut.pos⟩
      by_cases hslab : slab head = true
      · have hrun : gather v vm flags slab (n + 1) rempages head s = if 0 < rempages - got then
            gather v vm flags slab n (rempages - got) (vm.block mem got :: head) s₁
            else .ok (some (vm.block mem got :: head), s₁) := by
          rw [gather, htry]
          exact (if_neg hmem).trans ((if_neg hbounds).trans (if_pos hslab))
        by_cases hrest : 0 < rempages - got
        · have sentinel₁ : tally (s₁.extents v) vm.noMem = 0 := by
            have hx := cut.same vm.noMem
            rw [tally_cons] at hx
            omega
          have hrem : rempages - got ≤ n := by
            have hpos := cut.pos
            omega
          have hheads : ∀ b ∈ vm.block mem got :: head, Paged vm b :=
            List.forall_mem_cons.mpr ⟨block_paged hvm mem cut.pos, hhead⟩
          obtain ⟨list, s', he, sound, gathered⟩ := ih hrem hrest cut.sound hheads sentinel₁ fun x => by
            rw [List.map_cons, block_extent hvm, List.cons_append, cut.tally_head]
            exact apart x
          exact ⟨list, s', hrun.trans ((if_pos hrest).trans he), sound, gathered.cons hvm cut hle hall hrest⟩
        · obtain rfl : got = rempages := by omega
          exact ⟨_, s₁, hrun.trans (if_neg hrest), cut.sound, .last hvm cut⟩
      · obtain ⟨s', hback, sound, same⟩ := unlisted_ok hv hhead cut apart
        refine ⟨none, s', ?_, sound, same, fun _ _ _ _ hall' => absurd (hall' head) hslab⟩
        rw [gather, htry]
        exact (if_neg hmem).trans ((if_neg hbounds).trans ((if_neg hslab).trans hback))

end Specs

end Pages

end TcpAndParallel
