import TcpAndParallel.PageTree

namespace TcpAndParallel

namespace Pages

/-- The bits of `memflags` that the functions on pages read. -/
structure MemFlags where
  clear : Bool := false
  contig : Bool := false
  lower16MB : Bool := false
  lower1MB : Bool := false
  firstBlock : Bool := false
  deriving DecidableEq, Repr

/-- The constants of the headers, and the calls that leave alloc.c: `freeYielded` tells the yielded
blocks that `free_yielded` frees for so many bytes from those that it keeps. -/
structure Vm where
  noMem : Nat
  pageSize : Nat
  clickSize : Nat
  sysMemset : Nat → Nat → Int
  freeYielded : Nat → List PageRange → List PageRange × List PageRange

def smallVm : Vm := ⟨0, 4096, 4096, fun _ _ => 0, fun _ rs => (rs, [])⟩

def Vm.boundary16 (vm : Vm) : Nat := 16 * 1024 * 1024 / vm.pageSize

def Vm.boundary1 (vm : Vm) : Nat := 1 * 1024 * 1024 / vm.pageSize

inductive Seek
  /-- The search runs off the tree. -/
  | nothing
  /-- The first block that is good does not end below the boundary. -/
  | beyond
  | found (pr : PageRange)
  deriving DecidableEq, Repr

def beyond (vm : Vm) (pages : Nat) (flags : MemFlags) (pr : PageRange) : Bool :=
  flags.lower16MB && decide (vm.boundary16 < pr.addr + pages) ||
    flags.lower1MB && decide (vm.boundary1 < pr.addr + pages)

/-- The `while` loop of `alloc_pages`. -/
def seek (vm : Vm) (pages : Nat) (flags : MemFlags) : List PageRange → Except Fault Seek
  | [] => .ok .nothing
  | pr :: rest =>
    if pr.size = 0 then .error .assertion
    else if pages ≤ pr.size ∨ flags.firstBlock then
      .ok (if beyond vm pages flags pr then .beyond else .found pr)
    else seek vm pages flags rest

variable {τ : Type*}

/-- From the least address up for the lower boundaries, from the greatest down otherwise. -/
def order (v : AddrAvl τ) (flags : MemFlags) (t : τ) : List PageRange :=
  if flags.lower16MB || flags.lower1MB then v.nodes t else (v.nodes t).reverse

/-- The part of `alloc_pages` behind the loop. The chunk is off the end of the range. -/
def takePages (v : AddrAvl τ) (vm : Vm) (pages : Nat) (flags : MemFlags) (pr : PageRange) (t : τ) :
    Except Fault (Nat × Nat × τ) :=
  let pages := if flags.firstBlock ∧ pr.size < pages then pr.size else pages
  let mem := pr.addr + pr.size - pages
  if pr.size < pages then .error .assertion
  else
    let t := if pr.size = pages then v.remove pr.addr t
      else v.write pr.addr { pr with size := pr.size - pages } t
    if flags.clear ∧ vm.sysMemset (vm.clickSize * mem) (vm.pageSize * pages) ≠ 0 then
      .error .memsetFailed
    else .ok (mem, pages, t)

/-- `alloc_pages` with its result and `*len`, which stays as it was at a boundary: the `0` there is
never read. -/
def allocPages (v : AddrAvl τ) (vm : Vm) (pages : Nat) (flags : MemFlags) (t : τ) :
    Except Fault (Nat × Nat × τ) :=
  (seek vm pages flags (order v flags t)).bind fun
    | .nothing => .ok (vm.noMem, 0, t)
    | .beyond => .ok (vm.noMem, 0, t)
    | .found pr => takePages v vm pages flags pr t

/-- The first half of `free_pages`: the pages go to the range above them, or to a node of their own. -/
def mergeHigher (v : AddrAvl τ) (pageno npages : Nat) (t : τ) : Except Fault (PageRange × τ) :=
  match v.search (pageno + npages) t with
  | some pr =>
    let pr' : PageRange := ⟨pr.addr - npages, pr.size + npages⟩
    .ok (pr', v.write pr.addr pr' t)
  | none =>
    if npages = 0 then .error .assertion
    else .ok (⟨pageno, npages⟩, v.insert ⟨pageno, npages⟩ t)

/-- The second half of `free_pages`: the range below takes over a range that it touches. -/
def mergeLower (v : AddrAvl τ) (pr : PageRange) (t : τ) : Except Fault τ :=
  if v.search pr.addr t ≠ some pr then .error .assertion
  else match v.below pr.addr t with
    | some p =>
      if p.addr + p.size = pr.addr then
        .ok (v.remove pr.addr (v.write p.addr { p with size := p.size + pr.size } t))
      else .ok t
    | none => .ok t

def freePages (v : AddrAvl τ) (pageno npages : Nat) (t : τ) : Except Fault τ :=
  if (v.search pageno t).isSome then .error .assertion
  else (mergeHigher v pageno npages t).bind fun (pr, t) => mergeLower v pr t

def AddrAvl.free (v : AddrAvl τ) (t : τ) : List Extent := (v.nodes t).map PageRange.extent

section Free

variable {v : AddrAvl τ} {t : τ}

theorem ascending_of_spaced {rs : List PageRange} (h : Spaced (rs.map PageRange.extent)) : Ascending rs := by
  refine (List.pairwise_map.mp h.gaps).imp fun {a b} hab => ?_
  simp only [extent_stop, extent_base] at hab
  omega

theorem seek_cases (vm : Vm) (pages : Nat) (flags : MemFlags) {rs : List PageRange}
    (filled : ∀ r ∈ rs, 0 < r.size) :
    seek vm pages flags rs = .ok .nothing ∧ (∀ r ∈ rs, r.size < pages ∧ flags.firstBlock = false) ∨
    ∃ pre pr post, rs = pre ++ pr :: post ∧ (∀ r ∈ pre, r.size < pages ∧ flags.firstBlock = false) ∧
      (pages ≤ pr.size ∨ flags.firstBlock = true) ∧
      seek vm pages flags rs = .ok (if beyond vm pages flags pr then .beyond else .found pr) := by
  induction rs with
  | nil => exact .inl ⟨rfl, by simp⟩
  | cons r rs ih =>
    have hr : ¬r.size = 0 := (filled r (by simp)).ne'
    by_cases fits : pages ≤ r.size ∨ flags.firstBlock = true
    · refine .inr ⟨[], r, rs, rfl, by simp, fits, ?_⟩
      rw [seek, if_neg hr, if_pos fits]
    · have small : r.size < pages ∧ flags.firstBlock = false := by simpa [not_or] using fits
      have hstep : seek vm pages flags (r :: rs) = seek vm pages flags rs := by
        rw [seek, if_neg hr, if_neg fits]
      rw [hstep]
      rcases ih fun g hg => filled g (by simp [hg]) with ⟨he, hall⟩ | ⟨pre, pr, post, rfl, hpre, hfit, he⟩
      · refine .inl ⟨he, fun g hg => ?_⟩
        rcases List.mem_cons.mp hg with rfl | hg
        · exact small
        · exact hall g hg
      · refine .inr ⟨r :: pre, pr, post, rfl, fun g hg => ?_, hfit, he⟩
        rcases List.mem_cons.mp hg with rfl | hg
        · exact small
        · exact hpre g hg

/-- What `alloc_pages` takes from the tree: `got` pages off the end of one range. -/
structure Granted (v : AddrAvl τ) (t t' : τ) (pre : List PageRange) (pr : PageRange) (post : List PageRange)
    (mem got : Nat) : Prop where
  nodes : v.nodes t = pre ++ pr :: post
  pos : 0 < got
  fits : got ≤ pr.size
  start : mem = pr.addr + pr.size - got
  free : v.free t' = trim (pre.map PageRange.extent) pr.extent got (post.map PageRange.extent)

theorem takePages_ok (hv : v.Lawful) {vm : Vm} (memset : ∀ a b, vm.sysMemset a b = 0) {pages : Nat}
    {flags : MemFlags} {pre post : List PageRange} {pr : PageRange} (hs : Spaced (v.free t))
    (nodes : v.nodes t = pre ++ pr :: post) (pos : 0 < pages)
    (fits : pages ≤ pr.size ∨ flags.firstBlock = true) :
    ∃ t', takePages v vm pages flags pr t = .ok (pr.addr + pr.size - min pages pr.size, min pages pr.size, t') ∧
      Granted v t t' pre pr post (pr.addr + pr.size - min pages pr.size) (min pages pr.size) := by
  have hasc : Ascending (pre ++ pr :: post) := nodes ▸ ascending_of_spaced hs
  have hpos : 0 < pr.size := hs.filled pr.extent (List.mem_map_of_mem (by simp [nodes]))
  have hgot : (if flags.firstBlock ∧ pr.size < pages then pr.size else pages) = min pages pr.size := by
    split
    next h => omega
    next h =>
      have hle : pages ≤ pr.size := by
        rcases fits with fits | fits
        · exact fits
        · by_contra hlt
          exact h ⟨fits, by omega⟩
      omega
  have hle : ¬pr.size < min pages pr.size := by omega
  refine ⟨if pr.size = min pages pr.size then v.remove pr.addr t
    else v.write pr.addr { pr with size := pr.size - min pages pr.size } t, ?_, nodes, by omega, by omega,
    rfl, ?_⟩
  · simp only [takePages, hgot, if_neg hle, memset, ne_eq, not_true_eq_false, and_false, if_false]
  · by_cases whole : pr.size = min pages pr.size
    · rw [AddrAvl.free, if_pos whole, hv.remove nodes hasc, List.map_append]
      exact (if_pos whole).symm
    · have keep : Ascending (pre ++ ⟨pr.addr, pr.size - min pages pr.size⟩ :: post) :=
        hasc.write hasc.cross.1 hasc.cross.2
      rw [AddrAvl.free, if_neg whole, hv.write nodes hasc keep, List.map_append, List.map_cons]
      exact (if_neg whole).symm

/-- A call for pages: the tree has no good block in the order it is searched, or the first one is
beyond a boundary, or its end is taken. -/
theorem allocPages_cases (hv : v.Lawful) {vm : Vm} (memset : ∀ a b, vm.sysMemset a b = 0) {pages : Nat}
    (flags : MemFlags) (hs : Spaced (v.free t)) (pos : 0 < pages) :
    allocPages v vm pages flags t = .ok (vm.noMem, 0, t) ∧
      ((∀ r ∈ v.nodes t, r.size < pages ∧ flags.firstBlock = false) ∨
        ∃ pre pr post, order v flags t = pre ++ pr :: post ∧
          (∀ r ∈ pre, r.size < pages ∧ flags.firstBlock = false) ∧
          (pages ≤ pr.size ∨ flags.firstBlock = true) ∧ beyond vm pages flags pr = true) ∨
    ∃ pre pr post mem got t', allocPages v vm pages flags t = .ok (mem, got, t') ∧
      Granted v t t' pre pr post mem got ∧ got = min pages pr.size ∧
      (pages ≤ pr.size ∨ flags.firstBlock = true) ∧ beyond vm pages flags pr = false ∧
      ∀ r ∈ (if flags.lower16MB || flags.lower1MB then pre else post),
        r.size < pages ∧ flags.firstBlock = false := by
  have hmem : ∀ r, r ∈ order v flags t ↔ r ∈ v.nodes t := fun r => by
    unfold order
    split <;> simp
  have filled : ∀ r ∈ order v flags t, 0 < r.size := fun r hr =>
    hs.filled r.extent (List.mem_map_of_mem ((hmem r).mp hr))
  rcases seek_cases vm pages flags filled with ⟨he, small⟩ | ⟨pre, pr, post, hsplit, small, fits, he⟩
  · refine .inl ⟨?_, .inl fun r hr => small r ((hmem r).mpr hr)⟩
    rw [allocPages, he]
    rfl
  · by_cases hb : beyond vm pages flags pr = true
    · refine .inl ⟨?_, .inr ⟨pre, pr, post, hsplit, small, fits, hb⟩⟩
      rw [allocPages, he, if_pos hb]
      rfl
    · have hrun : allocPages v vm pages flags t = takePages v vm pages flags pr t := by
        rw [allocPages, he, if_neg hb]
        rfl
      by_cases hlow : (flags.lower16MB || flags.lower1MB) = true
      · have nodes : v.nodes t = pre ++ pr :: post := by rw [← hsplit, order, if_pos hlow]
        obtain ⟨t', ht, granted⟩ := takePages_ok hv memset hs nodes pos fits
        refine .inr ⟨pre, pr, post, _, _, t', hrun.trans ht, granted, rfl, fits, by simpa using hb, ?_⟩
        rw [if_pos hlow]
        exact small
      · have nodes : v.nodes t = post.reverse ++ pr :: pre.reverse := by
          rw [order, if_neg hlow] at hsplit
          rw [← List.reverse_reverse (v.nodes t), hsplit]
          simp
        obtain ⟨t', ht, granted⟩ := takePages_ok hv memset hs nodes pos fits
        refine .inr ⟨_, pr, _, _, _, t', hrun.trans ht, granted, rfl, fits, by simpa using hb, ?_⟩
        rw [if_neg hlow]
        exact fun r hr => small r (List.mem_reverse.mp hr)

theorem exists_split {e : Extent} {es : List Extent} (hs : Spaced es) (pos : 0 < e.len)
    (away : ∀ h ∈ es, Disjoint e.units h.units) : ∃ pre post, es = pre ++ post ∧
      (∀ a ∈ pre, a.stop ≤ e.base) ∧ ∀ b ∈ post, e.stop ≤ b.base := by
  induction es with
  | nil => exact ⟨[], [], rfl, by simp, by simp⟩
  | cons h es ih =>
    obtain ⟨hh, hpos, hs⟩ := spaced_cons_iff.mp hs
    rcases (Extent.disjoint_units_iff pos hpos).mp (away h (by simp)) with above | below
    · refine ⟨[], h :: es, rfl, by simp, fun b hb => ?_⟩
      rcases List.mem_cons.mp hb with rfl | hb
      · exact above
      · have hlt := hh b hb
        simp only [Extent.stop] at *
        omega
    · obtain ⟨pre, post, rfl, hpre, hpost⟩ := ih hs fun g hg => away g (by simp [hg])
      refine ⟨h :: pre, post, rfl, fun a ha => ?_, hpost⟩
      rcases List.mem_cons.mp ha with rfl | ha
      · exact below
      · exact hpre a ha

theorem mergeHigher_ok (hv : v.Lawful) {pageno npages : Nat} {pre post : List PageRange}
    (nodes : v.nodes t = pre ++ post) (hasc : Ascending (pre ++ post)) (pos : 0 < npages)
    (low : ∀ a ∈ pre, a.addr < pageno) (high : ∀ b ∈ post, pageno + npages ≤ b.addr) :
    ∃ pr rest t', mergeHigher v pageno npages t = .ok (pr, t') ∧ v.nodes t' = pre ++ pr :: rest ∧
      Ascending (pre ++ pr :: rest) ∧ pr.addr = pageno ∧
      absorb (⟨pageno, npages⟩ :: post.map PageRange.extent) = pr.extent :: rest.map PageRange.extent := by
  by_cases touch : ∃ g rest, post = g :: rest ∧ g.addr = pageno + npages
  · obtain ⟨g, rest, rfl, hg⟩ := touch
    have keep : Ascending (pre ++ ⟨g.addr - npages, g.size + npages⟩ :: rest) :=
      hasc.write (fun a ha => by simp only; have := low a ha; omega)
        fun b hb => by simp only; have := hasc.cross.2 b hb; omega
    refine ⟨⟨g.addr - npages, g.size + npages⟩, rest, _, ?_, hv.write nodes hasc keep, keep,
      by simp only; omega, ?_⟩
    · rw [mergeHigher, ← hg, search_at nodes hasc]
    · have hbase : g.addr - npages = pageno := by omega
      simp [absorb, Extent.stop, PageRange.extent, hg, Nat.add_comm g.size]
  · have hnone : v.search (pageno + npages) t = none := by
      rw [AddrAvl.search, nodes]
      refine List.find?_eq_none.mpr fun r hr => ?_
      simp only [decide_eq_true_eq]
      rcases List.mem_append.mp hr with hr | hr
      · have hlt := low r hr
        omega
      · cases post with
        | nil => simp at hr
        | cons g rest =>
          have hne : g.addr ≠ pageno + npages := fun he => touch ⟨g, rest, rfl, he⟩
          have hle := high g (by simp)
          rcases List.mem_cons.mp hr with rfl | hr
          · exact hne
          · have hlt := hasc.cross.2 r hr
            omega
    have keep : Ascending (pre ++ ⟨pageno, npages⟩ :: post) :=
      hasc.insert low fun b hb => by simp only; have := high b hb; omega
    refine ⟨⟨pageno, npages⟩, post, _, ?_, hv.insert nodes keep, keep, rfl, ?_⟩
    · rw [mergeHigher, hnone]
      exact if_neg pos.ne'
    · cases post with
      | nil => rfl
      | cons g rest =>
        have hne : ¬pageno + npages = g.addr := fun he => touch ⟨g, rest, rfl, he.symm⟩
        exact if_neg hne

theorem mergeLower_first {pr : PageRange} {rest : List PageRange} (nodes : v.nodes t = pr :: rest)
    (hasc : Ascending (pr :: rest)) : mergeLower v pr t = .ok t := by
  have nodes' : v.nodes t = [] ++ pr :: rest := nodes
  have hsearch := search_at nodes' hasc
  have hbelow := below_at nodes' hasc
  rw [mergeLower, hsearch, if_neg (by simp), hbelow]
  rfl

theorem mergeLower_ok (hv : v.Lawful) {q pr : PageRange} {pre rest : List PageRange}
    (nodes : v.nodes t = pre ++ q :: pr :: rest) (hasc : Ascending (pre ++ q :: pr :: rest)) :
    ∃ t', mergeLower v pr t = .ok t' ∧ v.nodes t' =
      pre ++ if q.addr + q.size = pr.addr then ⟨q.addr, q.size + pr.size⟩ :: rest else q :: pr :: rest := by
  have nodes' : v.nodes t = (pre ++ [q]) ++ pr :: rest := by simp [nodes]
  have hasc' : Ascending ((pre ++ [q]) ++ pr :: rest) := by simpa using hasc
  have hrun : mergeLower v pr t = if q.addr + q.size = pr.addr then
      .ok (v.remove pr.addr (v.write q.addr { q with size := q.size + pr.size } t)) else .ok t := by
    rw [mergeLower, search_at nodes' hasc', if_neg (by simp), below_at nodes' hasc']
    simp
  by_cases touch : q.addr + q.size = pr.addr
  · have keep : Ascending (pre ++ ⟨q.addr, q.size + pr.size⟩ :: pr :: rest) :=
      hasc.write hasc.cross.1 hasc.cross.2
    have hwrite := hv.write nodes hasc keep
    have hsplit : pre ++ ⟨q.addr, q.size + pr.size⟩ :: pr :: rest =
        (pre ++ [⟨q.addr, q.size + pr.size⟩]) ++ pr :: rest := by simp
    refine ⟨_, hrun.trans (if_pos touch), ?_⟩
    rw [hv.remove (hwrite.trans hsplit) (hsplit ▸ keep), if_pos touch]
    simp
  · refine ⟨t, hrun.trans (if_neg touch), ?_⟩
    rw [nodes, if_neg touch]

theorem freePages_ok (hv : v.Lawful) (hs : Spaced (v.free t)) {pageno npages : Nat} (pos : 0 < npages)
    (away : ∀ e ∈ v.free t, Disjoint (⟨pageno, npages⟩ : Extent).units e.units) :
    ∃ t', freePages v pageno npages t = .ok t' ∧ v.free t' = release ⟨pageno, npages⟩ (v.free t) := by
  obtain ⟨es, fs, hsplit, hlow, hhigh⟩ := exists_split hs pos away
  obtain ⟨pre, post, nodes, rfl, rfl⟩ := List.map_eq_append_iff.mp hsplit
  have hasc : Ascending (pre ++ post) := nodes ▸ ascending_of_spaced hs
  have low : ∀ a ∈ pre, a.addr < pageno := fun a ha => by
    have hstop := hlow a.extent (List.mem_map_of_mem ha)
    have hpos := hs.filled a.extent (List.mem_map_of_mem (by simp [nodes, ha]))
    simp only [extent_stop, extent_len] at hstop hpos
    omega
  have high : ∀ b ∈ post, pageno + npages ≤ b.addr := fun b hb =>
    hhigh b.extent (List.mem_map_of_mem hb)
  have hnone : (v.search pageno t).isSome = false := by
    rw [AddrAvl.search, nodes, Option.isSome_eq_false_iff, Option.isNone_iff_eq_none]
    refine List.find?_eq_none.mpr fun r hr => ?_
    simp only [decide_eq_true_eq]
    rcases List.mem_append.mp hr with hr | hr
    · exact (low r hr).ne
    · have hle := high r hr
      omega
  obtain ⟨pr, rest, t₁, hhigher, nodes₁, hasc₁, haddr, habsorb⟩ :=
    mergeHigher_ok hv nodes hasc pos low high
  have hrun : freePages v pageno npages t = mergeLower v pr t₁ := by
    rw [freePages, if_neg (by simp [hnone]), hhigher]
    rfl
  have above : ∀ f ∈ (post.map PageRange.extent).head?, pageno ≤ f.base := by
    intro f hf
    obtain ⟨b, hb, rfl⟩ := List.mem_map.mp (List.mem_of_head? hf)
    exact (Nat.le_add_right pageno npages).trans (high b hb)
  rcases List.eq_nil_or_concat' pre with rfl | ⟨pre, q, rfl⟩
  · refine ⟨t₁, hrun.trans (mergeLower_first nodes₁ hasc₁), ?_⟩
    have hpost : Spaced (post.map PageRange.extent) := by simpa [hsplit] using hs
    rw [hsplit, List.map_nil, List.nil_append, release_front above, coalesce_of_spaced hpost, habsorb,
      AddrAvl.free, nodes₁]
    rfl
  · rw [List.append_assoc] at nodes₁ hasc₁
    obtain ⟨t', hlower, nodes'⟩ := mergeLower_ok hv nodes₁ hasc₁
    refine ⟨t', hrun.trans hlower, ?_⟩
    have below : ∀ f ∈ pre.map PageRange.extent ++ [q.extent], f.base < pageno := by
      intro f hf
      obtain ⟨a, ha, rfl⟩ : ∃ a ∈ pre ++ [q], a.extent = f := by
        rwa [← List.mem_map, List.map_append]
      exact low a ha
    have hmap : (pre ++ [q]).map PageRange.extent ++ post.map PageRange.extent =
        pre.map PageRange.extent ++ q.extent :: post.map PageRange.extent := by simp
    rw [hsplit, hmap, release_of_split below above, coalesce_of_absorb habsorb, AddrAvl.free, nodes',
      List.map_append]
    have hstop : q.extent.stop = (⟨pageno, npages⟩ : Extent).base ↔ q.addr + q.size = pr.addr := by
      rw [haddr, extent_stop]
    by_cases touch : q.addr + q.size = pr.addr
    · rw [if_pos touch, if_pos (hstop.mpr touch)]
      rfl
    · rw [if_neg touch, if_neg (mt hstop.mp touch)]
      rfl

/-- A block that ends at `b` lies below the boundaries that the flags set. -/
structure Below (vm : Vm) (flags : MemFlags) (b : Nat) : Prop where
  first16 : flags.lower16MB = true → b ≤ vm.boundary16
  first1 : flags.lower1MB = true → b ≤ vm.boundary1

theorem Below.mono {vm : Vm} {flags : MemFlags} {a b : Nat} (h : Below vm flags b) (hle : a ≤ b) :
    Below vm flags a :=
  ⟨fun hf => hle.trans (h.first16 hf), fun hf => hle.trans (h.first1 hf)⟩

theorem beyond_eq_false_iff {vm : Vm} {pages : Nat} {flags : MemFlags} {pr : PageRange} :
    beyond vm pages flags pr = false ↔ Below vm flags (pr.addr + pages) := by
  rw [beyond, Bool.or_eq_false_iff]
  constructor
  · rintro ⟨h16, h1⟩
    refine ⟨fun hf => ?_, fun hf => ?_⟩
    · simpa [hf] using h16
    · simpa [hf] using h1
  · intro h
    refine ⟨?_, ?_⟩
    · cases hf : flags.lower16MB with
      | false => rfl
      | true => simpa using h.first16 hf
    · cases hf : flags.lower1MB with
      | false => rfl
      | true => simpa using h.first1 hf

theorem room_nodes (hs : Spaced (v.free t)) {pages b : Nat} (pos : 0 < pages) :
    Room (unitsOf (v.free t)) pages b ↔ ∃ r ∈ v.nodes t, r.addr ≤ b ∧ b + pages ≤ r.addr + r.size := by
  rw [room_iff hs pos, AddrAvl.free]
  constructor
  · rintro ⟨e, he, hb⟩
    obtain ⟨r, hr, rfl⟩ := List.mem_map.mp he
    exact ⟨r, hr, hb⟩
  · rintro ⟨r, hr, hb⟩
    exact ⟨r.extent, List.mem_map_of_mem hr, hb⟩

theorem Granted.room (hs : Spaced (v.free t)) {t' : τ} {pre post : List PageRange} {pr : PageRange}
    {mem got : Nat} (h : Granted v t t' pre pr post mem got) :
    Room (unitsOf (v.free t)) got mem ∧ mem + got = pr.addr + pr.size := by
  have hfits := h.fits
  have hstart := h.start
  refine ⟨(room_nodes hs h.pos).mpr ⟨pr, by simp [h.nodes], ?_⟩, ?_⟩ <;> omega

theorem Granted.free_eq (hs : Spaced (v.free t)) {t' : τ} {pre post : List PageRange} {pr : PageRange}
    {mem got : Nat} (h : Granted v t t' pre pr post mem got) :
    unitsOf (v.free t') = unitsOf (v.free t) \ Set.Ico mem (mem + got) := by
  have hfree : v.free t = pre.map PageRange.extent ++ pr.extent :: post.map PageRange.extent := by
    rw [AddrAvl.free, h.nodes, List.map_append, List.map_cons]
  have hone : ∀ x, tally (v.free t) x ≤ 1 := apart_iff_tally_le_one.mp <| hs.gaps.imp_of_mem
    fun {a b} ha hb hlt => (Extent.disjoint_units_iff (hs.filled a ha) (hs.filled b hb)).mpr (.inl hlt.le)
  ext x
  have hx := hone x
  have hfits : got ≤ pr.extent.len := h.fits
  have htrim := tally_trim (pre.map PageRange.extent) (post.map PageRange.extent) hfits x
  have hmem : mem = pr.extent.stop - got := h.start
  rw [← hfree, ← hmem, ← h.free, tally_cons] at htrim
  simp only [Extent.mem_units, Extent.stop] at htrim
  rw [Set.mem_sdiff, Set.mem_Ico, mem_unitsOf, mem_unitsOf]
  split_ifs at htrim <;> omega

section Choice

variable {vm : Vm} {pages : Nat} {flags : MemFlags}

/-- Without a boundary the last place with room is taken, and nothing only where there is none. -/
theorem highest_fit (hv : v.Lawful) (memset : ∀ a b, vm.sysMemset a b = 0) (hs : Spaced (v.free t))
    (sentinel : vm.noMem ∉ unitsOf (v.free t)) (pos : 0 < pages) (h16 : flags.lower16MB = false)
    (h1 : flags.lower1MB = false) (hfirst : flags.firstBlock = false) :
    ∃ mem got t', allocPages v vm pages flags t = .ok (mem, got, t') ∧
      (mem = vm.noMem ∧ t' = t ∧ (∀ b, ¬Room (unitsOf (v.free t)) pages b) ∨
        mem ≠ vm.noMem ∧ got = pages ∧ Room (unitsOf (v.free t)) pages mem ∧
          (∀ b, mem < b → ¬Room (unitsOf (v.free t)) pages b) ∧ Spaced (v.free t') ∧
          unitsOf (v.free t') = unitsOf (v.free t) \ Set.Ico mem (mem + pages)) := by
  have hlow : (flags.lower16MB || flags.lower1MB) = false := by rw [h16, h1]; rfl
  rcases allocPages_cases hv memset flags hs pos with
    ⟨halloc, why⟩ | ⟨pre, pr, post, mem, got, t', halloc, granted, hgot, hfit, -, small⟩
  · refine ⟨_, _, _, halloc, .inl ⟨rfl, rfl, fun b room => ?_⟩⟩
    obtain ⟨r, hr, hlo, hhi⟩ := (room_nodes hs pos).mp room
    rcases why with small | ⟨-, pr, -, -, -, -, hb⟩
    · have hlt := (small r hr).1
      omega
    · simp [beyond, h16, h1] at hb
  · obtain ⟨room, hstop⟩ := granted.room hs
    have hle : pages ≤ pr.size := by simpa [hfirst] using hfit
    obtain rfl : got = pages := by omega
    have hne : mem ≠ vm.noMem := by
      rintro rfl
      exact sentinel (room _ le_rfl (by omega))
    have hspaced : Spaced (v.free t') := by
      have hsplit : v.free t = pre.map PageRange.extent ++ pr.extent :: post.map PageRange.extent := by
        rw [AddrAvl.free, granted.nodes, List.map_append, List.map_cons]
      rw [granted.free]
      exact trim_spaced (hsplit ▸ hs) granted.fits
    refine ⟨mem, got, t', halloc, .inr ⟨hne, rfl, room, fun b hb room' => ?_, hspaced, granted.free_eq hs⟩⟩
    rw [hlow, if_neg (by simp)] at small
    obtain ⟨r, hr, hlo, hhi⟩ := (room_nodes hs pos).mp room'
    have hasc : Ascending (pre ++ pr :: post) := granted.nodes ▸ ascending_of_spaced hs
    rw [granted.nodes] at hr
    rcases List.mem_append.mp hr with hr | hr
    · have hgap : r.extent.stop < pr.extent.base := by
        have hgaps := (List.pairwise_append.mp (List.pairwise_map.mp hs.gaps |> fun h => granted.nodes ▸ h)).2.2
        exact hgaps r hr pr (by simp)
      simp only [extent_stop, extent_base] at hgap
      omega
    · rcases List.mem_cons.mp hr with rfl | hr
      · omega
      · have hlt := (small r hr).1
        omega

theorem highest_fit_in_two_ranges : ∃ mem got t',
    allocPages sortedList smallVm 8 {} [⟨16, 60⟩, ⟨100, 4⟩] = .ok (mem, got, t') ∧
      (mem = 0 ∧ t' = [⟨16, 60⟩, ⟨100, 4⟩] ∧ (∀ b, ¬Room (unitsOf [⟨16, 60⟩, ⟨100, 4⟩]) 8 b) ∨
        mem ≠ 0 ∧ got = 8 ∧ Room (unitsOf [⟨16, 60⟩, ⟨100, 4⟩]) 8 mem ∧
          (∀ b, mem < b → ¬Room (unitsOf [⟨16, 60⟩, ⟨100, 4⟩]) 8 b) ∧ Spaced (sortedList.free t') ∧
          unitsOf (sortedList.free t') = unitsOf [⟨16, 60⟩, ⟨100, 4⟩] \ Set.Ico mem (mem + 8)) :=
  highest_fit sortedList_lawful (fun _ _ => rfl) ⟨by simp [AddrAvl.free, sortedList, PageRange.extent,
    Extent.stop], by decide⟩ (mem_unitsOf.not.mpr (by decide)) (by decide) rfl rfl rfl

theorem room_behind (hs : Spaced (v.free t)) {pre post : List PageRange} {pr : PageRange}
    (nodes : v.nodes t = pre ++ pr :: post) (small : ∀ r ∈ pre, r.size < pages) (pos : 0 < pages) {b : Nat}
    (room : Room (unitsOf (v.free t)) pages b) : ∃ r ∈ v.nodes t, r.addr ≤ b ∧ b + pages ≤ r.addr + r.size ∧
      pr.addr ≤ r.addr ∧ pr.addr + pr.size ≤ r.addr + r.size := by
  obtain ⟨r, hr, hlo, hhi⟩ := (room_nodes hs pos).mp room
  have hgaps := List.pairwise_map.mp hs.gaps
  rw [nodes] at hgaps
  refine ⟨r, hr, hlo, hhi, ?_⟩
  rw [nodes] at hr
  rcases List.mem_append.mp hr with hr | hr
  · have hlt := small r hr
    omega
  · rcases List.mem_cons.mp hr with rfl | hr
    · exact ⟨le_rfl, le_rfl⟩
    · have hgap := (List.pairwise_cons.mp (List.pairwise_append.mp hgaps).2.1).1 r hr
      simp only [extent_stop, extent_base] at hgap
      omega

theorem stop_notMem (hs : Spaced (v.free t)) {pr : PageRange} (hpr : pr ∈ v.nodes t) :
    pr.addr + pr.size ∉ unitsOf (v.free t) := by
  rintro ⟨e, he, hx⟩
  rw [Extent.mem_units] at hx
  have hpr' : pr.extent ∈ v.free t := List.mem_map_of_mem hpr
  have hne : pr.extent ≠ e := by
    rintro rfl
    simp only [extent_stop] at hx
    omega
  rcases hs.apart hpr' he hne with hlt | hlt
  · simp only [extent_stop] at hlt
    omega
  · simp only [extent_base] at hlt
    omega

/-- A request for pages below a boundary looks at the lowest range with room for them, but takes the
pages off its end: it is refused only where there is no room below the boundary, and what it is
given lies below it only if that range ends there. -/
theorem lower_request_iff (hv : v.Lawful) (memset : ∀ a b, vm.sysMemset a b = 0) (hs : Spaced (v.free t))
    (sentinel : vm.noMem ∉ unitsOf (v.free t)) (pos : 0 < pages)
    (hlow : flags.lower16MB = true ∨ flags.lower1MB = true) (hfirst : flags.firstBlock = false) :
    ∃ mem got t', allocPages v vm pages flags t = .ok (mem, got, t') ∧
      (mem = vm.noMem ↔ ∀ b, Room (unitsOf (v.free t)) pages b → ¬Below vm flags (b + pages)) ∧
      (mem ≠ vm.noMem → (Below vm flags (mem + pages) ↔
        ∃ b x, Room (unitsOf (v.free t)) pages b ∧ b ≤ x ∧ x ∉ unitsOf (v.free t) ∧ Below vm flags x)) := by
  have hlow' : (flags.lower16MB || flags.lower1MB) = true := by simpa using hlow
  rcases allocPages_cases hv memset flags hs pos with
    ⟨halloc, why⟩ | ⟨pre, pr, post, mem, got, t', halloc, granted, hgot, hfit, hin, small⟩
  · refine ⟨_, _, _, halloc, iff_of_true rfl fun b room below => ?_, fun hne => absurd rfl hne⟩
    rcases why with small | ⟨pre, pr, post, hsplit, small, -, hb⟩
    · obtain ⟨r, hr, hlo, hhi⟩ := (room_nodes hs pos).mp room
      have hlt := (small r hr).1
      omega
    · have nodes : v.nodes t = pre ++ pr :: post := by rw [← hsplit, order, if_pos hlow']
      obtain ⟨r, -, hlo, -, hle, -⟩ := room_behind hs nodes (fun r hr => (small r hr).1) pos room
      have hin := beyond_eq_false_iff.mpr (below.mono (Nat.add_le_add_right (hle.trans hlo) pages))
      exact absurd (hin.symm.trans hb) (by decide)
  · obtain ⟨room, hstop⟩ := granted.room hs
    have hle : pages ≤ pr.size := by simpa [hfirst] using hfit
    obtain rfl : got = pages := by omega
    have hpr : pr ∈ v.nodes t := by simp [granted.nodes]
    have hne : mem ≠ vm.noMem := by
      rintro rfl
      exact sentinel (room _ le_rfl (by omega))
    have first : Room (unitsOf (v.free t)) got pr.addr := (room_nodes hs pos).mpr ⟨pr, hpr, le_rfl, by omega⟩
    rw [if_pos hlow'] at small
    refine ⟨mem, got, t', halloc, iff_of_false hne fun h => h pr.addr first (beyond_eq_false_iff.mp hin),
      fun _ => ⟨fun below => ?_, fun h => ?_⟩⟩
    · exact ⟨pr.addr, pr.addr + pr.size, first, Nat.le_add_right _ _, stop_notMem hs hpr, hstop ▸ below⟩
    · obtain ⟨b, x, room', hbx, hx, below⟩ := h
      obtain ⟨r, hr, hlo, hhi, -, hend⟩ :=
        room_behind hs granted.nodes (fun r hr => (small r hr).1) pos room'
      refine below.mono ?_
      by_contra hlt
      exact hx ⟨r.extent, List.mem_map_of_mem hr, Extent.mem_units.mpr
        ⟨by rw [extent_base]; omega, by rw [extent_stop]; omega⟩⟩

/-- Four pages below 1 MB of one range of 1000 pages: they come from its end, above 1 MB. -/
theorem lower_request_iff_in_one_range : ∃ mem got t',
    allocPages sortedList smallVm 4 { lower1MB := true } [⟨16, 1000⟩] = .ok (mem, got, t') ∧
      (mem = 0 ↔ ∀ b, Room (unitsOf [⟨16, 1000⟩]) 4 b → ¬Below smallVm { lower1MB := true } (b + 4)) ∧
      (mem ≠ 0 → (Below smallVm { lower1MB := true } (mem + 4) ↔
        ∃ b x, Room (unitsOf [⟨16, 1000⟩]) 4 b ∧ b ≤ x ∧ x ∉ unitsOf [⟨16, 1000⟩] ∧
          Below smallVm { lower1MB := true } x)) :=
  lower_request_iff sortedList_lawful (fun _ _ => rfl) (spaced_singleton (by decide))
    (by simp [unitsOf, AddrAvl.free, sortedList, PageRange.extent, Extent.mem_units, smallVm]) (by decide)
    (.inr rfl) rfl

end Choice

end Free

end Pages

end TcpAndParallel
