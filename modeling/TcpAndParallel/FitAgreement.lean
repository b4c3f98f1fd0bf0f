import TcpAndParallel.FirstFit
import TcpAndParallel.Ledger

namespace TcpAndParallel

variable {n : Nat}

structure WellFormed (t : Table n) : Prop where
  threads : ∃ hs fs, Threads t hs fs
  spaced : Spaced t.holes
  stop : ∀ e ∈ t.holes, e.stop < 2 ^ 32

theorem WellFormed.below {t : Table n} (h : WellFormed t) {hs fs : List (Fin n)}
    (hth : Threads t hs fs) : t.Below hs := by
  intro i hi
  refine h.stop _ ?_
  rw [hth.holes_eq]
  exact List.mem_map_of_mem hi

def Succeeds (m : Minix) (r : Except Fault (UInt32 × Table n)) : Prop :=
  ∃ base t, r = .ok (base, t) ∧ base ≠ m.noMem

/-- What a caller of `alloc_mem` may rely on when the block at `base` is returned. -/
structure Grants (m : Minix) (clicks memflags : UInt32) (t : Table n) (base : UInt32)
    (t' : Table n) : Prop where
  inside : ∃ h ∈ t.holes, h.base ≤ base.toNat ∧ base.toNat + clicks.toNat ≤ h.stop
  removed : ∀ h ∈ t'.holes, 0 < h.len
  aligned : memflags &&& m.pafAlign64k ≠ 0 → base % (64 * 1024 / m.clickSize) = 0
  cleared : memflags &&& m.pafClear ≠ 0 → ∃ new, t'.cleared = new ++ t.cleared ∧
    ∃ start len : UInt32, (m.clickSize * start, m.clickSize * len) ∈ new ∧
      start.toNat ≤ base.toNat ∧ base.toNat + clicks.toNat ≤ start.toNat + len.toNat

/-- The best fit returns, hands out a block where the first fit does, and grants the same. -/
def Agrees (m : Minix) (clicks memflags : UInt32) (t : Table n) : Prop :=
  ∃ base t', BestFit.allocMem m clicks memflags t = .ok (base, t') ∧
    (base ≠ m.noMem ↔ Succeeds m (FirstFit.allocMem m clicks memflags t)) ∧
    (base ≠ m.noMem → Grants m clicks memflags t base t')

/-- A request that the smallest fitting hole exceeds, by less than `int` can hold, without
clearing; if it is to be aligned, that hole is aligned and the first fit does not run out
of slots. -/
def PlainFit (m : Minix) (clicks memflags : UInt32) (t : Table n) : Prop :=
  let a := (m.alignClicks memflags).toNat
  let p := clicks.toNat + a
  p < 2 ^ 32 ∧ memflags &&& m.pafClear = 0 ∧
    ∃ pre g post, t.holes = pre ++ g :: post ∧ p < g.len ∧ g.len < p + 2 ^ 31 ∧
      (∀ f ∈ pre, p ≤ f.len → g.len < f.len) ∧ (∀ f ∈ post, p ≤ f.len → g.len ≤ f.len) ∧
      (a ≠ 0 → g.base % a = 0 ∧
        (t.freeSlots ≠ none ∨ ∀ f, t.holes.find? (fun f => p ≤ f.len) = some f → f.base % a = 0))

theorem Grants.of_part {m : Minix} {clicks memflags base mem padded : UInt32} {t t' : Table n}
    {f : Extent} (hf : f ∈ t.holes) (fits : padded.toNat ≤ f.len) (hbase : base.toNat = f.base)
    (low : base.toNat ≤ mem.toNat) (high : mem.toNat + clicks.toNat ≤ base.toNat + padded.toNat)
    (removed : ∀ h ∈ t'.holes, 0 < h.len)
    (aligned : memflags &&& m.pafAlign64k ≠ 0 → mem % (64 * 1024 / m.clickSize) = 0)
    (hcl : t'.cleared = (if memflags &&& m.pafClear ≠ 0 then
      [(m.clickSize * base, m.clickSize * padded)] else []) ++ t.cleared) :
    Grants m clicks memflags t mem t' := by
  refine ⟨⟨f, hf, hbase ▸ low, by simp only [Extent.stop]; omega⟩, removed, aligned, fun flag => ?_⟩
  rw [if_pos flag] at hcl
  exact ⟨_, hcl, base, padded, by simp, low, high⟩

theorem carve_apart {pre post : List Extent} {f e : Extent} {p : Nat}
    (h : Spaced (pre ++ f :: post)) (fits : p ≤ f.len) (he : e.base = f.base) (pos : 0 < e.len)
    (le : e.len ≤ p) : ∀ g ∈ carve pre f p post, Disjoint e.units g.units := by
  intro g hg
  have hgpos := (carve_spaced h fits).filled g hg
  have hside := (mem_carve h fits hg).1
  rw [Extent.disjoint_units_iff pos hgpos]
  simp only [Extent.stop] at *
  omega

theorem align_up {b a : Nat} (ha : 0 < a) : (b + (a - b % a)) % a = 0 := by
  have hlt := Nat.mod_lt b ha
  have hd := Nat.div_add_mod b a
  have : b + (a - b % a) = a * (b / a + 1) := by
    rw [Nat.mul_add]
    omega
  rw [this, Nat.mul_mod_right]

theorem FirstFit.allocMem_cleared {m : Minix} {clicks memflags : UInt32} {t : Table n}
    (h : WellFormed t) (sentinel : ∀ e ∈ t.holes, m.noMem.toNat ∉ e.units)
    (memset : ∀ a b, m.sysMemset a b = 0) {p : Nat} (hp : p = (clicks + m.alignClicks memflags).toNat)
    (pos : 0 < p) :
    ((∀ f ∈ t.holes, f.len < p) ∧ FirstFit.allocMem m clicks memflags t = .ok (m.noMem, t)) ∨
    ∃ pre f post base t' hs' fs', t.holes = pre ++ f :: post ∧ (∀ g ∈ pre, g.len < p) ∧
      p ≤ f.len ∧ base.toNat = f.base ∧ Threads t' hs' fs' ∧
      (fs' = [] ↔ f.len ≠ p ∧ t.freeSlots = none) ∧ t'.holes = carve pre f p post ∧
      t'.cleared = (if memflags &&& m.pafClear ≠ 0 then
        [(m.clickSize * base, m.clickSize * (clicks + m.alignClicks memflags))] else []) ++ t.cleared ∧
      FirstFit.allocMem m clicks memflags t = alignBlock (m.alignClicks memflags) base t' := by
  obtain ⟨hs, fs, hth⟩ := h.threads
  have hfree : t.freeSlots = none ↔ fs = [] := by
    rw [hth.free.head_eq, List.head?_eq_none_iff]
  rcases FirstFit.allocMem_cases hth (h.below hth) hp with
    hnone | ⟨pre, f, post, base, t₁, hs₁, fs₁, holes, small, fits, hbase, hth₁, hcl₁, hslots, holes₁,
      hrun⟩
  · exact .inl hnone
  · have hne : base ≠ m.noMem := by
      rintro rfl
      refine sentinel f (by simp [holes]) (Extent.mem_units.mpr ⟨hbase.ge, ?_⟩)
      simp only [Extent.stop]
      omega
    refine .inr ⟨pre, f, post, base, { t₁ with cleared := (if memflags &&& m.pafClear ≠ 0 then
      [(m.clickSize * base, m.clickSize * (clicks + m.alignClicks memflags))] else []) ++ t.cleared },
      hs₁, fs₁, holes, small, fits, hbase, ⟨hth₁.holes, hth₁.free, hth₁.apart, hth₁.all⟩,
      by rw [hslots, hfree], holes₁, rfl, ?_⟩
    rw [hrun, clearBlock_ok t₁ memset, hcl₁]
    exact if_neg hne

/-- What a call of the first fit comes to: nothing fits, the panic for want of a slot, or a
block with all that is promised. -/
theorem FirstFit.allocMem_outcome {m : Minix} {clicks memflags : UInt32} {t : Table n}
    (h : WellFormed t) (sentinel : ∀ e ∈ t.holes, m.noMem.toNat ∉ e.units)
    (memset : ∀ a b, m.sysMemset a b = 0) (pos : 0 < clicks)
    {a p : Nat} (ha : a = (m.alignClicks memflags).toNat) (hp : p = clicks.toNat + a)
    (range : p < 2 ^ 32) :
    ((∀ f ∈ t.holes, f.len < p) ∧ FirstFit.allocMem m clicks memflags t = .ok (m.noMem, t)) ∨
    ∃ f ∈ t.holes.find? (fun f => p ≤ f.len),
      (a ≠ 0 ∧ f.base % a ≠ 0 ∧ f.len ≠ p ∧ t.freeSlots = none ∧
        FirstFit.allocMem m clicks memflags t = .error .tableFull) ∨
      ((a = 0 ∨ f.base % a = 0 ∨ f.len = p ∨ t.freeSlots ≠ none) ∧
        ∃ base t', FirstFit.allocMem m clicks memflags t = .ok (base, t') ∧ base ≠ m.noMem ∧
          Grants m clicks memflags t base t') := by
  have hpad : (clicks + m.alignClicks memflags).toNat = p := by
    rw [UInt32.toNat_add, ← ha, ← hp]
    exact Nat.mod_eq_of_lt range
  have hpos : 0 < clicks.toNat := UInt32.lt_iff_toNat_lt.mp pos
  rcases FirstFit.allocMem_cleared h sentinel memset hpad.symm (by omega) with
    hnone | ⟨pre, f, post, base, t₁, hs₁, fs₁, holes, small, fits, hbase, hth₁, hslots, holes₁, hcl₁,
      hrun⟩
  · exact .inl hnone
  · have hf : t.holes.find? (fun f => p ≤ f.len) = some f := by
      rw [holes, List.find?_append, List.find?_eq_none.mpr (fun g hg => by simpa using small g hg)]
      simp [fits]
    have hfm : f ∈ t.holes := by simp [holes]
    have spaced : Spaced (pre ++ f :: post) := holes ▸ h.spaced
    have spaced₁ : Spaced t₁.holes := holes₁ ▸ carve_spaced spaced fits
    have hstop := h.stop f hfm
    have hnoMem : ∀ b : UInt32, f.base ≤ b.toNat → b.toNat < f.stop → b ≠ m.noMem := by
      rintro b hlow hhigh rfl
      exact sentinel f hfm (Extent.mem_units.mpr ⟨hlow, hhigh⟩)
    simp only [Extent.stop] at hstop hnoMem
    have hflag : memflags &&& m.pafAlign64k ≠ 0 → m.alignClicks memflags = 64 * 1024 / m.clickSize :=
      fun hflag => if_pos hflag
    have hmod : (base % m.alignClicks memflags).toNat = f.base % a := by
      rw [UInt32.toNat_mod, hbase, ha]
    refine .inr ⟨f, hf, ?_⟩
    by_cases hal : m.alignClicks memflags = 0 ∨ base % m.alignClicks memflags = 0
    · refine .inr ⟨?_, base, t₁, hrun.trans (alignBlock_aligned t₁ hal),
        hnoMem base (by omega) (by omega), ?_⟩
      · rcases hal with h0 | h0
        · exact .inl (by rw [ha, h0]; rfl)
        · exact .inr (.inl (by rw [← hmod, h0]; rfl))
      · refine Grants.of_part hfm (hpad ▸ fits) hbase le_rfl (by omega) spaced₁.filled (fun flag => ?_) hcl₁
        rw [← hflag flag]
        rcases hal with h0 | h0
        · exact absurd (alignClicks_eq_zero_iff.mp h0) flag
        · exact h0
    · obtain ⟨ha0, hmis⟩ := not_or.mp hal
      have hapos : 0 < a := ha ▸ UInt32.lt_iff_toNat_lt.mp (UInt32.pos_iff_ne_zero.mpr ha0)
      have hmis' : f.base % a ≠ 0 := by
        rwa [← hmod, ne_eq, ← UInt32.toNat_zero, UInt32.toNat_inj]
      have hlt := Nat.mod_lt f.base hapos
      have wf₁ : WellFormed t₁ := by
        refine ⟨⟨_, _, hth₁⟩, spaced₁, fun e he => ?_⟩
        obtain ⟨g, hg, heq⟩ := (mem_carve spaced fits (holes₁ ▸ he)).2
        exact heq ▸ h.stop g (holes ▸ hg)
      rcases alignBlock_cases hth₁ (wf₁.below hth₁) ha0 hmis (by omega) with
        ⟨hfull, he⟩ | ⟨hroom, e, t₂, hs₂, fs₂, he, hlen, hepos, -, holes₂, hcl₂⟩
      · obtain ⟨hex, hfree⟩ := hslots.mp hfull
        exact .inl ⟨hapos.ne', hmis', hex, hfree, hrun.trans he⟩
      · rw [← ha, hbase] at hlen
        have hmem : (base + e).toNat = f.base + e.toNat := by
          rw [UInt32.toNat_add, hbase, Nat.mod_eq_of_lt (by omega)]
        refine .inr ⟨?_, base + e, t₂, hrun.trans he, hnoMem _ (by omega) (by omega), ?_⟩
        · by_cases hex : f.len = p
          · exact .inr (.inr (.inl hex))
          · exact .inr (.inr (.inr fun hfree => hroom (hslots.mpr ⟨hex, hfree⟩)))
        · refine Grants.of_part hfm (hpad ▸ fits) hbase (by omega) (by omega) ?_ (fun flag => ?_)
            (hcl₂.trans hcl₁)
          · have hle : e.toNat ≤ p := by omega
            rw [holes₂, holes₁]
            exact (release_spaced hepos (carve_apart spaced fits hbase hepos hle) (holes₁ ▸ spaced₁)).filled
          · rw [← hflag flag, ← UInt32.toNat_inj, UInt32.toNat_mod, hmem, ← ha, hlen]
            exact align_up hapos

theorem first_least_unique {es pre pre' post post' : List Extent} {g g' : Extent} {p : Nat}
    (h : es = pre ++ g :: post) (h' : es = pre' ++ g' :: post') (fits : p ≤ g.len) (fits' : p ≤ g'.len)
    (before : ∀ f ∈ pre, p ≤ f.len → g.len < f.len) (after : ∀ f ∈ post, p ≤ f.len → g.len ≤ f.len)
    (before' : ∀ f ∈ pre', p ≤ f.len → g'.len < f.len)
    (after' : ∀ f ∈ post', p ≤ f.len → g'.len ≤ f.len) : pre = pre' ∧ g = g' ∧ post = post' := by
  rcases List.append_eq_append_iff.mp (h.symm.trans h') with ⟨as, hp, hq⟩ | ⟨as, hp, hq⟩
  · cases as with
    | nil => simp_all
    | cons a as =>
      obtain ⟨rfl, hpost⟩ := List.cons.inj hq
      have h1 := before' g (by simp [hp]) fits
      have h2 := after g' (by simp [hpost]) fits'
      omega
  · cases as with
    | nil => simp_all
    | cons a as =>
      obtain ⟨rfl, hpost⟩ := List.cons.inj hq
      have h1 := before g' (by simp [hp]) fits'
      have h2 := after' g (by simp [hpost]) fits
      omega

theorem alignClicks_le (m : Minix) (memflags : UInt32) : (m.alignClicks memflags).toNat ≤ 64 * 1024 := by
  rw [Minix.alignClicks]
  split
  next =>
    rw [UInt32.toNat_div]
    exact Nat.div_le_self _ _
  next => simp

theorem padded_cases (m : Minix) (clicks memflags : UInt32) :
    clicks.toNat + (m.alignClicks memflags).toNat < 2 ^ 32 ∧
      (clicks + m.alignClicks memflags).toNat = clicks.toNat + (m.alignClicks memflags).toNat ∨
    2 ^ 32 ≤ clicks.toNat + (m.alignClicks memflags).toNat ∧
      (clicks + m.alignClicks memflags).toNat + 2 ^ 32 = clicks.toNat + (m.alignClicks memflags).toNat := by
  have := clicks.toNat_lt
  have := (m.alignClicks memflags).toNat_lt
  rw [UInt32.toNat_add]
  omega

theorem padded_of_inside {m : Minix} {clicks memflags : UInt32} {t : Table n} {g f : Extent}
    (h : WellFormed t) (pos : 0 < clicks) (hg : g ∈ t.holes) (hf : f ∈ t.holes)
    (near : g.len - (clicks + m.alignClicks memflags).toNat < 2 ^ 31) (low : f.base ≤ g.base)
    (high : g.base + clicks.toNat ≤ f.stop) :
    clicks.toNat + (m.alignClicks memflags).toNat < 2 ^ 32 ∧
      (clicks + m.alignClicks memflags).toNat = clicks.toNat + (m.alignClicks memflags).toNat := by
  refine (padded_cases m clicks memflags).resolve_right fun ⟨hover, hpad⟩ => ?_
  have hpos := UInt32.lt_iff_toNat_lt.mp pos
  have hle := alignClicks_le m memflags
  have hgpos := h.spaced.filled g hg
  have hx : g.base ∈ g.units := Extent.mem_units.mpr ⟨le_rfl, by simp only [Extent.stop]; omega⟩
  obtain rfl := h.spaced.eq_of_mem hf hg (Extent.mem_units.mpr ⟨low, by simp at hpos; omega⟩) hx
  simp only [Extent.stop] at high
  omega

theorem WellFormed.base_ne {t : Table n} {m : Minix} (h : WellFormed t)
    (sentinel : ∀ e ∈ t.holes, m.noMem.toNat ∉ e.units) {g : Extent} (hg : g ∈ t.holes) {base : UInt32}
    (hbase : base.toNat = g.base) : base ≠ m.noMem := by
  rintro rfl
  have := h.spaced.filled g hg
  exact sentinel g hg (Extent.mem_units.mpr ⟨hbase.ge, by simp only [Extent.stop]; omega⟩)

theorem plainFit_of_agrees {m : Minix} {clicks memflags : UInt32} {t : Table n}
    (h : WellFormed t) (sentinel : ∀ e ∈ t.holes, m.noMem.toNat ∉ e.units)
    (memset : ∀ a b, m.sysMemset a b = 0) (pos : 0 < clicks) (agrees : Agrees m clicks memflags t) :
    PlainFit m clicks memflags t := by
  have hpos : 0 < clicks.toNat := UInt32.lt_iff_toNat_lt.mp pos
  obtain ⟨hs, fs, hth⟩ := h.threads
  obtain ⟨base, t', he, succeeds, grants⟩ := agrees
  rcases @BestFit.allocMem_holes n m clicks memflags t hs fs hth (h.below hth) _ rfl with
    ⟨-, hf⟩ | ⟨pre, g, post, base', holes, fits, hbase, before, after,
      ⟨-, hf⟩ | ⟨near, t₁, ht, hth', holes', hcl⟩⟩
  · simp [hf] at he
  · simp [hf] at he
  · obtain ⟨rfl, rfl⟩ : base' = base ∧ t₁ = t' := by simpa [ht] using he
    have hg : g ∈ t.holes := by simp [holes]
    have hne := h.base_ne sentinel hg hbase
    obtain ⟨⟨f, hf, low, high⟩, removed, aligned, cleared⟩ := grants hne
    obtain ⟨range, hpad⟩ := padded_of_inside h pos hg hf near (hbase ▸ low) (hbase ▸ high)
    rw [hpad] at fits near before after holes'
    have hlt := removed _ (holes' ▸ List.mem_append_right pre List.mem_cons_self)
    simp only at hlt
    have least := least_of_split holes (fun f hf hfit => (before f hf hfit).1) after
    refine ⟨range, ?_, pre, g, post, holes, by omega, by omega,
      fun f hf hfit => (before f hf hfit).2 (by omega), after, fun ha => ⟨?_, ?_⟩⟩
    · by_contra hclear
      obtain ⟨new, hnew, start, len, hm, -⟩ := cleared hclear
      obtain rfl : new = [] := by simpa [hcl] using hnew
      simp at hm
    · have hflag : memflags &&& m.pafAlign64k ≠ 0 := by
        intro h0
        exact ha (by rw [alignClicks_eq_zero_iff.mpr h0]; rfl)
      have hmod := congrArg UInt32.toNat (aligned hflag)
      rwa [UInt32.toNat_mod, hbase, ← show m.alignClicks memflags = _ from if_pos hflag] at hmod
    · refine or_iff_not_imp_left.mpr fun hfull f hf => ?_
      have hfm := List.mem_of_find?_eq_some hf
      have hfit : clicks.toNat + (m.alignClicks memflags).toNat ≤ f.len := by
        simpa using List.find?_some hf
      obtain ⟨base, t₂, hok, -⟩ := succeeds.mp hne
      rcases FirstFit.allocMem_outcome h sentinel memset pos rfl rfl range with
        ⟨small, -⟩ | ⟨f', hf', ⟨-, -, -, -, hpanic⟩ | ⟨hcase, -⟩⟩
      · have := small f hfm
        omega
      · simp [hpanic] at hok
      · obtain rfl : f = f' := by simpa [hf] using hf'
        have := least f hfm hfit
        rcases hcase with h0 | h0 | h0 | h0
        · exact absurd h0 ha
        · exact h0
        · omega
        · exact absurd h0 hfull

theorem agrees_of_plainFit {m : Minix} {clicks memflags : UInt32} {t : Table n}
    (h : WellFormed t) (sentinel : ∀ e ∈ t.holes, m.noMem.toNat ∉ e.units)
    (memset : ∀ a b, m.sysMemset a b = 0) (pos : 0 < clicks) (plain : PlainFit m clicks memflags t) :
    Agrees m clicks memflags t := by
  have hpos : 0 < clicks.toNat := UInt32.lt_iff_toNat_lt.mp pos
  obtain ⟨hs, fs, hth⟩ := h.threads
  obtain ⟨range, hclear, pre, g, post, holes, hlt, near, before, after, halign⟩ := plain
  have hpad : (clicks + m.alignClicks memflags).toNat = clicks.toNat + (m.alignClicks memflags).toNat := by
    rw [UInt32.toNat_add]
    exact Nat.mod_eq_of_lt range
  have hg : g ∈ t.holes := by simp [holes]
  rcases BestFit.allocMem_holes hth (h.below hth) hpad.symm with
    ⟨small, -⟩ | ⟨pre', g', post', base, holes', fits', hbase, before', after', res⟩
  · have := small g hg
    omega
  · obtain ⟨rfl, rfl, rfl⟩ := first_least_unique holes holes' hlt.le fits' before after
      (fun f hf hfit => (before' f hf hfit).2 (by omega)) after'
    rcases res with ⟨hbig, -⟩ | ⟨-, t', he, -, hholes, hcl⟩
    · omega
    · have hne := h.base_ne sentinel hg hbase
      have hremoved : ∀ e ∈ t'.holes, 0 < e.len := by
        rw [hholes]
        exact ((holes ▸ h.spaced).bite hlt).filled
      refine ⟨base, t', he, ⟨fun _ => ?_, fun _ => hne⟩, fun _ => ?_⟩
      · rcases FirstFit.allocMem_outcome h sentinel memset pos rfl rfl range with
          ⟨small, -⟩ | ⟨f, hf, ⟨ha, hmis, -, hfull, -⟩ | ⟨-, base', t₂, hok, hne', -⟩⟩
        · have := small g hg
          omega
        · rcases (halign ha).2 with hroom | haligned
          · exact absurd hfull hroom
          · exact absurd (haligned f hf) hmis
        · exact ⟨base', t₂, hok, hne'⟩
      · refine Grants.of_part hg (hpad ▸ hlt.le) hbase le_rfl (by omega) hremoved (fun flag => ?_) ?_
        · have ha := mt alignClicks_eq_zero_iff.mp flag
          have ha' : (m.alignClicks memflags).toNat ≠ 0 := by
            rwa [ne_eq, ← UInt32.toNat_zero, UInt32.toNat_inj]
          rw [← show m.alignClicks memflags = _ from if_pos flag, ← UInt32.toNat_inj,
            UInt32.toNat_mod, hbase]
          exact (halign ha').1
        · simp [hclear, hcl]

/-- The two versions agree on a call exactly when it is a plain fit. -/
theorem agrees_iff_plainFit {m : Minix} {clicks memflags : UInt32} {t : Table n}
    (h : WellFormed t) (sentinel : ∀ e ∈ t.holes, m.noMem.toNat ∉ e.units)
    (memset : ∀ a b, m.sysMemset a b = 0) (pos : 0 < clicks) :
    Agrees m clicks memflags t ↔ PlainFit m clicks memflags t :=
  ⟨plainFit_of_agrees h sentinel memset pos, agrees_of_plainFit h sentinel memset pos⟩

theorem memInit_wellFormed {chunks : List Memory} (hc : Chunks chunks)
    (room : memInit n chunks ≠ .error .tableFull) :
    ∃ t, memInit n chunks = .ok t ∧ WellFormed t := by
  obtain ⟨t, hs, fs, ht, hth, below, -, spaced⟩ := memInit_spec hc room
  refine ⟨t, ht, ⟨hs, fs, hth⟩, hth.holes_eq ▸ spaced, ?_⟩
  rw [hth.holes_eq]
  exact below.extents_stop

theorem agrees_in_one_chunk : ∃ t : Table 512, memInit 512 [⟨16, 8⟩] = .ok t ∧ Agrees pc 3 0 t := by
  obtain ⟨t, ht, hwf⟩ := @memInit_wellFormed 512 [⟨16, 8⟩] ⟨by simp, by decide⟩ (by decide)
  obtain rfl := Except.ok.inj ht
  refine ⟨_, rfl, (agrees_iff_plainFit hwf (by decide) (fun _ _ => rfl) (by decide)).mpr ?_⟩
  exact ⟨by decide, by decide, [], ⟨16, 8⟩, [], by decide, by decide, by decide, by simp, by simp, by decide⟩

theorem clearing_is_skipped : ∃ t : Table 512, memInit 512 [⟨16, 8⟩] = .ok t ∧ WellFormed t ∧
    ¬Agrees pc 3 1 t := by
  obtain ⟨t, ht, hwf⟩ := @memInit_wellFormed 512 [⟨16, 8⟩] ⟨by simp, by decide⟩ (by decide)
  obtain rfl := Except.ok.inj ht
  refine ⟨_, rfl, hwf, ?_⟩
  rintro ⟨base, t', he, -, grants⟩
  obtain ⟨rfl, rfl⟩ := Prod.mk.inj (Except.ok.inj he)
  obtain ⟨new, hnew, start, len, hm, -⟩ := (grants (by decide)).cleared (by decide)
  obtain rfl : new = [] := (List.append_eq_nil_iff.mp hnew.symm).1
  simp at hm

end TcpAndParallel
