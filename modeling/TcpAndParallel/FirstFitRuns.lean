import TcpAndParallel.BestFitRuns
import TcpAndParallel.FitAgreement

namespace TcpAndParallel

/-- A block of which nothing may be left is given back. -/
def giveBack (e : Extent) (es : List Extent) : List Extent := if e.len = 0 then es else release e es

theorem tally_giveBack (e : Extent) (es : List Extent) (x : Nat) :
    tally (giveBack e es) x = tally (e :: es) x := by
  unfold giveBack
  split
  next h => exact (tally_cons_empty h es x).symm
  next => exact tally_release e es x

theorem giveBack_spaced {e : Extent} {es : List Extent}
    (away : 0 < e.len → ∀ h ∈ es, Disjoint e.units h.units) (hs : Spaced es) :
    Spaced (giveBack e es) := by
  unfold giveBack
  split
  next => exact hs
  next h => exact release_spaced (Nat.pos_of_ne_zero h) (away (Nat.pos_of_ne_zero h)) hs

theorem stop_of_mem_giveBack {e f : Extent} {es : List Extent} (hf : f ∈ giveBack e es) :
    f.stop = e.stop ∨ ∃ g ∈ es, f.stop = g.stop := by
  unfold giveBack at hf
  split at hf
  next => exact .inr ⟨f, hf, rfl⟩
  next =>
    obtain ⟨g, hg, he⟩ := stop_of_mem_release hf
    rcases List.mem_cons.mp hg with rfl | hg
    · exact .inl he
    · exact .inr ⟨g, hg, he⟩

theorem tally_carve (pre post : List Extent) {g : Extent} {p : Nat} (hp : p ≤ g.len) (x : Nat) :
    tally (⟨g.base, p⟩ :: carve pre g p post) x = tally (pre ++ g :: post) x := by
  rw [tally_split hp x, tally_cons, tally_cons, carve]
  split
  next h =>
    have hempty : (⟨g.base + p, g.len - p⟩ : Extent).len = 0 := by simp [h]
    rw [tally_append pre (_ :: post), tally_cons_empty hempty, tally_append]
  next => rfl

theorem Spaced.apart {es : List Extent} (h : Spaced es) {e f : Extent} (he : e ∈ es) (hf : f ∈ es)
    (hne : e ≠ f) : e.stop < f.base ∨ f.stop < e.base := by
  induction es with
  | nil => simp at he
  | cons g es ih =>
    obtain ⟨hg, -, hs⟩ := spaced_cons_iff.mp h
    rcases List.mem_cons.mp he with rfl | he'
    · rcases List.mem_cons.mp hf with rfl | hf'
      · exact absurd rfl hne
      · exact .inl (hg f hf')
    · rcases List.mem_cons.mp hf with rfl | hf'
      · exact .inr (hg e he')
      · exact ih hs he' hf'

def unitsOf (es : List Extent) : Set Nat := {x | ∃ e ∈ es, x ∈ e.units}

theorem mem_unitsOf {es : List Extent} {x : Nat} : x ∈ unitsOf es ↔ 0 < tally es x :=
  tally_pos_iff.symm

/-- There are `p` units in a row from `b` on. -/
def Room (units : Set Nat) (p b : Nat) : Prop := ∀ x, b ≤ x → x < b + p → x ∈ units

/-- As extents do not touch, units in a row belong to one of them. -/
theorem room_iff {es : List Extent} (h : Spaced es) {p b : Nat} (hp : 0 < p) :
    Room (unitsOf es) p b ↔ ∃ e ∈ es, e.base ≤ b ∧ b + p ≤ e.stop := by
  constructor
  · intro room
    obtain ⟨e, he, hb⟩ := room b le_rfl (by omega)
    rw [Extent.mem_units] at hb
    refine ⟨e, he, hb.1, ?_⟩
    by_contra hlt
    obtain ⟨f, hf, hx⟩ := room e.stop (by omega) (by omega)
    rw [Extent.mem_units] at hx
    have hne : e ≠ f := by
      rintro rfl
      omega
    rcases h.apart he hf hne with hlt | hlt <;> omega
  · rintro ⟨e, he, hlow, hhigh⟩ x hx hx'
    exact ⟨e, he, Extent.mem_units.mpr ⟨by omega, by omega⟩⟩

/-- From `b` on to the next multiple of `a`, which is everywhere where `a` is zero. -/
def gap (a b : Nat) : Nat := if b % a = 0 then 0 else a - b % a

theorem gap_zero (b : Nat) : gap 0 b = 0 := by
  unfold gap
  split <;> simp

theorem gap_le (a b : Nat) : gap a b ≤ a := by
  unfold gap
  split <;> omega

theorem gap_lt {a : Nat} (ha : 0 < a) (b : Nat) : gap a b < a := by
  unfold gap
  split
  · exact ha
  next h =>
    have := Nat.mod_lt b ha
    omega

namespace FirstFit

variable {n : Nat}

instance (m : Minix) (s : Ledger n) : DecidablePred (BestFit.InRange m s)
  | .alloc _ _ => inferInstanceAs (Decidable (_ < _))
  | .free _ _ => inferInstanceAs (Decidable True)

/-- What a call of `alloc_mem` comes to: nothing fits, there is no slot for the front of an aligned
block, or the front of the first fit is taken, and what lies before the aligned block given back. -/
theorem allocMem_taken {m : Minix} {clicks memflags : UInt32} {t : Table n} (h : WellFormed t)
    (sentinel : ∀ e ∈ t.holes, m.noMem.toNat ∉ e.units) (memset : ∀ a b, m.sysMemset a b = 0)
    {a p : Nat} (ha : a = (m.alignClicks memflags).toNat) (hp : p = clicks.toNat + a)
    (range : p < 2 ^ 32) :
    ((∀ f ∈ t.holes, f.len < p) ∧ allocMem m clicks memflags t = .ok (m.noMem, t)) ∨
    allocMem m clicks memflags t = .error .tableFull ∨
    ∃ pre f post base t', t.holes = pre ++ f :: post ∧ (∀ g ∈ pre, g.len < p) ∧ p ≤ f.len ∧
      base.toNat = f.base + gap a f.base ∧ base ≠ m.noMem ∧ (∃ hs fs, Threads t' hs fs) ∧
      t'.holes = giveBack ⟨f.base, gap a f.base⟩ (carve pre f p post) ∧
      allocMem m clicks memflags t = .ok (base, t') := by
  have hpad : (clicks + m.alignClicks memflags).toNat = p := by
    rw [UInt32.toNat_add, ← ha, ← hp]
    exact Nat.mod_eq_of_lt range
  obtain ⟨hs, fs, hth⟩ := h.threads
  rcases allocMem_cases hth (h.below hth) hpad.symm with
    hnone | ⟨pre, f, post, base, t₁, hs₁, fs₁, holes, small, fits, hbase, hth₁, -, -, holes₁, hrun⟩
  · exact .inl hnone
  have hfm : f ∈ t.holes := by simp [holes]
  have spaced : Spaced (pre ++ f :: post) := holes ▸ h.spaced
  have spaced₁ : Spaced t₁.holes := holes₁ ▸ carve_spaced spaced fits
  have hstop := h.stop f hfm
  have hpos := h.spaced.filled f hfm
  have hnoMem : ∀ b : UInt32, f.base ≤ b.toNat → b.toNat < f.stop → b ≠ m.noMem := by
    rintro b hlow hhigh rfl
    exact sentinel f hfm (Extent.mem_units.mpr ⟨hlow, hhigh⟩)
  simp only [Extent.stop] at hstop hnoMem
  rw [clearBlock_ok t₁ memset] at hrun
  replace hrun := hrun.trans (if_neg (hnoMem base hbase.ge (by omega)))
  generalize hcleared : (if memflags &&& m.pafClear ≠ 0 then
    [(m.clickSize * base, m.clickSize * (clicks + m.alignClicks memflags))] else []) ++ t₁.cleared =
      cleared at hrun
  have hth₂ : Threads { t₁ with cleared := cleared } hs₁ fs₁ :=
    ⟨hth₁.holes, hth₁.free, hth₁.apart, hth₁.all⟩
  have holes₂ : ({ t₁ with cleared := cleared } : Table n).holes = carve pre f p post := holes₁
  have hmod : (base % m.alignClicks memflags).toNat = f.base % a := by
    rw [UInt32.toNat_mod, hbase, ha]
  by_cases hal : m.alignClicks memflags = 0 ∨ base % m.alignClicks memflags = 0
  · have hgap : gap a f.base = 0 := by
      rcases hal with h0 | h0
      · rw [ha, h0]
        exact gap_zero f.base
      · rw [gap, if_pos (by rw [← hmod, h0]; rfl)]
    refine .inr (.inr ⟨pre, f, post, base, _, holes, small, fits, by rw [hgap, hbase]; rfl,
      hnoMem base hbase.ge (by omega), ⟨_, _, hth₂⟩, ?_, hrun.trans (alignBlock_aligned _ hal)⟩)
    rw [holes₂, hgap]
    rfl
  · obtain ⟨ha0, hmis⟩ := not_or.mp hal
    have hapos : 0 < a := ha ▸ UInt32.lt_iff_toNat_lt.mp (UInt32.pos_iff_ne_zero.mpr ha0)
    have hmis' : f.base % a ≠ 0 := by
      rwa [← hmod, ne_eq, ← UInt32.toNat_zero, UInt32.toNat_inj]
    have hlt := Nat.mod_lt f.base hapos
    have wf₂ : WellFormed { t₁ with cleared := cleared } := by
      refine ⟨⟨_, _, hth₂⟩, spaced₁, fun e he => ?_⟩
      obtain ⟨g, hg, heq⟩ := (mem_carve spaced fits (holes₂ ▸ he)).2
      exact heq ▸ h.stop g (holes ▸ hg)
    rcases alignBlock_cases hth₂ (wf₂.below hth₂) ha0 hmis (by omega) with
      ⟨-, he⟩ | ⟨-, e, t₃, hs₃, fs₃, he, hlen, hepos, hth₃, holes₃, -⟩
    · exact .inr (.inl (hrun.trans he))
    · rw [← ha, hbase] at hlen
      have hgap : gap a f.base = e.toNat := by rw [gap, if_neg hmis', hlen]
      have hmem : (base + e).toNat = f.base + e.toNat := by
        rw [UInt32.toNat_add, hbase, Nat.mod_eq_of_lt (by omega)]
      refine .inr (.inr ⟨pre, f, post, base + e, t₃, holes, small, fits, by rw [hgap, hmem],
        hnoMem _ (by omega) (by omega), ⟨_, _, hth₃⟩, ?_, hrun.trans he⟩)
      rw [holes₃, hbase, holes₂, hgap, giveBack, if_neg hepos.ne']

/-- The front of the hole `f` has gone to the block at `base` and to what is lost behind it. -/
structure Taken (s s' : Ledger n) (clicks : UInt32) (a p : Nat) (pre : List Extent) (f : Extent)
    (post : List Extent) (base : UInt32) : Prop where
  threads : ∃ hs fs, Threads s'.table hs fs
  holes : s.table.holes = pre ++ f :: post
  small : ∀ g ∈ pre, g.len < p
  fits : p ≤ f.len
  start : base.toNat = f.base + gap a f.base
  holes' : s'.table.holes = giveBack ⟨f.base, gap a f.base⟩ (carve pre f p post)
  live : s'.live = ⟨base, clicks⟩ :: s.live

/-- The invariant of a run: nothing overlaps, and all that there is comes from the chunks. -/
structure Within (chunks : List Memory) (s : Ledger n) : Prop where
  sound : s.Sound
  spaced : Spaced s.table.holes
  within : ∀ x, tally s.extents x ≤ tally (chunks.map Memory.extent) x

section Step

variable {m : Minix} {chunks : List Memory} {s s' : Ledger n} {clicks memflags base : UInt32} {a p : Nat}
  {pre post : List Extent} {f : Extent}

theorem Within.wellFormed (h : Within chunks s) : WellFormed s.table :=
  ⟨h.sound.threads, h.spaced, fun e he => h.sound.stop e (List.mem_append_left _ he)⟩

theorem Within.sentinel (h : Within chunks s) (sentinel : ∀ c ∈ chunks, m.noMem.toNat ∉ c.extent.units) :
    ∀ e ∈ s.table.holes, m.noMem.toNat ∉ e.units := by
  intro e he hx
  have hone := one_le_tally (List.mem_append_left (s.live.map Memory.extent) he) hx
  have hle := h.within m.noMem.toNat
  obtain ⟨whole, hm, hxw⟩ := tally_pos_iff.mp (hone.trans hle)
  obtain ⟨c, hc, rfl⟩ := List.mem_map.mp hm
  exact sentinel c hc hxw

theorem Within.serve_alloc (h : Within chunks s)
    (sentinel : ∀ c ∈ chunks, m.noMem.toNat ∉ c.extent.units) (memset : ∀ a b, m.sysMemset a b = 0)
    (ha : a = (m.alignClicks memflags).toNat) (hp : p = clicks.toNat + a) (range : p < 2 ^ 32)
    (lawful : Lawful m (allocMem m) s (.alloc clicks memflags)) :
    (∀ f ∈ s.table.holes, f.len < p) ∧ serve m (allocMem m) s (.alloc clicks memflags) = .ok s ∨
    ∃ s' pre f post base, serve m (allocMem m) s (.alloc clicks memflags) = .ok s' ∧
      Taken s s' clicks a p pre f post base := by
  rcases allocMem_taken h.wellFormed (h.sentinel sentinel) memset ha hp range with
    ⟨small, he⟩ | hfull | ⟨pre, f, post, base, t', holes, small, fits, hbase, hne, threads, holes', he⟩
  · refine .inl ⟨small, ?_⟩
    rw [serve, he]
    exact congrArg Except.ok (by simp)
  · exact absurd (by rw [serve, hfull]; rfl) lawful.2
  · refine .inr ⟨⟨t', ⟨base, clicks⟩ :: s.live⟩, pre, f, post, base, ?_, threads, holes, small, fits, hbase,
      holes', rfl⟩
    rw [serve, he]
    exact congrArg Except.ok (by simp [hne])

theorem Taken.tally (h : Taken s s' clicks a p pre f post base) (hp : p = clicks.toNat + a) (x : Nat) :
    tally s'.extents x + tally [⟨f.base + gap a f.base + clicks.toNat, a - gap a f.base⟩] x =
      tally s.extents x := by
  have hcarve := tally_carve pre post h.fits x
  have hgap := gap_le a f.base
  simp only [Ledger.extents, h.holes, h.holes', h.live, tally_append, tally_giveBack, List.map_cons] at hcarve ⊢
  rw [tally_cons] at hcarve
  simp only [tally_cons, tally_nil, Extent.mem_units, Extent.stop, Memory.extent, h.start] at hcarve ⊢
  split_ifs at hcarve ⊢ <;> omega

theorem Taken.spaced (h : Taken s s' clicks a p pre f post base) (hs : Spaced s.table.holes)
    (hp : p = clicks.toNat + a) : Spaced s'.table.holes := by
  have spaced : Spaced (pre ++ f :: post) := h.holes ▸ hs
  have hgap := gap_le a f.base
  rw [h.holes']
  exact giveBack_spaced (fun pos => carve_apart spaced h.fits rfl pos (by simp only; omega))
    (carve_spaced spaced h.fits)

theorem Taken.sound (h : Taken s s' clicks a p pre f post base) (hs : Within chunks s)
    (hp : p = clicks.toNat + a) : s'.Sound := by
  have hf : f ∈ s.table.holes := by simp [h.holes]
  have hstop := hs.sound.stop f (List.mem_append_left _ hf)
  have hgap := gap_le a f.base
  have hfits := h.fits
  simp only [Extent.stop] at hstop
  refine ⟨h.threads, fun e he => ?_⟩
  rcases List.mem_append.mp he with he | he
  · rw [h.holes'] at he
    rcases stop_of_mem_giveBack he with heq | ⟨g, hg, heq⟩
    · rw [heq]
      simp only [Extent.stop]
      omega
    · obtain ⟨g', hg', heq'⟩ := (mem_carve (h.holes ▸ hs.spaced) h.fits hg).2
      rw [heq, heq']
      exact hs.sound.stop g' (List.mem_append_left _ (h.holes ▸ hg'))
  · rw [h.live, List.map_cons] at he
    rcases List.mem_cons.mp he with rfl | he
    · have hbase := h.start
      simp only [Memory.extent, Extent.stop]
      omega
    · exact hs.sound.stop e (List.mem_append_right _ he)

theorem Taken.within (h : Taken s s' clicks a p pre f post base) (hs : Within chunks s)
    (hp : p = clicks.toNat + a) : Within chunks s' := by
  refine ⟨h.sound hs hp, h.spaced hs.spaced hp, fun x => ?_⟩
  have hx := h.tally hp x
  have hle := hs.within x
  omega

theorem Within.free (h : Within chunks s) (hc : Chunks chunks) {base clicks : UInt32}
    (lawful : Lawful m (allocMem m) s (.free base clicks)) :
    ∃ s', serve m (allocMem m) s (.free base clicks) = .ok s' ∧ Within chunks s' ∧
      ∀ x, TcpAndParallel.tally s'.extents x = TcpAndParallel.tally s.extents x := by
  obtain ⟨s', he, hs, htally, hsp⟩ := serve_free h.sound lawful
  have hone := apart_iff_tally_le_one.mp hc.apart
  exact ⟨s', he, ⟨hs, hsp h.spaced fun x => (h.within x).trans (hone x),
    fun x => (htally x).trans_le (h.within x)⟩, htally⟩

theorem boot_within (hc : Chunks chunks) (room : memInit n chunks ≠ .error .tableFull) :
    ∃ s : Ledger n, boot n chunks = .ok s ∧ Within chunks s ∧
      ∀ x, TcpAndParallel.tally s.extents x = TcpAndParallel.tally (chunks.map Memory.extent) x := by
  obtain ⟨s, hs, sound, spaced, htally⟩ := boot_spec hc room
  exact ⟨s, hs, ⟨sound, spaced, fun x => (htally x).le⟩, htally⟩

end Step

/-- All assertions of `holes_sanity_f` hold, no hole is empty, and the holes and the blocks handed out
are disjoint parts of the chunks. -/
structure Sane (chunks : List Memory) (s : Ledger n) : Prop where
  asserts : ∃ t, holesSanityF s.table = .ok t
  filled : ∀ e ∈ s.table.holes, 0 < e.len
  apart : s.extents.Pairwise fun a b => Disjoint a.units b.units
  part : ∀ e ∈ s.extents, ∀ x ∈ e.units, ∃ c ∈ chunks, x ∈ c.extent.units

theorem Within.sane {chunks : List Memory} {s : Ledger n} (h : Within chunks s) (hc : Chunks chunks) :
    Sane chunks s := by
  obtain ⟨hs, fs, hth⟩ := h.sound.threads
  have hone := apart_iff_tally_le_one.mp hc.apart
  refine ⟨holesSanityF_ok hth (h.sound.below hth) (hth.holes_eq ▸ h.spaced.gaps), h.spaced.filled,
    apart_iff_tally_le_one.mpr fun x => (h.within x).trans (hone x), fun e he x hx => ?_⟩
  obtain ⟨whole, hm, hxw⟩ := tally_pos_iff.mp ((one_le_tally he hx).trans (h.within x))
  obtain ⟨c, hc, rfl⟩ := List.mem_map.mp hm
  exact ⟨c, hc, hxw⟩

theorem Within.keeps {m : Minix} {chunks : List Memory} {s : Ledger n} {r : Request}
    (h : Within chunks s) (hc : Chunks chunks)
    (sentinel : ∀ c ∈ chunks, m.noMem.toNat ∉ c.extent.units) (memset : ∀ a b, m.sysMemset a b = 0)
    (lawful : Lawful m (allocMem m) s r) (range : BestFit.InRange m s r) :
    ∃ s', serve m (allocMem m) s r = .ok s' ∧ Within chunks s' := by
  cases r with
  | free base clicks =>
    obtain ⟨s', he, hs, -⟩ := h.free hc lawful
    exact ⟨s', he, hs⟩
  | alloc clicks memflags =>
    rcases h.serve_alloc sentinel memset rfl rfl range lawful with
      ⟨-, he⟩ | ⟨s', pre, f, post, base, he, taken⟩
    · exact ⟨s, he, h⟩
    · exact ⟨s', he, taken.within h rfl⟩

/-- The hole table of the first fit stays sane in every run. -/
theorem sane_upheld {m : Minix} {chunks : List Memory} (hc : Chunks chunks)
    (room : memInit n chunks ≠ .error .tableFull)
    (sentinel : ∀ c ∈ chunks, m.noMem.toNat ∉ c.extent.units) (memset : ∀ a b, m.sysMemset a b = 0) :
    ∃ s, boot n chunks = .ok s ∧ ∀ rs, Meets (serve m (allocMem m)) (Lawful m (allocMem m)) s rs →
      Meets (serve m (allocMem m)) (BestFit.InRange m) s rs →
        Upholds (serve m (allocMem m)) (Sane chunks) s rs := by
  obtain ⟨s, hs, first, -⟩ := boot_within hc room
  exact ⟨s, hs, fun rs lawful range => upholds_of_meets (fun _ h => h.sane hc)
    (fun _ _ h hl => h.keeps hc sentinel memset hl.1 hl.2) first (lawful.and range)⟩

theorem sane_upheld_in_one_chunk : ∃ s : Ledger 512, boot 512 [⟨16, 60⟩] = .ok s ∧
    Upholds (serve pc (allocMem pc)) (Sane [⟨16, 60⟩]) s [.alloc 8 0, .alloc 3 4, .free 16 8] := by
  obtain ⟨s, hs, h⟩ := @sane_upheld 512 pc [⟨16, 60⟩] ⟨by simp, by decide⟩ (by decide) (by decide)
    (fun _ _ => rfl)
  obtain rfl := Except.ok.inj hs
  exact ⟨_, rfl, h _ (by decide) (by decide)⟩

/-- A request that is not aligned, or that is not met. -/
def Lossless (m : Minix) (s : Ledger n) : Request → Prop
  | .alloc clicks memflags => memflags &&& m.pafAlign64k = 0 ∨
      ∀ h ∈ s.table.holes, h.len < clicks.toNat + (m.alignClicks memflags).toNat
  | .free _ _ => True

instance (m : Minix) (s : Ledger n) : DecidablePred (Lossless m s)
  | .alloc _ _ => inferInstanceAs (Decidable (_ ∨ _))
  | .free _ _ => inferInstanceAs (Decidable True)

structure Whole (chunks : List Memory) (s : Ledger n) : Prop extends Within chunks s where
  same : ∀ x, tally s.extents x = tally (chunks.map Memory.extent) x

section Conservation

variable {m : Minix} {chunks : List Memory} {s s' : Ledger n} {r : Request}

theorem Whole.keeps (h : Whole chunks s) (hc : Chunks chunks)
    (sentinel : ∀ c ∈ chunks, m.noMem.toNat ∉ c.extent.units) (memset : ∀ a b, m.sysMemset a b = 0)
    (lawful : Lawful m (allocMem m) s r) (range : BestFit.InRange m s r) (lossless : Lossless m s r) :
    ∃ s', serve m (allocMem m) s r = .ok s' ∧ Whole chunks s' := by
  cases r with
  | free base clicks =>
    obtain ⟨s', he, hs, htally⟩ := h.toWithin.free hc lawful
    exact ⟨s', he, hs, fun x => (htally x).trans (h.same x)⟩
  | alloc clicks memflags =>
    rcases h.toWithin.serve_alloc sentinel memset rfl rfl range lawful with
      ⟨-, he⟩ | ⟨s', pre, f, post, base, he, taken⟩
    · exact ⟨s, he, h⟩
    · refine ⟨s', he, taken.within h.toWithin rfl, fun x => ?_⟩
      have hzero : (m.alignClicks memflags).toNat = 0 := by
        rcases lossless with flag | small
        · rw [alignClicks_eq_zero_iff.mpr flag]
          rfl
        · have hlt := small f (by simp [taken.holes])
          have hfits := taken.fits
          omega
      have hx := taken.tally rfl x
      have hempty := gap_le (m.alignClicks memflags).toNat f.base
      rw [tally_cons_empty (by simp only; omega), tally_nil] at hx
      rw [← h.same x]
      omega

/-- Behind an aligned block there is always a click that nobody gets back. -/
theorem lossless_of_same (h : Within chunks s)
    (sentinel : ∀ c ∈ chunks, m.noMem.toNat ∉ c.extent.units) (memset : ∀ a b, m.sysMemset a b = 0)
    (lawful : Lawful m (allocMem m) s r) (range : BestFit.InRange m s r)
    (he : serve m (allocMem m) s r = .ok s') (same : ∀ x, tally s'.extents x = tally s.extents x) :
    Lossless m s r := by
  cases r with
  | free base clicks => trivial
  | alloc clicks memflags =>
    rcases h.serve_alloc sentinel memset rfl rfl range lawful with
      ⟨small, -⟩ | ⟨t, pre, f, post, base, ht, taken⟩
    · exact .inr small
    · obtain rfl : t = s' := by simpa [ht] using he
      left
      by_contra flag
      have hpos : 0 < (m.alignClicks memflags).toNat := by
        have hne := mt alignClicks_eq_zero_iff.mp flag
        exact UInt32.lt_iff_toNat_lt.mp (UInt32.pos_iff_ne_zero.mpr hne)
      have hlt := gap_lt hpos f.base
      have hx := taken.tally rfl (f.base + gap (m.alignClicks memflags).toNat f.base + clicks.toNat)
      rw [same, tally_cons, if_pos (Extent.mem_units.mpr ⟨le_rfl, by simp only [Extent.stop]; omega⟩)] at hx
      omega

end Conservation

def held (s : Ledger n) : Set Nat := unitsOf s.extents

/-- The clicks behind a block at `base` that were taken for its alignment from `b` on. -/
def behind (m : Minix) (clicks memflags : UInt32) (b : Nat) (base : UInt32) : Set Nat :=
  Set.Ico (base.toNat + clicks.toNat) (b + (clicks.toNat + (m.alignClicks memflags).toNat))

/-- What a request takes away: the clicks behind the block, of which there are some where it is
aligned, and nothing else. -/
def Loses (m : Minix) (s : Ledger n) : Request → Ledger n → Prop
  | .alloc clicks memflags, s' => s' = s ∨ ∃ b base, base.toNat = b + gap (m.alignClicks memflags).toNat b ∧
      s'.live = ⟨base, clicks⟩ :: s.live ∧ behind m clicks memflags b base ⊆ held s ∧
      (memflags &&& m.pafAlign64k ≠ 0 → (behind m clicks memflags b base).Nonempty) ∧
      held s' = held s \ behind m clicks memflags b base
  | .free _ _, s' => held s' = held s

section Loss

variable {m : Minix} {chunks : List Memory} {s s' : Ledger n} {r : Request}

theorem Taken.loses {clicks memflags base : UInt32} {a p : Nat} {pre post : List Extent} {f : Extent}
    (h : Taken s s' clicks a p pre f post base) (ha : a = (m.alignClicks memflags).toNat)
    (hp : p = clicks.toNat + a) (one : ∀ x, TcpAndParallel.tally s.extents x ≤ 1) :
    Loses m s (.alloc clicks memflags) s' := by
  subst ha
  have hstart := h.start
  have hgap := gap_le (m.alignClicks memflags).toNat f.base
  have hmem : ∀ x, x ∈ behind m clicks memflags f.base base ↔
      0 < TcpAndParallel.tally [⟨f.base + gap (m.alignClicks memflags).toNat f.base + clicks.toNat,
        (m.alignClicks memflags).toNat - gap (m.alignClicks memflags).toNat f.base⟩] x := by
    intro x
    simp only [behind, Set.mem_Ico, tally_cons, tally_nil, Extent.mem_units, Extent.stop, h.start]
    split_ifs <;> omega
  refine .inr ⟨f.base, base, h.start, h.live, fun x hx => ?_, fun flag => ?_, ?_⟩
  · have htally := h.tally hp x
    have hpos := (hmem x).mp hx
    exact mem_unitsOf.mpr (by omega)
  · have hpos : 0 < (m.alignClicks memflags).toNat := by
      have hne := mt alignClicks_eq_zero_iff.mp flag
      exact UInt32.lt_iff_toNat_lt.mp (UInt32.pos_iff_ne_zero.mpr hne)
    have hlt := gap_lt hpos f.base
    exact Set.nonempty_Ico.mpr (by omega)
  · ext x
    have htally := h.tally hp x
    have hone := one x
    rw [Set.mem_sdiff, hmem, held, held, mem_unitsOf, mem_unitsOf]
    omega

theorem Within.loses (h : Within chunks s) (hc : Chunks chunks)
    (sentinel : ∀ c ∈ chunks, m.noMem.toNat ∉ c.extent.units) (memset : ∀ a b, m.sysMemset a b = 0)
    (lawful : Lawful m (allocMem m) s r) (range : BestFit.InRange m s r) :
    ∃ s', serve m (allocMem m) s r = .ok s' ∧ Loses m s r s' ∧ Within chunks s' := by
  cases r with
  | free base clicks =>
    obtain ⟨s', he, hs, htally⟩ := h.free hc lawful
    refine ⟨s', he, Set.ext fun x => ?_, hs⟩
    rw [held, held, mem_unitsOf, mem_unitsOf, htally]
  | alloc clicks memflags =>
    rcases h.serve_alloc sentinel memset rfl rfl range lawful with
      ⟨-, he⟩ | ⟨s', pre, f, post, base, he, taken⟩
    · exact ⟨s, he, .inl rfl, h⟩
    · have hone : ∀ x, tally s.extents x ≤ 1 := fun x =>
        (h.within x).trans (apart_iff_tally_le_one.mp hc.apart x)
      exact ⟨s', he, taken.loses rfl rfl hone, taken.within h rfl⟩

theorem Loses.subset (h : Loses m s r s') : held s' ⊆ held s := by
  cases r with
  | free base clicks => exact le_of_eq h
  | alloc clicks memflags =>
    obtain rfl | ⟨b, base, -, -, -, -, he⟩ := h
    · exact Set.Subset.rfl
    · rw [he]
      exact Set.sdiff_subset

end Loss

/-- Memory is conserved in the runs in which no aligned request is met, and in no others: such a
request loses the clicks behind its block, and what is lost is lost for the rest of the run. -/
theorem conserved_iff_lossless {m : Minix} {chunks : List Memory} (hc : Chunks chunks)
    (room : memInit n chunks ≠ .error .tableFull)
    (sentinel : ∀ c ∈ chunks, m.noMem.toNat ∉ c.extent.units) (memset : ∀ a b, m.sysMemset a b = 0) :
    ∃ s, boot n chunks = .ok s ∧ ∀ rs, Meets (serve m (allocMem m)) (Lawful m (allocMem m)) s rs →
      Meets (serve m (allocMem m)) (BestFit.InRange m) s rs →
        (Upholds (serve m (allocMem m)) (BestFit.Conserved chunks) s rs ↔
          Meets (serve m (allocMem m)) (Lossless m) s rs) ∧
        Follows (serve m (allocMem m)) (Loses m) s rs ∧
        ∀ before after t u, rs = before ++ after → before.foldlM (serve m (allocMem m)) s = .ok t →
          after.foldlM (serve m (allocMem m)) t = .ok u → ∀ x, x ∉ held t → x ∉ held u := by
  obtain ⟨s, hs, within, htally⟩ := boot_within hc room
  have first : Whole chunks s := ⟨within, htally⟩
  refine ⟨s, hs, fun rs lawful range => ?_⟩
  have follows : Follows (serve m (allocMem m)) (Loses m) s rs := follows_of_meets
    (fun _ _ h hl => h.loses hc sentinel memset hl.1 hl.2) within (lawful.and range)
  refine ⟨⟨fun kept => ?_, fun lossless => ?_⟩, follows, fun before after t u he ht hu x hx => ?_⟩
  · refine meets_of_upholds
      (fun _ _ h hl fit => h.keeps hc sentinel memset hl.1 hl.2 fit) (fun s r s' h hl he kept => ?_)
      first (lawful.and range) kept
    exact lossless_of_same h.toWithin sentinel memset hl.1 hl.2 he fun x =>
      ((tiles_iff_tally hc.apart).mp kept x).trans (h.same x).symm
  · exact upholds_of_meets (fun _ h => (tiles_iff_tally hc.apart).mpr h.same)
      (fun _ _ h hl => h.keeps hc sentinel memset hl.1.1 hl.1.2 hl.2) first
      ((lawful.and range).and lossless)
  · have hsub : held u ⊆ held t := Follows.last (Q := fun s t => held t ⊆ held s)
      (fun _ => Set.Subset.rfl) (fun _ _ _ hst htu => htu.trans hst) (fun _ _ _ h => Loses.subset h)
      (Follows.append (he ▸ follows) ht) hu
    exact fun hu => hx (hsub hu)

/-- The request for three clicks at a multiple of sixteen loses those from 35 to 43, and they are not
there when the block has been freed. -/
theorem conserved_iff_lossless_in_one_chunk : ∃ s : Ledger 512, boot 512 [⟨16, 60⟩] = .ok s ∧
    ¬Upholds (serve pc (allocMem pc)) (BestFit.Conserved [⟨16, 60⟩]) s
      [.alloc 8 0, .alloc 3 4, .free 32 3] ∧
    ∃ t, [.alloc 8 0, .alloc 3 4, .free 32 3].foldlM (serve pc (allocMem pc)) s = .ok t ∧
      35 ∉ held t := by
  obtain ⟨s, hs, h⟩ := @conserved_iff_lossless 512 pc [⟨16, 60⟩] ⟨by simp, by decide⟩ (by decide)
    (by decide) (fun _ _ => rfl)
  obtain rfl := Except.ok.inj hs
  obtain ⟨hiff, -, hlost⟩ := h [.alloc 8 0, .alloc 3 4, .free 32 3] (by decide) (by decide)
  refine ⟨_, rfl, fun kept => absurd (hiff.mp kept) (by decide), _, rfl, ?_⟩
  refine hlost [.alloc 8 0, .alloc 3 4] [.free 32 3] _ _ rfl rfl rfl 35 ?_
  rw [held, mem_unitsOf]
  decide

/-- First fit on the set of the free clicks: a block is taken where there is room for it first, and
refused where there is none; the clicks before an aligned block stay free, and those behind it that
were taken for the alignment are gone. -/
inductive LowestFit (m : Minix) : Set Nat × List Memory → Request → Set Nat × List Memory → Prop
  | refused {free : Set Nat} {live : List Memory} {clicks memflags : UInt32}
      (full : ∀ b, ¬Room free (clicks.toNat + (m.alignClicks memflags).toNat) b) :
      LowestFit m (free, live) (.alloc clicks memflags) (free, live)
  | taken {free : Set Nat} {live : List Memory} {clicks memflags : UInt32} (b : Nat) (base : UInt32)
      (room : Room free (clicks.toNat + (m.alignClicks memflags).toNat) b)
      (lowest : ∀ c < b, ¬Room free (clicks.toNat + (m.alignClicks memflags).toNat) c)
      (start : base.toNat = b + gap (m.alignClicks memflags).toNat b) :
      LowestFit m (free, live) (.alloc clicks memflags)
        (free \ Set.Ico b (b + (clicks.toNat + (m.alignClicks memflags).toNat)) ∪ Set.Ico b base.toNat,
          ⟨base, clicks⟩ :: live)
  | free {free : Set Nat} {live : List Memory} {base clicks : UInt32} (owned : ⟨base, clicks⟩ ∈ live) :
      LowestFit m (free, live) (.free base clicks)
        (free ∪ Set.Ico base.toNat (base.toNat + clicks.toNat), live.erase ⟨base, clicks⟩)

def memory (s : Ledger n) : Set Nat × List Memory := (unitsOf s.table.holes, s.live)

def Positive (_ : Ledger n) : Request → Prop
  | .alloc clicks _ => 0 < clicks
  | .free _ _ => True

instance (s : Ledger n) : DecidablePred (Positive s)
  | .alloc _ _ => inferInstanceAs (Decidable (_ < _))
  | .free _ _ => inferInstanceAs (Decidable True)

section Refinement

variable {m : Minix} {chunks : List Memory} {s s' : Ledger n} {clicks memflags base : UInt32} {a p : Nat}
  {pre post : List Extent} {f : Extent} {r : Request}

theorem Taken.lowest (h : Taken s s' clicks a p pre f post base) (hs : Spaced s.table.holes)
    (hp : 0 < p) : Room (unitsOf s.table.holes) p f.base ∧
      ∀ c < f.base, ¬Room (unitsOf s.table.holes) p c := by
  have hf : f ∈ s.table.holes := by simp [h.holes]
  have hfits := h.fits
  refine ⟨(room_iff hs hp).mpr ⟨f, hf, le_rfl, by simp only [Extent.stop]; omega⟩, fun c hc room => ?_⟩
  obtain ⟨e, he, hlow, hhigh⟩ := (room_iff hs hp).mp room
  rw [h.holes] at he hs
  obtain ⟨-, htail, -⟩ := List.pairwise_append.mp hs.gaps
  simp only [Extent.stop] at hhigh
  rcases List.mem_append.mp he with he | he
  · have hsmall := h.small e he
    omega
  · rcases List.mem_cons.mp he with rfl | he
    · omega
    · have hgap := (List.pairwise_cons.mp htail).1 e he
      simp only [Extent.stop] at hgap
      omega

theorem Taken.free_eq (h : Taken s s' clicks a p pre f post base)
    (one : ∀ x, TcpAndParallel.tally s.table.holes x ≤ 1) :
    unitsOf s'.table.holes =
      unitsOf s.table.holes \ Set.Ico f.base (f.base + p) ∪ Set.Ico f.base base.toNat := by
  ext x
  have hcarve := tally_carve pre post h.fits x
  have hone := one x
  rw [h.holes] at hone
  rw [Set.mem_union, Set.mem_sdiff, Set.mem_Ico, Set.mem_Ico, mem_unitsOf, mem_unitsOf, h.holes',
    tally_giveBack, h.holes, h.start]
  rw [tally_cons] at hcarve ⊢
  simp only [Extent.mem_units, Extent.stop] at hcarve ⊢
  split_ifs at hcarve ⊢ <;> omega

theorem free_units (hp : ⟨base, clicks⟩ ∈ s.live) (hlive : s'.live = s.live.erase ⟨base, clicks⟩)
    (same : ∀ x, TcpAndParallel.tally s'.extents x = TcpAndParallel.tally s.extents x) :
    unitsOf s'.table.holes =
      unitsOf s.table.holes ∪ Set.Ico base.toNat (base.toNat + clicks.toNat) := by
  ext x
  have hperm := tally_perm ((List.perm_cons_erase hp).map Memory.extent) x
  have hx := same x
  simp only [Ledger.extents, hlive, tally_append, List.map_cons] at hx hperm
  rw [hperm, tally_cons] at hx
  rw [Set.mem_union, Set.mem_Ico, mem_unitsOf, mem_unitsOf]
  simp only [Extent.mem_units, Extent.stop, Memory.extent] at hx
  split_ifs at hx <;> omega

theorem Within.lowestFit (h : Within chunks s) (hc : Chunks chunks)
    (sentinel : ∀ c ∈ chunks, m.noMem.toNat ∉ c.extent.units) (memset : ∀ a b, m.sysMemset a b = 0)
    (lawful : Lawful m (allocMem m) s r) (range : BestFit.InRange m s r) (positive : Positive s r) :
    ∃ s', serve m (allocMem m) s r = .ok s' ∧ LowestFit m (memory s) r (memory s') ∧
      Within chunks s' := by
  cases r with
  | free base clicks =>
    obtain ⟨s', he, hs, htally⟩ := h.free hc lawful
    have hlive : s'.live = s.live.erase ⟨base, clicks⟩ := by
      rw [serve] at he
      obtain ⟨t, -, rfl⟩ : ∃ t, freeMem base clicks s.table = .ok t ∧
          (⟨t, s.live.erase ⟨base, clicks⟩⟩ : Ledger n) = s' := by
        cases hfree : freeMem base clicks s.table with
        | error e => simp [hfree, Except.map] at he
        | ok t => exact ⟨t, rfl, by simpa [hfree, Except.map] using he⟩
      rfl
    refine ⟨s', he, ?_, hs⟩
    rw [memory, memory, free_units lawful.1 hlive htally, hlive]
    exact .free lawful.1
  | alloc clicks memflags =>
    have hclicks : 0 < clicks.toNat := UInt32.lt_iff_toNat_lt.mp positive
    have hpos : 0 < clicks.toNat + (m.alignClicks memflags).toNat := by omega
    rcases h.serve_alloc sentinel memset rfl rfl range lawful with
      ⟨small, he⟩ | ⟨s', pre, f, post, base, he, taken⟩
    · refine ⟨s, he, .refused fun b room => ?_, h⟩
      obtain ⟨e, hm, hlow, hhigh⟩ := (room_iff h.spaced hpos).mp room
      have hsmall := small e hm
      simp only [Extent.stop] at hhigh
      omega
    · obtain ⟨room, lowest⟩ := taken.lowest h.spaced hpos
      have hone : ∀ x, TcpAndParallel.tally s.table.holes x ≤ 1 := fun x => by
        have hle := (h.within x).trans (apart_iff_tally_le_one.mp hc.apart x)
        simp only [Ledger.extents, tally_append] at hle
        omega
      refine ⟨s', he, ?_, taken.within h rfl⟩
      rw [memory, memory, taken.free_eq hone, taken.live]
      exact .taken f.base base room lowest taken.start

end Refinement

/-- In every run the first fit on the hole table does what first fit on the free clicks does. -/
theorem refines_lowest_fit {m : Minix} {chunks : List Memory} (hc : Chunks chunks)
    (room : memInit n chunks ≠ .error .tableFull)
    (sentinel : ∀ c ∈ chunks, m.noMem.toNat ∉ c.extent.units) (memset : ∀ a b, m.sysMemset a b = 0) :
    ∃ s, boot n chunks = .ok s ∧ ∀ rs, Meets (serve m (allocMem m)) (Lawful m (allocMem m)) s rs →
      Meets (serve m (allocMem m)) (BestFit.InRange m) s rs →
        Meets (serve m (allocMem m)) Positive s rs →
          Follows (serve m (allocMem m)) (fun s r s' => LowestFit m (memory s) r (memory s')) s rs := by
  obtain ⟨s, hs, first, -⟩ := boot_within hc room
  exact ⟨s, hs, fun rs lawful range positive => follows_of_meets
    (fun _ _ h hl => h.lowestFit hc sentinel memset hl.1.1 hl.1.2 hl.2) first
    ((lawful.and range).and positive)⟩

theorem refines_lowest_fit_in_one_chunk : ∃ s : Ledger 512, boot 512 [⟨16, 60⟩] = .ok s ∧
    Follows (serve pc (allocMem pc)) (fun s r s' => LowestFit pc (memory s) r (memory s')) s
      [.alloc 8 0, .alloc 3 4, .free 16 8] := by
  obtain ⟨s, hs, h⟩ := @refines_lowest_fit 512 pc [⟨16, 60⟩] ⟨by simp, by decide⟩ (by decide) (by decide)
    (fun _ _ => rfl)
  obtain rfl := Except.ok.inj hs
  exact ⟨_, rfl, h _ (by decide) (by decide) (by decide)⟩

end FirstFit

end TcpAndParallel
