import TcpAndParallel.HoleSanity
import TcpAndParallel.Ledger

namespace TcpAndParallel

namespace BestFit

variable {n : Nat}

def handedOut (m : Minix) (base clicks : UInt32) : List Memory :=
  if base = m.noMem then [] else [⟨base, clicks⟩]

theorem handedOut_within {m : Minix} {base clicks : UInt32} {k : Nat} (hbase : base.toNat = k)
    {b : Memory} (hb : b ∈ handedOut m base clicks) :
    b.extent.base = k ∧ b.extent.len = clicks.toNat := by
  simp only [handedOut] at hb
  split at hb
  next => simp at hb
  next =>
    rw [List.mem_singleton.mp hb]
    exact ⟨hbase, rfl⟩

theorem handedOut_tally_le {m : Minix} {base clicks : UInt32} {k p : Nat} (hbase : base.toNat = k)
    (hp : clicks.toNat ≤ p) (x : Nat) :
    tally ((handedOut m base clicks).map Memory.extent) x ≤ tally [⟨k, p⟩] x := by
  simp only [handedOut]
  split
  next => simp
  next =>
    simp only [List.map_cons, List.map_nil, tally_cons, tally_nil, Extent.mem_units, Extent.stop,
      Memory.extent, hbase]
    split_ifs <;> omega

/-- A request of `alloc_mem` meets the smallest hole that fits, which loses its front, or
the call reads an unassigned variable. -/
theorem serve_alloc_cases {m : Minix} {clicks memflags : UInt32} {s : Ledger n} (h : s.Sound)
    {p : Nat} (hp : p = (clicks + m.alignClicks memflags).toNat) :
    ((∀ g ∈ s.table.holes, g.len < p) ∧
      serve m (allocMem m) s (.alloc clicks memflags) = .error .unset) ∨
    ∃ pre g post base, s.table.holes = pre ++ g :: post ∧ p ≤ g.len ∧ base.toNat = g.base ∧
      (∀ f ∈ pre, p ≤ f.len → g.len ≤ f.len) ∧ (∀ f ∈ post, p ≤ f.len → g.len ≤ f.len) ∧
      (2 ^ 31 ≤ g.len - p ∧ serve m (allocMem m) s (.alloc clicks memflags) = .error .unset ∨
        g.len - p < 2 ^ 31 ∧ ∃ s', serve m (allocMem m) s (.alloc clicks memflags) = .ok s' ∧
          (∃ hs fs, Threads s'.table hs fs) ∧
          s'.table.holes = pre ++ ⟨g.base + p, g.len - p⟩ :: post ∧
          s'.live = handedOut m base clicks ++ s.live) := by
  obtain ⟨hs, fs, hth⟩ := h.threads
  rcases allocMem_holes hth (h.below hth) hp with
    ⟨small, he⟩ | ⟨pre, g, post, base, holes, fits, hbase, before, after, res⟩
  · exact .inl ⟨small, by rw [serve, he]; rfl⟩
  · refine .inr ⟨pre, g, post, base, holes, fits, hbase, fun f hf hfit => (before f hf hfit).1, after, ?_⟩
    rcases res with ⟨hbig, he⟩ | ⟨hnear, t', he, hth', holes', -⟩
    · exact .inl ⟨hbig, by rw [serve, he]; rfl⟩
    · refine .inr ⟨hnear, _, by rw [serve, he]; rfl, ⟨hs, fs, hth'⟩, holes', ?_⟩
      simp only [handedOut]
      split <;> rfl

def InRange (m : Minix) (_ : Ledger n) : Request → Prop
  | .alloc clicks memflags => clicks.toNat + (m.alignClicks memflags).toNat < 2 ^ 32
  | .free _ _ => True

theorem padded_toNat {m : Minix} {clicks memflags : UInt32} {s : Ledger n}
    (h : InRange m s (.alloc clicks memflags)) :
    (clicks + m.alignClicks memflags).toNat = clicks.toNat + (m.alignClicks memflags).toNat := by
  rw [UInt32.toNat_add]
  exact Nat.mod_eq_of_lt h

theorem bite_sound {s s' : Ledger n} {pre post : List Extent} {g : Extent} {p : Nat}
    {given : List Memory} (h : s.Sound) (fits : p ≤ g.len)
    (threads : ∃ hs fs, Threads s'.table hs fs) (holes : s.table.holes = pre ++ g :: post)
    (holes' : s'.table.holes = pre ++ ⟨g.base + p, g.len - p⟩ :: post)
    (live : s'.live = given ++ s.live) (stop : ∀ b ∈ given, b.extent.stop < 2 ^ 32) : s'.Sound := by
  refine ⟨threads, fun e he => ?_⟩
  have old : ∀ f ∈ pre ++ g :: post, f.stop < 2 ^ 32 := fun f hf =>
    h.stop f (List.mem_append_left _ (holes ▸ hf))
  rcases List.mem_append.mp he with he | he
  · rw [holes'] at he
    rcases List.mem_append.mp he with he | he
    · exact old e (by simp [he])
    · rcases List.mem_cons.mp he with rfl | he
      · have := old g (by simp)
        simp only [Extent.stop] at *
        omega
      · exact old e (by simp [he])
  · obtain ⟨b, hb, rfl⟩ := List.mem_map.mp he
    rw [live] at hb
    rcases List.mem_append.mp hb with hb | hb
    · exact stop b hb
    · exact h.stop _ (List.mem_append_right _ (List.mem_map_of_mem hb))

theorem bite_tally {s s' : Ledger n} {pre post : List Extent} {g : Extent} {p : Nat}
    {given : List Memory} (fits : p ≤ g.len) (holes : s.table.holes = pre ++ g :: post)
    (holes' : s'.table.holes = pre ++ ⟨g.base + p, g.len - p⟩ :: post)
    (live : s'.live = given ++ s.live) (x : Nat) :
    tally s'.extents x + tally [⟨g.base, p⟩] x =
      tally s.extents x + tally (given.map Memory.extent) x := by
  have hs := @tally_split pre post g p fits x
  rw [tally_cons] at hs
  simp only [Ledger.extents, holes, holes', live, List.map_append, tally_append, tally_cons, tally_nil] at hs ⊢
  omega

/-- Every assertion of `holes_sanity_f` holds and no hole is empty. -/
structure HolesSane (s : Ledger n) : Prop where
  asserts : ∃ t, holesSanityF s.table = .ok t
  filled : ∀ e ∈ s.table.holes, 0 < e.len

/-- A request that some hole exceeds, by less than `int` can hold, and that no hole meets
exactly. -/
def StrictFit (m : Minix) (s : Ledger n) : Request → Prop
  | .alloc clicks memflags =>
    let p := clicks.toNat + (m.alignClicks memflags).toNat
    p < 2 ^ 32 ∧ (∃ h ∈ s.table.holes, p < h.len ∧ h.len < p + 2 ^ 31) ∧
      ∀ h ∈ s.table.holes, h.len ≠ p
  | .free _ _ => True

instance (m : Minix) (s : Ledger n) : DecidablePred (StrictFit m s)
  | .alloc _ _ => inferInstanceAs (Decidable (_ < _ ∧ _ ∧ _))
  | .free _ _ => inferInstanceAs (Decidable True)

/-- The invariant behind `HolesSane`: the holes are spaced and nothing overlaps, live
blocks included. -/
structure Spread (s : Ledger n) : Prop where
  sound : s.Sound
  spaced : Spaced s.table.holes
  once : ∀ x, tally s.extents x ≤ 1

theorem Spread.holesSane {s : Ledger n} (h : Spread s) : HolesSane s := by
  obtain ⟨hs, fs, hth⟩ := h.sound.threads
  exact ⟨holesSanityF_ok hth (h.sound.below hth) (hth.holes_eq ▸ h.spaced.gaps), h.spaced.filled⟩

theorem Spread.keeps {m : Minix} {s : Ledger n} {r : Request} (h : Spread s)
    (lawful : Lawful m (allocMem m) s r) (fit : StrictFit m s r) :
    ∃ s', serve m (allocMem m) s r = .ok s' ∧ Spread s' := by
  cases r with
  | free base clicks =>
    obtain ⟨s', he, hs, htally, hsp⟩ := serve_free h.sound lawful
    exact ⟨s', he, hs, hsp h.spaced h.once, fun x => htally x ▸ h.once x⟩
  | alloc clicks memflags =>
    obtain ⟨range, ⟨f, hf, hlt, hnear⟩, exact⟩ := fit
    rcases serve_alloc_cases h.sound (padded_toNat (s := s) range).symm with
      ⟨small, -⟩ | ⟨pre, g, post, base, holes, fits, hbase, before, after, res⟩
    · have := small f hf
      omega
    · have hne := exact g (by simp [holes])
      have hleast := least_of_split holes before after f hf hlt.le
      rcases res with ⟨hbig, -⟩ | ⟨-, s', he, threads, holes', live⟩
      · omega
      · refine ⟨s', he, bite_sound h.sound fits threads holes holes' live fun b hb => ?_, ?_, fun x => ?_⟩
        · have := handedOut_within hbase hb
          have hstop : g.stop < 2 ^ 32 := h.sound.stop g (List.mem_append_left _ (by simp [holes]))
          simp only [Extent.stop] at *
          omega
        · rw [holes']
          exact Spaced.bite (holes ▸ h.spaced) (by omega)
        · have hx := bite_tally fits holes holes' live x
          have hle := handedOut_tally_le (m := m) hbase
            (Nat.le_add_right clicks.toNat (m.alignClicks memflags).toNat) x
          have hone := h.once x
          omega

theorem strictFit_of_holesSane {m : Minix} {s s' : Ledger n} {r : Request} (h : s.Sound)
    (range : InRange m s r) (he : serve m (allocMem m) s r = .ok s')
    (sane : HolesSane s') : StrictFit m s r := by
  cases r with
  | free base clicks => trivial
  | alloc clicks memflags =>
    rcases serve_alloc_cases h (padded_toNat range).symm with
      ⟨-, hf⟩ | ⟨pre, g, post, base, holes, fits, -, before, after, ⟨-, hf⟩ | ⟨hnear, t, ht, -, holes', -⟩⟩
    · simp [hf] at he
    · simp [hf] at he
    · obtain rfl : t = s' := by simpa [ht] using he
      have hpos := sane.filled _ (holes' ▸ List.mem_append_right pre List.mem_cons_self)
      simp only at hpos
      refine ⟨range, ⟨g, by simp [holes], by omega, by omega⟩, fun f hf hexact => ?_⟩
      have hle := least_of_split holes before after f hf hexact.ge
      omega

/-- The sanity checks hold throughout a run in which every request exceeds no hole exactly;
where no length overflows, they hold in no other run. -/
theorem holesSane_of_strictFit {m : Minix} {chunks : List Memory} (hc : Chunks chunks)
    (room : memInit n chunks ≠ .error .tableFull) :
    ∃ s, boot n chunks = .ok s ∧ ∀ rs, Meets (serve m (allocMem m)) (Lawful m (allocMem m)) s rs →
      (Meets (serve m (allocMem m)) (StrictFit m) s rs →
        Upholds (serve m (allocMem m)) HolesSane s rs) ∧
      (Meets (serve m (allocMem m)) (InRange m) s rs →
        Upholds (serve m (allocMem m)) HolesSane s rs →
        Meets (serve m (allocMem m)) (StrictFit m) s rs) := by
  obtain ⟨s, hs, sound, spaced, htally⟩ := boot_spec hc room
  have first : Spread s := ⟨sound, spaced, fun x => htally x ▸ apart_iff_tally_le_one.mp hc.apart x⟩
  refine ⟨s, hs, fun rs lawful => ⟨fun fit => ?_, fun range sane => ?_⟩⟩
  · exact upholds_of_meets (fun _ => Spread.holesSane) (fun _ _ h hc => h.keeps hc.1 hc.2) first (lawful.and fit)
  · exact meets_of_upholds (fun _ _ h hl fit => h.keeps hl.1 fit)
      (fun _ _ _ h hl he sane => strictFit_of_holesSane h.sound hl.2 he sane) first (lawful.and range) sane

theorem holesSane_in_one_chunk : ∃ s : Ledger 512, boot 512 [⟨16, 8⟩] = .ok s ∧
    Upholds (serve pc (allocMem pc)) HolesSane s [.alloc 3 0, .alloc 2 0, .free 16 3] := by
  obtain ⟨s, hs, h⟩ := @holesSane_of_strictFit 512 pc [⟨16, 8⟩] ⟨by simp, by decide⟩ (by decide)
  obtain rfl := Except.ok.inj hs
  exact ⟨_, rfl, (h _ (by decide)).1 (by decide)⟩

theorem exact_fit_stays : ∃ s : Ledger 512, boot 512 [⟨16, 8⟩] = .ok s ∧
    Meets (serve pc (allocMem pc)) (Lawful pc (allocMem pc)) s [.alloc 8 0] ∧
    ¬Upholds (serve pc (allocMem pc)) HolesSane s [.alloc 8 0] := by
  refine ⟨_, rfl, by decide, ?_⟩
  rintro ⟨-, t, ht, sane⟩
  obtain rfl := Except.ok.inj ht
  exact absurd (sane.filled ⟨24, 0⟩ (by decide)) (by decide)

/-- No click is handed out twice and none is lost. -/
def Conserved (chunks : List Memory) (s : Ledger n) : Prop :=
  Tiles s.extents (chunks.map Memory.extent)

/-- A request without padding that some hole fits, by less than `int` can hold. -/
def Unpadded (m : Minix) (s : Ledger n) : Request → Prop
  | .alloc clicks memflags =>
    memflags &&& m.pafAlign64k = 0 ∧
      ∃ h ∈ s.table.holes, clicks.toNat ≤ h.len ∧ h.len < clicks.toNat + 2 ^ 31
  | .free _ _ => True

instance (m : Minix) (s : Ledger n) : DecidablePred (Unpadded m s)
  | .alloc _ _ => inferInstanceAs (Decidable (_ ∧ _))
  | .free _ _ => inferInstanceAs (Decidable True)

theorem noMem_not_base {m : Minix} {chunks : List Memory} {s : Ledger n} {g : Extent}
    (sentinel : ∀ c ∈ chunks, m.noMem.toNat ∉ c.extent.units)
    (htally : ∀ x, tally s.extents x = tally (chunks.map Memory.extent) x)
    (hg : g ∈ s.table.holes) (pos : 0 < g.len) : g.base ≠ m.noMem.toNat := by
  intro he
  have hx : m.noMem.toNat ∈ g.units := Extent.mem_units.mpr ⟨he.le, by simp only [Extent.stop]; omega⟩
  have h1 := one_le_tally (List.mem_append_left (s.live.map Memory.extent) hg) hx
  have h2 : 0 < tally s.extents m.noMem.toNat := h1
  rw [htally, tally_pos_iff] at h2
  obtain ⟨e, hm, hxe⟩ := h2
  obtain ⟨c, hc, rfl⟩ := List.mem_map.mp hm
  exact sentinel c hc hxe

theorem handedOut_tally {m : Minix} {base clicks : UInt32} {k : Nat} (hbase : base.toNat = k)
    (proper : 0 < clicks.toNat → k ≠ m.noMem.toNat) (x : Nat) :
    tally ((handedOut m base clicks).map Memory.extent) x = tally [⟨k, clicks.toNat⟩] x := by
  simp only [handedOut]
  split
  next he =>
    subst he hbase
    have h0 : clicks.toNat = 0 := by
      by_contra h
      exact proper (by omega) rfl
    rw [tally_cons_empty h0]
    rfl
  next => rw [← hbase]; rfl

structure Kept (chunks : List Memory) (s : Ledger n) : Prop where
  sound : s.Sound
  same : ∀ x, tally s.extents x = tally (chunks.map Memory.extent) x

theorem Kept.keeps {m : Minix} {chunks : List Memory} {s : Ledger n} {r : Request}
    (sentinel : ∀ c ∈ chunks, m.noMem.toNat ∉ c.extent.units) (h : Kept chunks s)
    (lawful : Lawful m (allocMem m) s r) (fit : Unpadded m s r) :
    ∃ s', serve m (allocMem m) s r = .ok s' ∧ Kept chunks s' := by
  cases r with
  | free base clicks =>
    obtain ⟨s', he, hs, htally, -⟩ := serve_free h.sound lawful
    exact ⟨s', he, hs, fun x => (htally x).trans (h.same x)⟩
  | alloc clicks memflags =>
    obtain ⟨flag, f, hf, hfit, hnear⟩ := fit
    have hp : clicks.toNat = (clicks + m.alignClicks memflags).toNat := by
      simp [alignClicks_eq_zero_iff.mpr flag]
    rcases serve_alloc_cases h.sound hp with
      ⟨small, -⟩ | ⟨pre, g, post, base, holes, fits, hbase, before, after, res⟩
    · have := small f hf
      omega
    · have hg : g ∈ s.table.holes := by simp [holes]
      have hleast := least_of_split holes before after f hf hfit
      rcases res with ⟨hbig, -⟩ | ⟨-, s', he, threads, holes', live⟩
      · omega
      · refine ⟨s', he, bite_sound h.sound fits threads holes holes' live fun b hb => ?_, fun x => ?_⟩
        · have := handedOut_within hbase hb
          have hstop : g.stop < 2 ^ 32 := h.sound.stop g (List.mem_append_left _ hg)
          simp only [Extent.stop] at *
          omega
        · have hx := bite_tally fits holes holes' live x
          rw [handedOut_tally hbase fun pos => noMem_not_base sentinel h.same hg (by omega)] at hx
          rw [← h.same x]
          omega

theorem unpadded_of_same {m : Minix} {chunks : List Memory} {s s' : Ledger n} {r : Request}
    (h : Kept chunks s) (range : InRange m s r) (he : serve m (allocMem m) s r = .ok s')
    (same : ∀ x, tally s'.extents x = tally s.extents x) : Unpadded m s r := by
  cases r with
  | free base clicks => trivial
  | alloc clicks memflags =>
    rcases serve_alloc_cases h.sound (padded_toNat range).symm with
      ⟨-, hf⟩ | ⟨pre, g, post, base, holes, fits, hbase, -, -, ⟨-, hf⟩ | ⟨hnear, t, ht, -, holes', live⟩⟩
    · simp [hf] at he
    · simp [hf] at he
    · obtain rfl : t = s' := by simpa [ht] using he
      have hx := bite_tally fits holes holes' live (g.base + clicks.toNat)
      have hgiven : tally ((handedOut m base clicks).map Memory.extent) (g.base + clicks.toNat) = 0 := by
        simp only [handedOut]
        split
        next => rfl
        next =>
          rw [List.map_singleton, tally_cons, if_neg]
          · rfl
          · simp only [Extent.mem_units, Extent.stop, Memory.extent]
            omega
      rw [same, hgiven, tally_cons] at hx
      have hp : (m.alignClicks memflags).toNat = 0 := by
        by_contra hne
        rw [if_pos (Extent.mem_units.mpr ⟨by simp, by simp only [Extent.stop]; omega⟩)] at hx
        omega
      refine ⟨alignClicks_eq_zero_iff.mp (UInt32.toNat_inj.mp hp), g, by simp [holes], by omega, by omega⟩

/-- Memory is conserved throughout a run without padded requests; where no length overflows,
it is conserved in no other run. -/
theorem conserved_of_unpadded {m : Minix} {chunks : List Memory} (hc : Chunks chunks)
    (room : memInit n chunks ≠ .error .tableFull)
    (sentinel : ∀ c ∈ chunks, m.noMem.toNat ∉ c.extent.units) :
    ∃ s, boot n chunks = .ok s ∧ ∀ rs, Meets (serve m (allocMem m)) (Lawful m (allocMem m)) s rs →
      (Meets (serve m (allocMem m)) (Unpadded m) s rs →
        Upholds (serve m (allocMem m)) (Conserved chunks) s rs) ∧
      (Meets (serve m (allocMem m)) (InRange m) s rs →
        Upholds (serve m (allocMem m)) (Conserved chunks) s rs →
        Meets (serve m (allocMem m)) (Unpadded m) s rs) := by
  obtain ⟨s, hs, sound, -, htally⟩ := boot_spec hc room
  have first : Kept chunks s := ⟨sound, htally⟩
  have only : ∀ (s : Ledger n) r s', Kept chunks s → Lawful m (allocMem m) s r ∧ InRange m s r →
      serve m (allocMem m) s r = .ok s' → Conserved chunks s' → Unpadded m s r :=
    fun s r s' h hl he kept => unpadded_of_same h hl.2 he fun x =>
      ((tiles_iff_tally hc.apart).mp kept x).trans (h.same x).symm
  refine ⟨s, hs, fun rs lawful => ⟨fun fit => ?_, fun range kept => ?_⟩⟩
  · exact upholds_of_meets (fun _ h => (tiles_iff_tally hc.apart).mpr h.same)
      (fun _ _ h hc => h.keeps sentinel hc.1 hc.2) first (lawful.and fit)
  · exact meets_of_upholds (fun _ _ h hl fit => h.keeps sentinel hl.1 fit) only first
      (lawful.and range) kept

theorem conserved_in_one_chunk : ∃ s : Ledger 512, boot 512 [⟨16, 40⟩] = .ok s ∧
    Upholds (serve pc (allocMem pc)) (Conserved [⟨16, 40⟩]) s
      [.alloc 30 1, .alloc 10 0, .free 16 30] := by
  obtain ⟨s, hs, h⟩ := @conserved_of_unpadded 512 pc [⟨16, 40⟩] ⟨by simp, by decide⟩ (by decide) (by decide)
  obtain rfl := Except.ok.inj hs
  exact ⟨_, rfl, (h _ (by decide)).1 (by decide)⟩

theorem padding_is_lost : ∃ s : Ledger 512, boot 512 [⟨16, 40⟩] = .ok s ∧
    Meets (serve pc (allocMem pc)) (Lawful pc (allocMem pc)) s [.alloc 8 4] ∧
    ¬Upholds (serve pc (allocMem pc)) (Conserved [⟨16, 40⟩]) s [.alloc 8 4] := by
  refine ⟨_, rfl, by decide, ?_⟩
  rintro ⟨-, t, ht, kept⟩
  obtain rfl := Except.ok.inj ht
  exact absurd ((tiles_iff_tally (by simp)).mp kept 24) (by decide)

end BestFit

end TcpAndParallel
