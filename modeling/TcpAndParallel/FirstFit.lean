import TcpAndParallel.BestFit

namespace TcpAndParallel

namespace FirstFit

variable {n : Nat}

/-- The `while` loop of `alloc_mem` up to the first hole that is big enough, which it yields
together with `prev_ptr`. -/
def findFit (clicks : UInt32) (t : Table n) :
    Nat → Option (Fin n) → Option (Fin n) → Except Fault (Option (Option (Fin n) × Fin n))
  | _, _, none => .ok none
  | 0, _, some _ => .error .endless
  | fuel + 1, prev, some hp =>
    if clicks ≤ (t.hole hp).hLen then .ok (some (prev, hp))
    else findFit clicks t fuel (some hp) (t.next hp)

/-- The whole of the `while` loop; `mem` is still `NO_MEM` where no hole is big enough. -/
def takeFit (m : Minix) (clicks memflags : UInt32) (t : Table n) :
    Except Fault (UInt32 × Table n) := do
  let found ← findFit clicks t n none t.holeHead
  match found with
  | none => .ok (m.noMem, t)
  | some (prev, hp) => do
    let oldBase := (t.hole hp).hBase
    let t := t.bite hp clicks
    let t ← if (t.hole hp).hLen = 0 then delSlot prev hp t else .ok t
    let t ← clearBlock m memflags oldBase clicks t
    .ok (oldBase, t)

/-- `alloc_mem` of alloc.c in the non-paged mode. -/
def allocMem (m : Minix) (clicks memflags : UInt32) (t : Table n) :
    Except Fault (UInt32 × Table n) := do
  let alignClicks := m.alignClicks memflags
  let (mem, t) ← takeFit m (clicks + alignClicks) memflags t
  if mem = m.noMem then .ok (mem, t) else alignBlock alignClicks mem t

theorem findFit_spec {clicks : UInt32} {t : Table n} {fuel : Nat} {p prev : Option (Fin n)}
    {is : List (Fin n)} (h : Chain t.next p is) (enough : is.length ≤ fuel) :
    ((∀ i ∈ is, (t.hole i).hLen < clicks) ∧ findFit clicks t fuel prev p = .ok none) ∨
    ∃ pre b post, is = pre ++ b :: post ∧ (∀ i ∈ pre, (t.hole i).hLen < clicks) ∧
      clicks ≤ (t.hole b).hLen ∧ findFit clicks t fuel prev p = .ok (some (pre.getLast?.or prev, b)) := by
  induction is generalizing prev p fuel with
  | nil =>
    have hp : p = none := h
    subst hp
    exact .inl ⟨by simp, by cases fuel <;> rfl⟩
  | cons i is ih =>
    obtain ⟨rfl, ht⟩ := h
    obtain ⟨fuel, rfl⟩ : ∃ m, fuel = m + 1 := ⟨fuel - 1, by simp at enough; omega⟩
    by_cases hfit : clicks ≤ (t.hole i).hLen
    · exact .inr ⟨[], i, is, rfl, by simp, hfit, by simp [findFit, hfit]⟩
    · have hlt := UInt32.not_le.mp hfit
      simp only [findFit, hfit, if_false]
      rcases @ih fuel (t.next i) (some i) ht (by simpa using enough) with
        ⟨small, hf⟩ | ⟨pre, b, post, rfl, small, fits, hf⟩
      · exact .inl ⟨by simpa [hlt] using small, hf⟩
      · refine .inr ⟨i :: pre, b, post, rfl, by simpa [hlt] using small, fits, ?_⟩
        rw [hf]
        cases pre <;> simp [List.getLast?_cons]

/-- All that a call can do up to the clearing: it finds nothing and says so, or it takes the
front of the first fit, and the whole hole when that is what is asked for. -/
theorem allocMem_cases {m : Minix} {clicks memflags : UInt32} {t : Table n} {hs fs : List (Fin n)}
    (h : Threads t hs fs) (below : t.Below hs) {p : Nat}
    (hp : p = (clicks + m.alignClicks memflags).toNat) :
    ((∀ f ∈ t.holes, f.len < p) ∧ allocMem m clicks memflags t = .ok (m.noMem, t)) ∨
    ∃ pre f post base t' hs' fs', t.holes = pre ++ f :: post ∧ (∀ g ∈ pre, g.len < p) ∧
      p ≤ f.len ∧ base.toNat = f.base ∧ Threads t' hs' fs' ∧ t'.cleared = t.cleared ∧
      (fs' = [] ↔ f.len ≠ p ∧ fs = []) ∧ t'.holes = carve pre f p post ∧
      allocMem m clicks memflags t =
        (clearBlock m memflags base (clicks + m.alignClicks memflags) t' >>= fun t' =>
          if base = m.noMem then .ok (base, t') else alignBlock (m.alignClicks memflags) base t') := by
  have small_iff : ∀ is, (∀ i ∈ is, (t.hole i).hLen < clicks + m.alignClicks memflags) →
      ∀ f ∈ t.extents is, f.len < p := by
    intro is small f hf
    obtain ⟨i, hi, rfl⟩ := List.mem_map.mp hf
    exact hp ▸ UInt32.lt_iff_toNat_lt.mp (small i hi)
  rcases @findFit_spec n (clicks + m.alignClicks memflags) t n t.holeHead none hs h.holes h.length_le with
    ⟨small, hf⟩ | ⟨pre, b, post, rfl, small, fits, hf⟩
  · refine .inl ⟨h.holes_eq ▸ small_iff hs small, ?_⟩
    simp [allocMem, takeFit, hf, bind, Except.bind]
  · rw [Option.or_none] at hf
    have hpb := hp ▸ UInt32.le_iff_toNat_le.mp fits
    have hsub := UInt32.toNat_sub_of_le _ _ fits
    rw [← hp] at hsub
    have hth := bite_threads h b (clicks + m.alignClicks memflags)
    have hext := bite_extents h fits (below b (by simp))
    have self : ((t.bite b (clicks + m.alignClicks memflags)).hole b).hLen =
        (t.hole b).hLen - (clicks + m.alignClicks memflags) := by simp [Table.bite]
    have hholes : t.holes = t.extents pre ++ (t.hole b).extent :: t.extents post := by
      rw [h.holes_eq, extents_append, extents_cons]
    by_cases hex : (t.hole b).hLen.toNat = p
    · have hzero : (t.hole b).hLen - (clicks + m.alignClicks memflags) = 0 := by
        rw [← UInt32.toNat_inj, hsub, hex]
        simp
      obtain ⟨t', ht, hth', hsame, hcl⟩ := delSlot_spec hth
      have hpre := h.notMem_of_split
      refine .inr ⟨_, _, _, (t.hole b).hBase, t', _, _, hholes, small_iff pre small, hpb, rfl, hth', hcl,
        by simp [Hole.extent, hex], ?_, ?_⟩
      · have others : ∀ is, b ∉ is → t'.extents is = t.extents is := fun is hb => extents_congr fun i hi => by
          have hne : i ≠ b := by
            rintro rfl
            exact hb hi
          rw [hsame i hne, Table.bite, Table.modify_of_ne t hne]
        rw [hth'.holes_eq, extents_append, others pre hpre.1, others post hpre.2]
        exact (if_pos hex).symm
      · simp only [allocMem, takeFit, hf, bind, Except.bind, self, hzero, if_true, ht]
        cases clearBlock m memflags (t.hole b).hBase (clicks + m.alignClicks memflags) t' <;> rfl
    · have hpos : (t.hole b).hLen - (clicks + m.alignClicks memflags) ≠ 0 := by
        rw [ne_eq, ← UInt32.toNat_inj, hsub, UInt32.toNat_zero]
        omega
      refine .inr ⟨_, _, _, (t.hole b).hBase, _, _, _, hholes, small_iff pre small, hpb, rfl, hth, rfl,
        by simp [Hole.extent, hex], ?_, ?_⟩
      · rw [hth.holes_eq, hext, ← hp]
        exact (if_neg hex).symm
      · simp only [allocMem, takeFit, hf, bind, Except.bind, self, hpos, if_false]
        cases clearBlock m memflags (t.hole b).hBase (clicks + m.alignClicks memflags)
          (t.bite b (clicks + m.alignClicks memflags)) <;> rfl

end FirstFit

variable {n : Nat}

theorem alignBlock_aligned {alignClicks mem : UInt32} (t : Table n)
    (h : alignClicks = 0 ∨ mem % alignClicks = 0) : alignBlock alignClicks mem t = .ok (mem, t) := by
  rcases h with rfl | h
  · rfl
  · simp [alignBlock, h]

theorem gap_toNat {a : UInt32} (ha : a ≠ 0) (mem : UInt32) :
    (a - mem % a).toNat = a.toNat - mem.toNat % a.toNat ∧ a - mem % a ≠ 0 := by
  have hpos : 0 < a.toNat := UInt32.lt_iff_toNat_lt.mp (UInt32.pos_iff_ne_zero.mpr ha)
  have hlt : mem.toNat % a.toNat < a.toNat := Nat.mod_lt _ hpos
  have hmod : (mem % a).toNat = mem.toNat % a.toNat := UInt32.toNat_mod ..
  have he : (a - mem % a).toNat = a.toNat - mem.toNat % a.toNat := by
    rw [UInt32.toNat_sub_of_le _ _ (UInt32.le_iff_toNat_le.mpr (by omega)), hmod]
  refine ⟨he, ?_⟩
  rw [ne_eq, ← UInt32.toNat_inj, he, UInt32.toNat_zero]
  omega

theorem alignBlock_cases {alignClicks mem : UInt32} {t : Table n} {hs fs : List (Fin n)}
    (h : Threads t hs fs) (below : t.Below hs) (ha : alignClicks ≠ 0) (ho : mem % alignClicks ≠ 0)
    (hstop : mem.toNat + alignClicks.toNat < 2 ^ 32) :
    (fs = [] ∧ alignBlock alignClicks mem t = .error .tableFull) ∨
    (fs ≠ [] ∧ ∃ e t' hs' fs', alignBlock alignClicks mem t = .ok (mem + e, t') ∧
      e.toNat = alignClicks.toNat - mem.toNat % alignClicks.toNat ∧ 0 < e.toNat ∧
      Threads t' hs' fs' ∧ t'.holes = release ⟨mem.toNat, e.toNat⟩ t.holes ∧
      t'.cleared = t.cleared) := by
  obtain ⟨he, hne⟩ := gap_toNat ha mem
  have hepos : 0 < (alignClicks - mem % alignClicks).toNat :=
    UInt32.lt_iff_toNat_lt.mp (UInt32.pos_iff_ne_zero.mpr hne)
  have hrun : alignBlock alignClicks mem t = (freeMem mem (alignClicks - mem % alignClicks) t).map
      fun t => (mem + (alignClicks - mem % alignClicks), t) := by
    simp [alignBlock, ha, UInt32.pos_iff_ne_zero, ho]
  cases fs with
  | nil => exact .inl ⟨rfl, by rw [hrun, freeMem_full hne h]; rfl⟩
  | cons a fs =>
    have hb : mem.toNat + (alignClicks - mem % alignClicks).toNat < 2 ^ 32 := by omega
    obtain ⟨t', hs', fs', ht, hth', hext, hcl⟩ := freeMem_spec hne h below hb
    refine .inr ⟨by simp, _, t', hs', fs', by rw [hrun, ht]; rfl, he, hepos, hth', ?_, hcl⟩
    rw [hth'.holes_eq, hext, h.holes_eq]

theorem clearBlock_ok {m : Minix} {memflags oldBase clicks : UInt32} (t : Table n)
    (memset : ∀ a b, m.sysMemset a b = 0) :
    clearBlock m memflags oldBase clicks t = .ok { t with cleared :=
      (if memflags &&& m.pafClear ≠ 0 then [(m.clickSize * oldBase, m.clickSize * clicks)] else []) ++
        t.cleared } := by
  simp only [clearBlock, memset, if_true]
  split <;> simp

end TcpAndParallel
