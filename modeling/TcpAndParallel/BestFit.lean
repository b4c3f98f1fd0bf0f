import TcpAndParallel.HoleThreads

namespace TcpAndParallel

/-- What the file takes from the MINIX headers and from the kernel. -/
structure Minix where
  clickSize : UInt32
  noMem : UInt32
  pafClear : UInt32
  pafAlign64k : UInt32
  /-- `sys_memset(0, address, size)`; the result `OK` is zero. -/
  sysMemset : UInt32 → UInt32 → Int32
  clickSize_pos : 0 < clickSize
  clickSize_le : clickSize ≤ 64 * 1024

variable {n : Nat}

def pc : Minix where
  clickSize := 4096
  noMem := 0xFFFFFFFE
  pafClear := 0x01
  pafAlign64k := 0x04
  sysMemset _ _ := 0
  clickSize_pos := by decide
  clickSize_le := by decide

def Minix.alignClicks (m : Minix) (memflags : UInt32) : UInt32 :=
  if memflags &&& m.pafAlign64k ≠ 0 then (64 * 1024) / m.clickSize else 0

theorem alignClicks_eq_zero_iff {m : Minix} {memflags : UInt32} :
    m.alignClicks memflags = 0 ↔ memflags &&& m.pafAlign64k = 0 := by
  rw [Minix.alignClicks]
  split
  next h =>
    simp only [h, iff_false]
    intro he
    have hpos := UInt32.lt_iff_toNat_lt.mp m.clickSize_pos
    have hle := UInt32.le_iff_toNat_le.mp m.clickSize_le
    rw [← UInt32.toNat_inj, UInt32.toNat_div] at he
    exact absurd he (Nat.div_pos hle hpos).ne'
  next h => simpa using h

/-- "bite a piece off" -/
def Table.bite (t : Table n) (hp : Fin n) (clicks : UInt32) : Table n :=
  t.modify hp fun h => { h with hBase := h.hBase + clicks, hLen := h.hLen - clicks }

/-- "Anything special needs to happen?" -/
def clearBlock (m : Minix) (memflags oldBase clicks : UInt32) (t : Table n) :
    Except Fault (Table n) :=
  if memflags &&& m.pafClear ≠ 0 then
    if m.sysMemset (m.clickSize * oldBase) (m.clickSize * clicks) = 0 then
      .ok { t with cleared := (m.clickSize * oldBase, m.clickSize * clicks) :: t.cleared }
    else .error .memsetFailed
  else .ok t

def alignBlock (alignClicks mem : UInt32) (t : Table n) : Except Fault (UInt32 × Table n) :=
  if alignClicks ≠ 0 then
    let o := mem % alignClicks
    if 0 < o then
      let e := alignClicks - o
      (freeMem mem e t).map fun t => (mem + e, t)
    else .ok (mem, t)
  else .ok (mem, t)

theorem bite_threads {t : Table n} {hs fs : List (Fin n)} (h : Threads t hs fs) (b : Fin n)
    (clicks : UInt32) : Threads (t.bite b clicks) hs fs := h.modify b _ rfl

theorem bite_extents {t : Table n} {pre post fs : List (Fin n)} {b : Fin n} {clicks : UInt32}
    (h : Threads t (pre ++ b :: post) fs) (fits : clicks ≤ (t.hole b).hLen)
    (stop : (t.hole b).extent.stop < 2 ^ 32) :
    (t.bite b clicks).extents (pre ++ b :: post) = t.extents pre ++
      ⟨(t.hole b).extent.base + clicks.toNat, (t.hole b).extent.len - clicks.toNat⟩ ::
        t.extents post := by
  have hb := h.notMem_of_split
  have other : ∀ is, b ∉ is → (t.bite b clicks).extents is = t.extents is := by
    intro is hbis
    refine extents_congr fun i hi => congrArg _ (Table.modify_of_ne t ?_ _)
    rintro rfl
    exact hbis hi
  have self : ((t.bite b clicks).hole b).extent =
      ⟨(t.hole b).extent.base + clicks.toNat, (t.hole b).extent.len - clicks.toNat⟩ := by
    rw [UInt32.le_iff_toNat_le] at fits
    simp only [Hole.extent, Extent.stop] at stop
    simp only [Table.bite, Table.modify_self, Hole.extent, UInt32.toNat_add,
      UInt32.toNat_sub_of_le _ _ fits, Nat.mod_eq_of_lt (by omega : (t.hole b).hBase.toNat + clicks.toNat < 2 ^ 32)]
  rw [extents_append, extents_cons, self, other pre hb.1, other post hb.2]

namespace BestFit

/-- `remainder`, `best_ptr` and `prev_best`. The last two are not initialised, which is
`none` for `best_ptr`; `prev_best` is only read together with it. -/
structure Scan (n : Nat) where
  remainder : Int32
  best : Option (Fin n)
  prevBest : Option (Fin n)

/-- "Examine all holes." -/
def scan (clicks : UInt32) (t : Table n) :
    Nat → Option (Fin n) → Option (Fin n) → Scan n → Except Fault (Scan n)
  | _, _, none, s => .ok s
  | 0, _, some _, _ => .error .endless
  | fuel + 1, prev, some hp, s =>
    if (t.hole hp).hLen = clicks then .ok ⟨0, some hp, prev⟩
    else
      let s :=
        if clicks < (t.hole hp).hLen then
          let left := (t.hole hp).hLen - clicks
          -- the comparison with the `int` is made on unsigned values
          if left < s.remainder.toUInt32 ∨ s.remainder = -1 then ⟨left.toInt32, some hp, prev⟩
          else s
        else s
      scan clicks t fuel (some hp) (t.next hp) s

/-- `alloc_mem` of 3.1.7-bestfit-alloc.c in the non-paged mode. -/
def allocMem (m : Minix) (clicks memflags : UInt32) (t : Table n) :
    Except Fault (UInt32 × Table n) := do
  let alignClicks := m.alignClicks memflags
  let clicks := clicks + alignClicks
  let s ← scan clicks t n none t.holeHead ⟨-1, none, none⟩
  let best ← readLocal s.best
  if -1 < s.remainder then
    .ok ((t.hole best).hBase, t.bite best clicks)
  else
    let t ← if (t.hole best).hLen = 0 then delSlot s.prevBest best t else .ok t
    -- only the branch that has returned assigns `old_base`
    let oldBase ← readLocal none
    let t ← clearBlock m memflags oldBase clicks t
    if oldBase = m.noMem ∨ s.remainder = -1 then .ok (oldBase, t)
    else alignBlock alignClicks oldBase t

/-- What the loop has found among the slots it has passed: nothing that fits, or the
smallest fit, the first of these unless nothing was asked for. -/
inductive Chosen (clicks : UInt32) (t : Table n) : List (Fin n) → Scan n → Prop
  | unfit {xs : List (Fin n)} (small : ∀ i ∈ xs, (t.hole i).hLen < clicks) :
      Chosen clicks t xs ⟨-1, none, none⟩
  | fit {pre post : List (Fin n)} {b : Fin n} (fits : clicks ≤ (t.hole b).hLen)
      (before : ∀ i ∈ pre, clicks ≤ (t.hole i).hLen →
        (t.hole b).hLen ≤ (t.hole i).hLen ∧ (clicks ≠ 0 → (t.hole b).hLen < (t.hole i).hLen))
      (after : ∀ i ∈ post, clicks ≤ (t.hole i).hLen → (t.hole b).hLen ≤ (t.hole i).hLen) :
      Chosen clicks t (pre ++ b :: post) ⟨((t.hole b).hLen - clicks).toInt32, some b, pre.getLast?⟩

theorem toInt32_eq_neg_one_iff {u : UInt32} : u.toInt32 = -1 ↔ u = -1 := by
  constructor
  · intro h
    have hu := congrArg Int32.toUInt32 h
    rwa [UInt32.toUInt32_toInt32] at hu
  · rintro rfl
    rfl

theorem neg_one_lt_toInt32_iff {u : UInt32} : -1 < u.toInt32 ↔ u.toNat < 2 ^ 31 := by
  rw [Int32.lt_iff_toInt_lt]
  have hu := u.toNat_lt
  have hcond : u.toInt32.toInt = if 2 * u.toNat < 2 ^ 32 then (u.toNat : Int) else u.toNat - (2 ^ 32 : Nat) :=
    BitVec.toInt_eq_toNat_cond u.toBitVec
  have hneg : (-1 : Int32).toInt = -1 := rfl
  rw [hcond, hneg]
  split <;> omega

theorem Chosen.pass {clicks : UInt32} {t : Table n} {xs : List (Fin n)} {s : Scan n} {hp : Fin n}
    (h : Chosen clicks t xs s) (hne : (t.hole hp).hLen ≠ clicks) :
    Chosen clicks t (xs ++ [hp])
      (if clicks < (t.hole hp).hLen then
        if (t.hole hp).hLen - clicks < s.remainder.toUInt32 ∨ s.remainder = -1 then
          ⟨((t.hole hp).hLen - clicks).toInt32, some hp, xs.getLast?⟩
        else s
      else s) := by
  by_cases hlt : clicks < (t.hole hp).hLen
  · rw [if_pos hlt]
    cases h with
    | unfit small =>
      rw [if_pos (.inr rfl)]
      refine .fit (UInt32.le_of_lt hlt) (fun i hi hfit => ?_) (by simp)
      exact absurd hfit (UInt32.not_le.mpr (small i hi))
    | @fit pre post b fits before after =>
      have hsub := UInt32.toNat_sub_of_le _ _ (UInt32.le_of_lt hlt)
      have hsub' := UInt32.toNat_sub_of_le _ _ fits
      rw [UInt32.lt_iff_toNat_lt] at hlt
      simp only [UInt32.toUInt32_toInt32, toInt32_eq_neg_one_iff]
      split
      next hupd =>
        -- the comparison is void only for an empty request and a hole of the greatest length
        have hle : (t.hole hp).hLen ≤ (t.hole b).hLen ∧
            (clicks ≠ 0 → (t.hole hp).hLen < (t.hole b).hLen) := by
          have hmax : (-1 : UInt32).toNat = 2 ^ 32 - 1 := rfl
          have hb := (t.hole b).hLen.toNat_lt
          have hp' := (t.hole hp).hLen.toNat_lt
          rw [UInt32.lt_iff_toNat_lt, ← UInt32.toNat_inj, hmax, hsub, hsub'] at hupd
          rw [UInt32.le_iff_toNat_le, UInt32.lt_iff_toNat_lt, ne_eq, ← UInt32.toNat_inj, UInt32.toNat_zero]
          omega
        refine .fit (UInt32.le_of_lt (UInt32.lt_iff_toNat_lt.mpr hlt)) (fun i hi hfit => ?_) (by simp)
        rcases List.mem_append.mp hi with hi | hi
        · have hb := before i hi hfit
          exact ⟨UInt32.le_trans hle.1 hb.1, fun hc => UInt32.lt_of_le_of_lt hle.1 (hb.2 hc)⟩
        · rcases List.mem_cons.mp hi with rfl | hi
          · exact hle
          · have hb := after i hi hfit
            exact ⟨UInt32.le_trans hle.1 hb, fun hc => UInt32.lt_of_lt_of_le (hle.2 hc) hb⟩
      next hkeep =>
        rw [List.append_assoc, List.cons_append]
        refine .fit fits before fun i hi hfit => ?_
        rcases List.mem_append.mp hi with hi | hi
        · exact after i hi hfit
        · rw [List.mem_singleton.mp hi]
          rw [not_or, UInt32.not_lt, UInt32.le_iff_toNat_le, hsub, hsub'] at hkeep
          rw [UInt32.le_iff_toNat_le] at fits ⊢
          omega
  · rw [if_neg hlt]
    have hsmall : (t.hole hp).hLen < clicks :=
      UInt32.lt_of_le_of_ne (UInt32.not_lt.mp hlt) hne
    cases h with
    | unfit small => exact .unfit (by simpa [or_imp, forall_and, hsmall] using small)
    | @fit pre post b fits before after =>
      rw [List.append_assoc, List.cons_append]
      refine .fit fits before fun i hi hfit => ?_
      rcases List.mem_append.mp hi with hi | hi
      · exact after i hi hfit
      · rw [List.mem_singleton.mp hi] at hfit
        exact absurd hfit (UInt32.not_le.mpr hsmall)

theorem scan_spec {clicks : UInt32} {t : Table n} {xs ys : List (Fin n)} {p : Option (Fin n)}
    {fuel : Nat} {s : Scan n} (h : Chosen clicks t xs s) (hc : Chain t.next p ys)
    (none_exact : ∀ i ∈ xs, (t.hole i).hLen ≠ clicks) (enough : ys.length ≤ fuel) :
    ∃ s', scan clicks t fuel xs.getLast? p s = .ok s' ∧ Chosen clicks t (xs ++ ys) s' := by
  induction ys generalizing xs p fuel s with
  | nil =>
    have hp : p = none := hc
    subst hp
    exact ⟨s, by cases fuel <;> rfl, by simpa using h⟩
  | cons hp ys ih =>
    obtain ⟨rfl, ht⟩ := hc
    obtain ⟨fuel, rfl⟩ : ∃ m, fuel = m + 1 := ⟨fuel - 1, by simp at enough; omega⟩
    simp only [scan]
    by_cases hex : (t.hole hp).hLen = clicks
    · rw [if_pos hex]
      refine ⟨_, rfl, ?_⟩
      have hs : Chosen clicks t (xs ++ hp :: ys)
          ⟨((t.hole hp).hLen - clicks).toInt32, some hp, xs.getLast?⟩ := by
        refine .fit (hex ▸ UInt32.le_refl _) (fun i hi hfit => ?_) (fun i _ hfit => hex ▸ hfit)
        have hlt := UInt32.lt_of_le_of_ne hfit (Ne.symm (none_exact i hi))
        exact hex.symm ▸ ⟨hfit, fun _ => hlt⟩
      simpa [hex] using hs
    · rw [if_neg hex]
      have hpass := h.pass hex
      obtain ⟨s', hs, hch⟩ := ih hpass ht (by
        intro i hi
        rcases List.mem_append.mp hi with hi | hi
        · exact none_exact i hi
        · exact List.mem_singleton.mp hi ▸ hex) (by simpa using enough)
      refine ⟨s', ?_, by simpa using hch⟩
      simpa using hs

/-- All that a call can do: it takes the front of the smallest fit, or it reads a local
variable that was never assigned. -/
theorem allocMem_cases {m : Minix} {clicks memflags : UInt32} {t : Table n} {hs fs : List (Fin n)}
    (h : Threads t hs fs) :
    ((∀ i ∈ hs, (t.hole i).hLen < clicks + m.alignClicks memflags) ∧
      allocMem m clicks memflags t = .error .unset) ∨
    ∃ pre b post, hs = pre ++ b :: post ∧ clicks + m.alignClicks memflags ≤ (t.hole b).hLen ∧
      (∀ i ∈ pre, clicks + m.alignClicks memflags ≤ (t.hole i).hLen →
        (t.hole b).hLen ≤ (t.hole i).hLen ∧
          (clicks + m.alignClicks memflags ≠ 0 → (t.hole b).hLen < (t.hole i).hLen)) ∧
      (∀ i ∈ post, clicks + m.alignClicks memflags ≤ (t.hole i).hLen →
        (t.hole b).hLen ≤ (t.hole i).hLen) ∧
      allocMem m clicks memflags t =
        if ((t.hole b).hLen - (clicks + m.alignClicks memflags)).toNat < 2 ^ 31 then
          .ok ((t.hole b).hBase, t.bite b (clicks + m.alignClicks memflags))
        else .error .unset := by
  have start : Chosen (clicks + m.alignClicks memflags) t [] ⟨-1, none, none⟩ := .unfit (by simp)
  obtain ⟨s, hs', hc⟩ := scan_spec start h.holes (by simp) h.length_le
  rw [List.getLast?_nil] at hs'
  rw [List.nil_append] at hc
  cases hc with
  | unfit small =>
    refine .inl ⟨small, ?_⟩
    simp only [allocMem, hs', bind, Except.bind, readLocal]
  | @fit pre post b fits before after =>
    refine .inr ⟨pre, b, post, rfl, fits, before, after, ?_⟩
    simp only [allocMem, hs', bind, Except.bind, readLocal, neg_one_lt_toInt32_iff]
    split
    next => rfl
    next hbig =>
      have hsub := UInt32.toNat_sub_of_le _ _ fits
      have hlen : (t.hole b).hLen ≠ 0 := by
        intro h0
        rw [hsub, h0] at hbig
        simp at hbig
      simp [hlen]

theorem allocMem_holes {m : Minix} {clicks memflags : UInt32} {t : Table n} {hs fs : List (Fin n)}
    (h : Threads t hs fs) (below : t.Below hs) {p : Nat}
    (hp : p = (clicks + m.alignClicks memflags).toNat) :
    ((∀ g ∈ t.holes, g.len < p) ∧ allocMem m clicks memflags t = .error .unset) ∨
    ∃ pre g post base, t.holes = pre ++ g :: post ∧ p ≤ g.len ∧ base.toNat = g.base ∧
      (∀ f ∈ pre, p ≤ f.len → g.len ≤ f.len ∧ (p ≠ 0 → g.len < f.len)) ∧
      (∀ f ∈ post, p ≤ f.len → g.len ≤ f.len) ∧
      (2 ^ 31 ≤ g.len - p ∧ allocMem m clicks memflags t = .error .unset ∨
        g.len - p < 2 ^ 31 ∧ ∃ t', allocMem m clicks memflags t = .ok (base, t') ∧
          Threads t' hs fs ∧ t'.holes = pre ++ ⟨g.base + p, g.len - p⟩ :: post ∧
          t'.cleared = t.cleared) := by
  rcases @allocMem_cases n m clicks memflags t hs fs h with
    ⟨small, he⟩ | ⟨pre, b, post, rfl, fits, before, after, he⟩
  · refine .inl ⟨?_, he⟩
    rw [h.holes_eq]
    intro g hg
    obtain ⟨i, hi, rfl⟩ := List.mem_map.mp hg
    exact hp ▸ UInt32.lt_iff_toNat_lt.mp (small i hi)
  · have hsub := UInt32.toNat_sub_of_le _ _ fits
    rw [← hp] at hsub
    have hpb := hp ▸ UInt32.le_iff_toNat_le.mp fits
    have hholes : t.holes = t.extents pre ++ (t.hole b).extent :: t.extents post := by
      rw [h.holes_eq, extents_append, extents_cons]
    have fit_of : ∀ i, p ≤ (t.hole i).hLen.toNat → clicks + m.alignClicks memflags ≤ (t.hole i).hLen :=
      fun i hfit => UInt32.le_iff_toNat_le.mpr (hp ▸ hfit)
    refine .inr ⟨_, _, _, (t.hole b).hBase, hholes, hpb, rfl, fun f hf hfit => ?_, fun f hf hfit => ?_, ?_⟩
    · obtain ⟨i, hi, rfl⟩ := List.mem_map.mp hf
      obtain ⟨hle, hlt⟩ := before i hi (fit_of i hfit)
      refine ⟨UInt32.le_iff_toNat_le.mp hle, fun hne => UInt32.lt_iff_toNat_lt.mp (hlt ?_)⟩
      rwa [ne_eq, ← UInt32.toNat_inj, ← hp]
    · obtain ⟨i, hi, rfl⟩ := List.mem_map.mp hf
      exact UInt32.le_iff_toNat_le.mp (after i hi (fit_of i hfit))
    · rw [hsub] at he
      by_cases hbig : (t.hole b).hLen.toNat - p < 2 ^ 31
      · rw [if_pos hbig] at he
        have hth := bite_threads h b (clicks + m.alignClicks memflags)
        refine .inr ⟨hbig, _, he, hth, ?_, rfl⟩
        rw [hth.holes_eq, bite_extents h fits (below b (by simp)), ← hp]
      · rw [if_neg hbig] at he
        exact .inl ⟨by simp only [Hole.extent]; omega, he⟩

end BestFit

end TcpAndParallel
