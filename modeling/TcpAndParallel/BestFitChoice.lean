import TcpAndParallel.BestFitRuns
import TcpAndParallel.FitAgreement

namespace TcpAndParallel

namespace BestFit

variable {n : Nat}

/-- What the loop has found where no hole has 2^31 clicks or more: nothing that fits, or the first
of the smallest fits. -/
inductive Least (clicks : UInt32) (t : Table n) : List (Fin n) → Scan n → Prop
  | unfit {xs : List (Fin n)} (small : ∀ i ∈ xs, (t.hole i).hLen < clicks) :
      Least clicks t xs ⟨-1, none, none⟩
  | fit {pre post : List (Fin n)} {b : Fin n} (fits : clicks ≤ (t.hole b).hLen)
      (before : ∀ i ∈ pre, clicks ≤ (t.hole i).hLen → (t.hole b).hLen < (t.hole i).hLen)
      (after : ∀ i ∈ post, clicks ≤ (t.hole i).hLen → (t.hole b).hLen ≤ (t.hole i).hLen) :
      Least clicks t (pre ++ b :: post) ⟨((t.hole b).hLen - clicks).toInt32, some b, pre.getLast?⟩

variable {clicks : UInt32} {t : Table n} {xs : List (Fin n)} {s : Scan n} {hp : Fin n}

theorem Least.pass_small (h : Least clicks t xs s) (hlt : (t.hole hp).hLen < clicks) :
    Least clicks t (xs ++ [hp]) s := by
  cases h with
  | unfit small => exact .unfit (by simpa [or_imp, forall_and, hlt] using small)
  | @fit pre post b fits before after =>
    rw [List.append_assoc, List.cons_append]
    refine .fit fits before fun i hi hfit => ?_
    rcases List.mem_append.mp hi with hi | hi
    · exact after i hi hfit
    · rw [List.mem_singleton.mp hi] at hfit
      exact absurd hfit (UInt32.not_le.mpr hlt)

theorem Least.pass_large (h : Least clicks t xs s) (hlt : clicks < (t.hole hp).hLen)
    (short : ∀ i ∈ xs, (t.hole i).hLen.toNat < 2 ^ 31) (short' : (t.hole hp).hLen.toNat < 2 ^ 31) :
    Least clicks t (xs ++ [hp])
      (if (t.hole hp).hLen - clicks < s.remainder.toUInt32 ∨ s.remainder = -1 then
        ⟨((t.hole hp).hLen - clicks).toInt32, some hp, xs.getLast?⟩
      else s) := by
  have hle := UInt32.le_of_lt hlt
  cases h with
  | unfit small =>
    rw [if_pos (.inr rfl)]
    refine .fit hle (fun i hi hfit => ?_) (by simp)
    exact absurd hfit (UInt32.not_le.mpr (small i hi))
  | @fit pre post b fits before after =>
    have hsub := UInt32.toNat_sub_of_le _ _ hle
    have hsub' := UInt32.toNat_sub_of_le _ _ fits
    have hmax : (-1 : UInt32).toNat = 2 ^ 32 - 1 := rfl
    have hb := short b (by simp)
    have hcond : (t.hole hp).hLen - clicks < (t.hole b).hLen - clicks ∨
        (t.hole b).hLen - clicks = -1 ↔ (t.hole hp).hLen < (t.hole b).hLen := by
      rw [UInt32.le_iff_toNat_le] at hle fits
      rw [UInt32.lt_iff_toNat_lt, UInt32.lt_iff_toNat_lt, ← UInt32.toNat_inj, hmax, hsub, hsub']
      omega
    simp only [UInt32.toUInt32_toInt32, toInt32_eq_neg_one_iff, hcond]
    split
    next hless =>
      refine .fit hle (fun i hi hfit => ?_) (by simp)
      rcases List.mem_append.mp hi with hi | hi
      · exact UInt32.lt_trans hless (before i hi hfit)
      · rcases List.mem_cons.mp hi with rfl | hi
        · exact hless
        · exact UInt32.lt_of_lt_of_le hless (after i hi hfit)
    next hkeep =>
      rw [List.append_assoc, List.cons_append]
      refine .fit fits before fun i hi hfit => ?_
      rcases List.mem_append.mp hi with hi | hi
      · exact after i hi hfit
      · rw [List.mem_singleton.mp hi]
        exact UInt32.not_lt.mp hkeep

theorem scan_least {ys : List (Fin n)} {p : Option (Fin n)} {fuel : Nat} (h : Least clicks t xs s)
    (hc : Chain t.next p ys) (short : ∀ i ∈ xs ++ ys, (t.hole i).hLen.toNat < 2 ^ 31)
    (none_exact : ∀ i ∈ xs, (t.hole i).hLen ≠ clicks) (enough : ys.length ≤ fuel) :
    ∃ s', scan clicks t fuel xs.getLast? p s = .ok s' ∧ Least clicks t (xs ++ ys) s' := by
  induction ys generalizing xs p fuel s with
  | nil =>
    have hp : p = none := hc
    subst hp
    exact ⟨s, by cases fuel <;> rfl, by simpa using h⟩
  | cons hp ys ih =>
    obtain ⟨rfl, ht⟩ := hc
    obtain ⟨fuel, rfl⟩ : ∃ m, fuel = m + 1 := ⟨fuel - 1, by simp at enough; omega⟩
    simp only [scan]
    by_cases hex : (t.hole hp).hLen = clicks
    · rw [if_pos hex]
      refine ⟨_, rfl, ?_⟩
      have hs : Least clicks t (xs ++ hp :: ys)
          ⟨((t.hole hp).hLen - clicks).toInt32, some hp, xs.getLast?⟩ := by
        refine .fit (hex ▸ UInt32.le_refl _) (fun i hi hfit => ?_) (fun i _ hfit => hex ▸ hfit)
        exact hex ▸ UInt32.lt_of_le_of_ne hfit (Ne.symm (none_exact i hi))
      simpa [hex] using hs
    · rw [if_neg hex]
      have none_exact' : ∀ i ∈ xs ++ [hp], (t.hole i).hLen ≠ clicks := by
        intro i hi
        rcases List.mem_append.mp hi with hi | hi
        · exact none_exact i hi
        · exact List.mem_singleton.mp hi ▸ hex
      have short' : ∀ i ∈ (xs ++ [hp]) ++ ys, (t.hole i).hLen.toNat < 2 ^ 31 := by simpa using short
      have hlen : ys.length ≤ fuel := by simpa using enough
      by_cases hlt : clicks < (t.hole hp).hLen
      · have hpass := h.pass_large hlt (fun i hi => short i (by simp [hi])) (short hp (by simp))
        obtain ⟨s', hs, hleast⟩ := ih hpass ht short' none_exact' hlen
        exact ⟨s', by simpa [hlt] using hs, by simpa using hleast⟩
      · have hsmall := UInt32.lt_of_le_of_ne (UInt32.not_lt.mp hlt) hex
        obtain ⟨s', hs, hleast⟩ := ih (h.pass_small hsmall) ht short' none_exact' hlen
        exact ⟨s', by simpa [hlt] using hs, by simpa using hleast⟩

/-- A hole of the least length among those that fit, the lowest of these. -/
structure BestHole (hs : List (Fin n)) (clicks : UInt32) (t : Table n) (b : Fin n) : Prop where
  listed : b ∈ hs
  fits : clicks ≤ (t.hole b).hLen
  least : ∀ i ∈ hs, clicks ≤ (t.hole i).hLen → (t.hole b).hLen ≤ (t.hole i).hLen
  lowest : ∀ i ∈ hs, (t.hole i).hLen = (t.hole b).hLen → (t.hole b).hBase ≤ (t.hole i).hBase

theorem Least.bestHole {b : Fin n} {r : Int32} {p : Option (Fin n)}
    (h : Least clicks t xs ⟨r, some b, p⟩)
    (ascending : xs.Pairwise fun i j => (t.hole i).hBase ≤ (t.hole j).hBase) :
    BestHole xs clicks t b := by
  cases h with
  | @fit pre post b fits before after =>
    obtain ⟨-, hpost, -⟩ := List.pairwise_append.mp ascending
    refine ⟨by simp, fits, fun i hi hfit => ?_, fun i hi he => ?_⟩
    · rcases List.mem_append.mp hi with hi | hi
      · exact UInt32.le_of_lt (before i hi hfit)
      · rcases List.mem_cons.mp hi with rfl | hi
        · exact UInt32.le_refl _
        · exact after i hi hfit
    · rcases List.mem_append.mp hi with hi | hi
      · exact absurd (he ▸ before i hi (he ▸ fits)) (UInt32.lt_irrefl _)
      · rcases List.mem_cons.mp hi with rfl | hi
        · exact UInt32.le_refl _
        · exact (List.pairwise_cons.mp hpost).1 i hi

/-- The scan ends with the best hole, and `alloc_mem` takes its front. -/
theorem scan_chooses_best {m : Minix} {clicks memflags : UInt32} {t : Table n} {hs fs : List (Fin n)}
    (h : Threads t hs fs) (ascending : hs.Pairwise fun i j => (t.hole i).hBase ≤ (t.hole j).hBase)
    (short : ∀ i ∈ hs, (t.hole i).hLen.toNat < 2 ^ 31)
    (room : ∃ i ∈ hs, clicks + m.alignClicks memflags ≤ (t.hole i).hLen) :
    ∃ b remainder prevBest, BestHole hs (clicks + m.alignClicks memflags) t b ∧
      scan (clicks + m.alignClicks memflags) t n none t.holeHead ⟨-1, none, none⟩ =
        .ok ⟨remainder, some b, prevBest⟩ ∧
      allocMem m clicks memflags t =
        .ok ((t.hole b).hBase, t.bite b (clicks + m.alignClicks memflags)) := by
  have start : Least (clicks + m.alignClicks memflags) t [] ⟨-1, none, none⟩ := .unfit (by simp)
  obtain ⟨s, hs', hleast⟩ := scan_least start h.holes (by simpa using short) (by simp) h.length_le
  rw [List.getLast?_nil] at hs'
  rw [List.nil_append] at hleast
  cases hleast with
  | unfit small =>
    obtain ⟨i, hi, hfit⟩ := room
    exact absurd hfit (UInt32.not_le.mpr (small i hi))
  | @fit pre post b fits before after =>
    refine ⟨b, _, _, (Least.fit fits before after).bestHole ascending, hs', ?_⟩
    have hsub := UInt32.toNat_sub_of_le _ _ fits
    have hb := short b (by simp)
    have hpos : -1 < ((t.hole b).hLen - (clicks + m.alignClicks memflags)).toInt32 := by
      rw [neg_one_lt_toInt32_iff, hsub]
      omega
    simp only [allocMem, hs', bind, Except.bind, readLocal]
    exact if_pos hpos

def threeHoles : Table 3 where
  hole i :=
    if i = 0 then ⟨some 1, 16, 8, false, false⟩
    else if i = 1 then ⟨some 2, 40, 5, false, false⟩
    else ⟨none, 64, 5, false, false⟩
  holeHead := some 0
  freeSlots := none
  cleared := []

theorem threeHoles_threads : Threads threeHoles [0, 1, 2] [] :=
  ⟨⟨rfl, rfl, rfl, rfl⟩, rfl, by decide, by decide⟩

theorem scan_chooses_best_of_three : ∃ b, BestHole [0, 1, 2] 3 threeHoles b ∧
    allocMem pc 3 0 threeHoles = .ok ((threeHoles.hole b).hBase, threeHoles.bite b 3) := by
  obtain ⟨b, -, -, hbest, -, he⟩ := @scan_chooses_best 3 pc 3 0 threeHoles [0, 1, 2] [] threeHoles_threads
    (by decide) (by decide) ⟨0, by decide, by decide⟩
  exact ⟨b, hbest, he⟩

/-- The tables that `mem_init` and the calls after it lead to, whoever makes them. -/
inductive Reachable (m : Minix) : Table n → Prop
  | init {chunks : List Memory} {t : Table n} (h : memInit n chunks = .ok t) : Reachable m t
  | alloc {clicks memflags base : UInt32} {t t' : Table n} (ht : Reachable m t)
      (h : allocMem m clicks memflags t = .ok (base, t')) : Reachable m t'
  | free {base clicks : UInt32} {t t' : Table n} (ht : Reachable m t)
      (h : freeMem base clicks t = .ok t') : Reachable m t'

theorem memInit_threads {chunks : List Memory} {t : Table n} (h : memInit n chunks = .ok t) :
    ∃ hs fs, Threads t hs fs := by
  induction chunks generalizing t with
  | nil =>
    obtain rfl := Except.ok.inj h
    exact ⟨[], _, unused_threads n⟩
  | cons c chunks ih =>
    rw [memInit_cons] at h
    cases hm : memInit n chunks with
    | error fault => simp [hm, bind, Except.bind] at h
    | ok t₀ =>
      obtain ⟨hs, fs, hth⟩ := ih hm
      have he : freeMem c.base c.size t₀ = .ok t := by
        rw [← memInit_free, ← h, hm]
        rfl
      rcases freeMem_threads c.base c.size hth with hfull | ⟨t', hs', fs', ht, hth'⟩
      · simp [hfull] at he
      · obtain rfl : t' = t := by simpa [ht] using he
        exact ⟨hs', fs', hth'⟩

theorem Reachable.threads {m : Minix} {t : Table n} (h : Reachable m t) : ∃ hs fs, Threads t hs fs := by
  induction h with
  | init h => exact memInit_threads h
  | @alloc clicks memflags base t t' _ h ih =>
    obtain ⟨hs, fs, hth⟩ := ih
    rcases @allocMem_cases n m clicks memflags t hs fs hth with ⟨-, he⟩ | ⟨pre, b, post, -, -, -, -, he⟩
    · simp [he] at h
    · rw [he] at h
      split at h
      next =>
        obtain ⟨-, rfl⟩ : _ ∧ t.bite b (clicks + m.alignClicks memflags) = t' := by simpa using h
        exact ⟨hs, fs, bite_threads hth b _⟩
      next => simp at h
  | @free base clicks t t' _ h ih =>
    obtain ⟨hs, fs, hth⟩ := ih
    rcases freeMem_threads base clicks hth with hfull | ⟨u, hs', fs', hu, hth'⟩
    · simp [hfull] at h
    · obtain rfl : u = t' := by simpa [hu] using h
      exact ⟨hs', fs', hth'⟩

/-- The call reports that there is no memory and changes nothing. -/
def FailsCleanly (m : Minix) (clicks memflags : UInt32) (t : Table n) : Prop :=
  allocMem m clicks memflags t = .ok (m.noMem, t)

/-- No call that has to fail does so cleanly: behind the loop `best_ptr` is followed, which was
never assigned. -/
theorem never_failsCleanly {m : Minix} {t : Table n} (h : Reachable m t) (clicks memflags : UInt32)
    (small : ∀ e ∈ t.holes, e.len < (clicks + m.alignClicks memflags).toNat) :
    allocMem m clicks memflags t = .error .unset ∧ ¬FailsCleanly m clicks memflags t := by
  obtain ⟨hs, fs, hth⟩ := h.threads
  have he : allocMem m clicks memflags t = .error .unset := by
    rcases @allocMem_cases n m clicks memflags t hs fs hth with ⟨-, he⟩ | ⟨pre, b, post, rfl, fits, -⟩
    · exact he
    · have hb : (t.hole b).extent ∈ t.holes := by
        rw [hth.holes_eq]
        exact List.mem_map_of_mem (by simp)
      exact absurd (UInt32.le_iff_toNat_le.mp fits) (Nat.not_le.mpr (small _ hb))
  refine ⟨he, fun hc => ?_⟩
  rw [FailsCleanly, he] at hc
  simp at hc

theorem never_failsCleanly_nine : ∃ t : Table 512, memInit 512 [⟨16, 8⟩] = .ok t ∧
    ¬FailsCleanly pc 9 0 t :=
  ⟨_, rfl, (never_failsCleanly (@Reachable.init 512 pc [⟨16, 8⟩] _ rfl) 9 0 (by decide)).2⟩

theorem empty_list_unset : ∃ t : Table 512, memInit 512 [] = .ok t ∧ t.holes = [] ∧
    allocMem pc 1 0 t = .error .unset ∧ ¬FailsCleanly pc 1 0 t := by
  refine ⟨_, rfl, rfl, rfl, ?_⟩
  intro h
  rw [FailsCleanly, show allocMem pc 1 0 (Table.unused 512) = .error .unset from rfl] at h
  simp at h

end BestFit

end TcpAndParallel
