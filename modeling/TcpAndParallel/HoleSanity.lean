import TcpAndParallel.HoleThreads

namespace TcpAndParallel

variable {n : Nat} {t : Table n} {hs fs : List (Fin n)}

/-- The two marking loops of `holes_sanity_f`, which set `freelist` and `holelist`. A slot met
twice fails an assertion, so that `n + 1` rounds are never used up. -/
def markList (mark : Hole n → Hole n) :
    Nat → Option (Fin n) → Nat → Table n → Except Fault (Table n × Nat)
  | _, none, c, t => .ok (t, c)
  | 0, some _, _, _ => .error .endless
  | fuel + 1, some hp, c, t =>
    if (t.hole hp).freelist ∨ (t.hole hp).holelist then .error .assertion
    else if c < n then markList mark fuel (t.next hp) (c + 1) (t.modify hp mark)
    else .error .assertion

/-- The last loop: no two neighbours overlap and none are left uncoalesced. -/
def checkGaps (t : Table n) : Nat → Option (Fin n) → Except Fault Unit
  | _, none => .ok ()
  | 0, some _ => .error .endless
  | fuel + 1, some hp =>
    match t.next hp with
    | none => .ok ()
    | some q =>
      let stop := (t.hole hp).hBase + (t.hole hp).hLen
      if (t.hole hp).holelist ∧ stop ≤ (t.hole q).hBase ∧ stop < (t.hole q).hBase then
        checkGaps t fuel (some q)
      else .error .assertion

def Table.resetFlags (t : Table n) : Table n :=
  { t with hole := fun i => { t.hole i with freelist := false, holelist := false } }

def setFreelist (h : Hole n) : Hole n := { h with freelist := true }

def setHolelist (h : Hole n) : Hole n := { h with holelist := true }

def holesSanityF (t : Table n) : Except Fault (Table n) := do
  let (t, c) ← markList setFreelist (n + 1) t.freeSlots 0 t.resetFlags
  let (t, d) ← markList setHolelist (n + 1) t.holeHead 0 t
  if c + d ≠ n then .error .assertion
  else if ¬∀ h, ((t.hole h).holelist ∨ (t.hole h).freelist) ∧
      ¬((t.hole h).holelist ∧ (t.hole h).freelist) then .error .assertion
  else do
    checkGaps t (n + 1) t.holeHead
    .ok t

def Table.mark (t : Table n) (mark : Hole n → Hole n) (is : List (Fin n)) : Table n :=
  { t with hole := fun i => if i ∈ is then mark (t.hole i) else t.hole i }

theorem mark_next {mark : Hole n → Hole n} (keep : ∀ h, (mark h).hNext = h.hNext)
    (is : List (Fin n)) : (t.mark mark is).next = t.next := by
  funext i
  simp only [Table.next, Table.mark]
  split <;> simp [keep]

theorem markList_spec {mark : Hole n → Hole n} (keep : ∀ h, (mark h).hNext = h.hNext)
    {is : List (Fin n)} {p : Option (Fin n)} {fuel c : Nat} (h : Chain t.next p is)
    (unmarked : ∀ i ∈ is, (t.hole i).freelist = false ∧ (t.hole i).holelist = false)
    (enough : is.length ≤ fuel) (room : c + is.length ≤ n) :
    markList mark fuel p c t = .ok (t.mark mark is, c + is.length) := by
  induction is generalizing t p fuel c with
  | nil =>
    have hp : p = none := h
    subst hp
    cases fuel <;> simp [markList, Table.mark]
  | cons i is ih =>
    have hi := (List.nodup_cons.mp h.nodup).1
    obtain ⟨rfl, ht⟩ := h
    simp only [List.length_cons] at enough room
    obtain ⟨fuel, rfl⟩ : ∃ m, fuel = m + 1 := ⟨fuel - 1, by omega⟩
    have hu := unmarked i (by simp)
    have hnext : (t.modify i mark).next = t.next := by
      rw [Table.modify_next, keep]
      exact Function.update_eq_self ..
    have hother : ∀ j ∈ is, (t.modify i mark).hole j = t.hole j := fun j hj =>
      Table.modify_of_ne t (by rintro rfl; exact hi hj) mark
    have hrest : markList mark fuel (t.next i) (c + 1) (t.modify i mark) =
        .ok ((t.modify i mark).mark mark is, c + 1 + is.length) :=
      ih (hnext ▸ ht) (fun j hj => by simpa [hother j hj] using unmarked j (by simp [hj]))
        (by omega) (by omega)
    have hmark : (t.modify i mark).mark mark is = t.mark mark (i :: is) := by
      simp only [Table.mark, Table.mk.injEq, Table.modify_holeHead, Table.modify_freeSlots, true_and]
      refine ⟨funext fun j => ?_, rfl⟩
      by_cases hj : j = i
      · subst hj
        simp [hi]
      · simp [Table.modify_of_ne t hj, hj]
    simp [markList, hu.1, hu.2, (by omega : c < n), hrest, hmark]
    omega

theorem checkGaps_spec {is : List (Fin n)} {p : Option (Fin n)} {fuel : Nat}
    (h : Chain t.next p is) (onList : ∀ i ∈ is, (t.hole i).holelist = true) (below : t.Below is)
    (gaps : (t.extents is).Pairwise (fun a b => a.stop < b.base)) (enough : is.length ≤ fuel) :
    checkGaps t fuel p = .ok () := by
  induction is generalizing p fuel with
  | nil =>
    have hp : p = none := h
    subst hp
    cases fuel <;> rfl
  | cons i is ih =>
    obtain ⟨rfl, ht⟩ := h
    obtain ⟨fuel, rfl⟩ : ∃ m, fuel = m + 1 := ⟨fuel - 1, by simp at enough; omega⟩
    have hnext := ht.head_eq
    cases is with
    | nil => simp [checkGaps, hnext]
    | cons j is =>
      obtain ⟨hg, hgs⟩ := List.pairwise_cons.mp gaps
      have hij := hg (t.hole j).extent (by simp)
      have hlt : (t.hole i).hBase + (t.hole i).hLen < (t.hole j).hBase := by
        have hb := below i (by simp)
        simp only [Hole.extent, Extent.stop] at hij hb
        rw [UInt32.lt_iff_toNat_lt, UInt32.toNat_add, Nat.mod_eq_of_lt hb]
        exact hij
      have hrest : checkGaps t fuel (some j) = .ok () :=
        ih ⟨rfl, ht.2⟩ (fun k hk => onList k (by simp [hk])) (fun k hk => below k (by simp [hk])) hgs
          (by simpa using enough)
      simp [checkGaps, hnext, onList i (by simp), UInt32.le_of_lt hlt, hlt, hrest]

theorem setFreelist_hNext (h : Hole n) : (setFreelist h).hNext = h.hNext := rfl

theorem setHolelist_hNext (h : Hole n) : (setHolelist h).hNext = h.hNext := rfl

theorem Threads.length_add (h : Threads t hs fs) : fs.length + hs.length = n := by
  have hall : (hs ++ fs).toFinset = Finset.univ := by
    ext i
    simpa using h.all i
  have hcard := List.toFinset_card_of_nodup h.apart
  rw [hall, Finset.card_univ, Fintype.card_fin, List.length_append] at hcard
  omega

/-- Every assertion holds when the lists share out the slots and the holes have gaps. -/
theorem holesSanityF_ok (h : Threads t hs fs) (below : t.Below hs)
    (gaps : (t.extents hs).Pairwise (fun a b => a.stop < b.base)) :
    ∃ t', holesSanityF t = .ok t' := by
  have hlen := h.length_add
  let t₁ := t.resetFlags.mark setFreelist fs
  let t₂ := t₁.mark setHolelist hs
  have chain₀ : Chain t.resetFlags.next t.freeSlots fs := h.free
  have free : markList setFreelist (n + 1) t.freeSlots 0 t.resetFlags = .ok (t₁, 0 + fs.length) :=
    markList_spec setFreelist_hNext chain₀ (fun _ _ => ⟨rfl, rfl⟩) (by omega) (by omega)
  have next₁ : t₁.next = t.next := mark_next setFreelist_hNext fs
  have unmarked : ∀ i ∈ hs, (t₁.hole i).freelist = false ∧ (t₁.hole i).holelist = false := by
    intro i hi
    simp [t₁, Table.mark, h.notMem_free hi, Table.resetFlags]
  have holes : markList setHolelist (n + 1) t.holeHead 0 t₁ = .ok (t₂, 0 + hs.length) :=
    markList_spec setHolelist_hNext (next₁ ▸ h.holes) unmarked (by omega) (by omega)
  have next₂ : t₂.next = t.next := (mark_next setHolelist_hNext hs).trans next₁
  have onList : ∀ i ∈ hs, (t₂.hole i).holelist = true := by
    intro i hi
    simp [t₂, Table.mark, hi, setHolelist]
  have extent₂ : ∀ i, (t₂.hole i).extent = (t.hole i).extent := by
    intro i
    simp only [t₂, t₁, Table.mark, Table.resetFlags]
    split_ifs <;> rfl
  have exactly : ∀ i, ((t₂.hole i).holelist = true ∨ (t₂.hole i).freelist = true) ∧
      ¬((t₂.hole i).holelist = true ∧ (t₂.hole i).freelist = true) := by
    intro i
    by_cases hi : i ∈ hs
    · simp [t₂, t₁, Table.mark, Table.resetFlags, setHolelist, hi, h.notMem_free hi]
    · have hf := (h.all i).resolve_left hi
      simp [t₂, t₁, Table.mark, Table.resetFlags, setFreelist, hi, hf]
  have last : checkGaps t₂ (n + 1) t.holeHead = .ok () := by
    refine checkGaps_spec (next₂ ▸ h.holes) onList (fun i hi => ?_) ?_ (by omega)
    · rw [extent₂]
      exact below i hi
    · rwa [extents_congr (fun i _ => extent₂ i)]
  refine ⟨t₂, ?_⟩
  have hn : ¬0 + fs.length + (0 + hs.length) ≠ n := by omega
  simp only [holesSanityF, free, bind, Except.bind]
  rw [show t₁.holeHead = t.holeHead from rfl, holes]
  simp only [hn, if_false, not_not.mpr exactly]
  rw [show t₂.holeHead = t.holeHead from rfl, last]

end TcpAndParallel
