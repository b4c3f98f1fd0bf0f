import TcpAndParallel.HoleTable
import Mathlib.Data.Fintype.Card

namespace TcpAndParallel

variable {n : Nat} {t : Table n} {hs fs xs ys : List (Fin n)} {a b : Fin n}

/-- Every listed entry ends below the address bound, so that its end is a `phys_clicks`. -/
def Table.Below (t : Table n) (is : List (Fin n)) : Prop :=
  ∀ i ∈ is, (t.hole i).extent.stop < 2 ^ 32

theorem Threads.nodup (h : Threads t hs fs) : hs.Nodup := h.holes.nodup

theorem Threads.notMem_free (h : Threads t hs fs) {i : Fin n} (hi : i ∈ hs) : i ∉ fs :=
  fun hf => (List.nodup_append.mp h.apart).2.2 i hi i hf rfl

theorem Threads.length_le (h : Threads t hs fs) : hs.length ≤ n := by
  simpa using h.nodup.length_le_card

theorem extents_congr {t t' : Table n} {is : List (Fin n)}
    (h : ∀ i ∈ is, (t'.hole i).extent = (t.hole i).extent) : t'.extents is = t.extents is :=
  List.map_congr_left h

@[simp] theorem extents_cons (t : Table n) (i : Fin n) (is : List (Fin n)) :
    t.extents (i :: is) = (t.hole i).extent :: t.extents is := rfl

theorem extents_append (t : Table n) (is js : List (Fin n)) :
    t.extents (is ++ js) = t.extents is ++ t.extents js := List.map_append

theorem abuts_iff (ha : (t.hole a).extent.stop < 2 ^ 32) :
    abuts t a b = true ↔ (t.hole a).extent.stop = (t.hole b).extent.base := by
  simp only [abuts, beq_iff_eq, ← UInt32.toNat_inj, UInt32.toNat_add, Hole.extent, Extent.stop] at *
  rw [Nat.mod_eq_of_lt ha]

theorem recycle_next (t : Table n) (a : Fin n) :
    (t.recycle a).next = Function.update t.next a t.freeSlots :=
  Table.modify_next t a fun h => { h with hNext := t.freeSlots, hBase := 0, hLen := 0 }

theorem recycle_of_ne (t : Table n) {i : Fin n} (hi : i ≠ a) : (t.recycle a).hole i = t.hole i :=
  Table.modify_of_ne t hi fun h => { h with hNext := t.freeSlots, hBase := 0, hLen := 0 }

theorem recycle_threads (hh : Chain t.next t.holeHead hs) (hf : Chain t.next t.freeSlots fs)
    (hn : (a :: hs ++ fs).Nodup) (hall : ∀ i, i = a ∨ i ∈ hs ∨ i ∈ fs) :
    Threads (t.recycle a) hs (a :: fs) := by
  obtain ⟨ha, hn⟩ := List.nodup_cons.mp hn
  have hah : a ∉ hs := fun hm => ha (by simp [hm])
  have haf : a ∉ fs := fun hm => ha (by simp [hm])
  refine ⟨?_, ?_, ?_, ?_⟩
  · rw [recycle_next]
    exact hh.update_of_notMem hah
  · rw [recycle_next]
    exact hf.push haf
  · rw [List.nodup_middle]
    exact List.nodup_cons.mpr ⟨ha, hn⟩
  · intro i
    have := hall i
    simp only [List.mem_cons]
    tauto

theorem delSlot_head (prev : Option (Fin n)) (h : Threads t (a :: ys) fs) :
    ∃ t', delSlot prev a t = .ok t' ∧ Threads t' ys (a :: fs) ∧
      (∀ i ≠ a, t'.hole i = t.hole i) ∧ t'.cleared = t.cleared := by
  obtain ⟨⟨hh, hy⟩, hf, hn, hall⟩ := h
  refine ⟨_, if_pos hh, recycle_threads hy hf hn ?_, ?_, rfl⟩
  · simpa [or_assoc] using hall
  · exact fun i hi => recycle_of_ne _ hi

theorem delSlot_after (h : Threads t (xs ++ a :: b :: ys) fs) :
    ∃ t', delSlot (some a) b t = .ok t' ∧ Threads t' (xs ++ a :: ys) (b :: fs) ∧
      (∀ i ≠ b, (t'.hole i).extent = (t.hole i).extent) ∧ t'.cleared = t.cleared := by
  have hn := h.apart
  obtain ⟨hh, hf, -, hall⟩ := h
  have hm : ((xs ++ [a]) ++ b :: ys).Perm (b :: ((xs ++ [a]) ++ ys)) := List.perm_middle
  have hm' : (xs ++ a :: b :: ys).Perm (b :: (xs ++ a :: ys)) := by simpa using hm
  have hp : (b :: (xs ++ a :: ys) ++ fs).Nodup := (hm'.append_right fs).nodup_iff.mp hn
  have hne : t.holeHead ≠ some b := by
    rw [hh.head_eq]
    intro he
    cases xs with
    | nil =>
      have hab : a = b := by simpa using he
      simp [hab] at hp
    | cons x xs =>
      have hxb : x = b := by simpa using he
      simp [hxb] at hp
  have haf : a ∉ fs := fun hm => (List.nodup_append.mp hn).2.2 a (by simp) a hm rfl
  refine ⟨_, if_neg hne, recycle_threads ?_ ?_ hp ?_, ?_, rfl⟩
  · rw [Table.modify_next]
    exact hh.remove_after
  · rw [Table.modify_next]
    exact hf.update_of_notMem haf
  · intro i
    have := hall i
    simp only [List.mem_append, List.mem_cons] at this ⊢
    tauto
  · intro i hi
    rw [recycle_of_ne _ hi]
    by_cases hia : i = a
    · subst hia
      simp [Hole.extent]
    · rw [Table.modify_of_ne _ hia]

theorem delSlot_spec (h : Threads t (xs ++ b :: ys) fs) :
    ∃ t', delSlot xs.getLast? b t = .ok t' ∧ Threads t' (xs ++ ys) (b :: fs) ∧
      (∀ i ≠ b, (t'.hole i).extent = (t.hole i).extent) ∧ t'.cleared = t.cleared := by
  rcases List.eq_nil_or_concat xs with rfl | ⟨xs, a, rfl⟩
  · obtain ⟨t', ht, hth, hsame, hcl⟩ := delSlot_head none h
    exact ⟨t', ht, hth, fun i hi => congrArg _ (hsame i hi), hcl⟩
  · simp only [List.concat_eq_append, List.append_assoc, List.singleton_append,
      List.getLast?_concat] at *
    exact delSlot_after h

theorem Threads.modify (h : Threads t hs fs) (i : Fin n) (f : Hole n → Hole n)
    (keep : (f (t.hole i)).hNext = (t.hole i).hNext) : Threads (t.modify i f) hs fs := by
  have same : (t.modify i f).next = t.next := by
    rw [Table.modify_next, keep]
    exact Function.update_eq_self ..
  exact ⟨same ▸ h.holes, same ▸ h.free, h.apart, h.all⟩

theorem Threads.notMem_of_split (h : Threads t (xs ++ a :: ys) fs) : a ∉ xs ∧ a ∉ ys := by
  have ha := (List.nodup_cons.mp (List.nodup_middle.mp h.nodup)).1
  exact ⟨fun hm => ha (by simp [hm]), fun hm => ha (by simp [hm])⟩

theorem absorbNext_spec (h : Threads t (xs ++ a :: b :: ys) fs) (below : t.Below (a :: b :: ys))
    (touch : (t.hole a).extent.stop = (t.hole b).extent.base) :
    ∃ t', absorbNext a b t = .ok t' ∧ Threads t' (xs ++ a :: ys) (b :: fs) ∧
      t'.extents xs = t.extents xs ∧
      t'.extents (a :: ys) = ⟨(t.hole a).extent.base,
        (t.hole a).extent.len + (t.hole b).extent.len⟩ :: t.extents ys ∧
      t'.Below (a :: ys) ∧ t'.cleared = t.cleared := by
  have ha := h.notMem_of_split
  have hb : b ∉ xs ++ [a] ∧ b ∉ ys := Threads.notMem_of_split (by simpa using h)
  have stop := below b (by simp)
  obtain ⟨t', ht, hth, hsame, hcl⟩ := delSlot_after
    (h.modify a (fun g => { g with hLen := g.hLen + (t.hole b).hLen }) rfl)
  have first : (t'.hole a).extent =
      ⟨(t.hole a).extent.base, (t.hole a).extent.len + (t.hole b).extent.len⟩ := by
    rw [hsame a (fun he => hb.1 (by simp [he]))]
    simp only [Table.modify_self, Hole.extent, Extent.stop, UInt32.toNat_add] at touch stop ⊢
    rw [Nat.mod_eq_of_lt (by omega)]
  have other : ∀ i ≠ a, i ≠ b → (t'.hole i).extent = (t.hole i).extent := by
    intro i hia hib
    rw [hsame i hib, Table.modify_of_ne _ hia]
  have before : ∀ i ∈ xs, (t'.hole i).extent = (t.hole i).extent := fun i hi =>
    other i (fun he => ha.1 (he ▸ hi)) (fun he => hb.1 (by simp [← he, hi]))
  have after : ∀ i ∈ ys, (t'.hole i).extent = (t.hole i).extent := fun i hi =>
    other i (fun he => ha.2 (by simp [← he, hi])) (fun he => hb.2 (he ▸ hi))
  refine ⟨t', ht, hth, extents_congr before, ?_, ?_, hcl⟩
  · rw [extents_cons, first, extents_congr after]
  · intro i hi
    rcases List.mem_cons.mp hi with rfl | hi
    · rw [first]
      simp only [Extent.stop] at *
      omega
    · rw [after i hi]
      exact below i (by simp [hi])

theorem mergeNext_spec (h : Threads t (xs ++ a :: ys) fs) (below : t.Below (a :: ys)) :
    ∃ t' ys' fs', mergeNext a t = .ok t' ∧ Threads t' (xs ++ a :: ys') fs' ∧
      t'.extents xs = t.extents xs ∧ t'.extents (a :: ys') = absorb (t.extents (a :: ys)) ∧
      t'.cleared = t.cleared := by
  have hnext : t.next a = ys.head? := h.holes.next_eq
  cases ys with
  | nil => exact ⟨t, [], fs, by simp [mergeNext, hnext], h, rfl, rfl, rfl⟩
  | cons b ys =>
    simp only [List.head?_cons] at hnext
    have hab := abuts_iff (b := b) (below a (by simp))
    by_cases touch : (t.hole a).extent.stop = (t.hole b).extent.base
    · obtain ⟨t', ht, hth, hxs, hays, -, hcl⟩ := absorbNext_spec h below touch
      refine ⟨t', ys, b :: fs, by simp [mergeNext, hnext, hab.mpr touch, ht], hth, hxs, ?_, hcl⟩
      simp [absorb, touch, hays]
    · exact ⟨t, b :: ys, fs, by simp [mergeNext, hnext, mt hab.mp touch], h, rfl,
        by simp [absorb, touch], rfl⟩

/-- `merge` is `coalesce` on the part of the list that begins with `a`. -/
theorem merge_spec (h : Threads t (xs ++ a :: ys) fs) (below : t.Below (a :: ys)) :
    ∃ t' ys' fs', merge a t = .ok t' ∧ Threads t' (xs ++ a :: ys') fs' ∧
      t'.extents xs = t.extents xs ∧ t'.extents (a :: ys') = coalesce (t.extents (a :: ys)) ∧
      t'.cleared = t.cleared := by
  have hnext : t.next a = ys.head? := h.holes.next_eq
  cases ys with
  | nil => exact ⟨t, [], fs, by simp [merge, hnext], h, rfl, rfl, rfl⟩
  | cons b ys =>
    simp only [List.head?_cons] at hnext
    have hab := abuts_iff (b := b) (below a (by simp))
    by_cases touch : (t.hole a).extent.stop = (t.hole b).extent.base
    · obtain ⟨t₁, ht, hth, hxs, hays, below₁, hcl⟩ := absorbNext_spec h below touch
      obtain ⟨t', ys', fs', ht', hth', hxs', hays', hcl'⟩ := mergeNext_spec hth below₁
      refine ⟨t', ys', fs', ?_, hth', hxs'.trans hxs, ?_, hcl'.trans hcl⟩
      · simp [merge, hnext, hab.mpr touch, ht, ht', bind, Except.bind]
      · simp [hays', hays, coalesce, touch]
    · have hth : Threads t ((xs ++ [a]) ++ b :: ys) fs := by simpa using h
      obtain ⟨t', ys', fs', ht', hth', hxs', hays', hcl'⟩ := mergeNext_spec hth
        (fun i hi => below i (List.mem_cons_of_mem a hi))
      rw [extents_append, extents_append] at hxs'
      obtain ⟨hx, ha⟩ := List.append_inj' hxs' rfl
      refine ⟨t', b :: ys', fs', ?_, by simpa using hth', hx, ?_, hcl'⟩
      · simp [merge, hnext, mt hab.mp touch, ht']
      · have ha' : (t'.hole a).extent = (t.hole a).extent := (List.cons.inj ha).1
        rw [extents_cons, hays', ha']
        simp [coalesce, touch]

def Table.holes (t : Table n) : List Extent :=
  t.extents ((walk t.next n t.holeHead).getD [])

theorem Threads.holes_eq (h : Threads t hs fs) :
    t.holes = t.extents hs := by
  rw [Table.holes, walk_eq_some_iff.mpr ⟨h.holes, h.length_le⟩, Option.getD_some]

theorem findPrev_spec (base : UInt32) (prev : Option (Fin n)) {fuel : Nat} {p : Option (Fin n)}
    {is : List (Fin n)}
    (h : Chain t.next p is) (enough : is.length ≤ fuel) :
    ∃ js ks, is = js ++ ks ∧ (∀ i ∈ js, (t.hole i).hBase < base) ∧
      (∀ k ∈ ks.head?, ¬(t.hole k).hBase < base) ∧
      findPrev base t fuel prev p = .ok (js.getLast?.or prev) := by
  induction is generalizing prev p fuel with
  | nil =>
    have hp : p = none := h
    subst hp
    exact ⟨[], [], rfl, by simp, by simp, by cases fuel <;> rfl⟩
  | cons i is ih =>
    obtain ⟨rfl, ht⟩ := h
    obtain ⟨fuel, rfl⟩ : ∃ m, fuel = m + 1 := ⟨fuel - 1, by simp at enough; omega⟩
    by_cases hlt : (t.hole i).hBase < base
    · obtain ⟨js, ks, rfl, hjs, hks, hf⟩ := ih (some i) ht (by simpa using enough)
      refine ⟨i :: js, ks, rfl, by simpa [hlt] using hjs, hks, ?_⟩
      simp only [findPrev, hlt, if_true, hf]
      cases js <;> simp [List.getLast?_cons]
    · exact ⟨[], i :: is, rfl, by simp, by simpa using hlt, by simp [findPrev, hlt]⟩

theorem Table.Below.extents_stop (h : t.Below hs) : ∀ e ∈ t.extents hs, e.stop < 2 ^ 32 := by
  intro e he
  obtain ⟨i, hi, rfl⟩ := List.mem_map.mp he
  exact h i hi

theorem freeMem_full {base clicks : UInt32} (hc : clicks ≠ 0) (h : Threads t hs []) :
    freeMem base clicks t = .error .tableFull := by
  have hfree : t.freeSlots = none := h.free
  simp [freeMem, hc, hfree]

theorem takeSlot_next (t : Table n) (i : Fin n) (base clicks : UInt32) :
    (t.takeSlot i base clicks).next = t.next := by
  have h := Table.modify_next t i fun h => { h with hBase := base, hLen := clicks }
  exact h.trans (Function.update_eq_self ..)

theorem takeSlot_self (t : Table n) (i : Fin n) (base clicks : UInt32) :
    ((t.takeSlot i base clicks).hole i).extent = ⟨base.toNat, clicks.toNat⟩ := by
  simp [Table.takeSlot, Table.modify, Hole.extent]

theorem takeSlot_of_ne (t : Table n) {i j : Fin n} (h : j ≠ i) (base clicks : UInt32) :
    (t.takeSlot i base clicks).hole j = t.hole j := Function.update_of_ne h ..

theorem extent_modify_next (t : Table n) (i j : Fin n) (p : Option (Fin n)) :
    ((t.modify i fun h => { h with hNext := p }).hole j).extent = (t.hole j).extent := by
  by_cases h : j = i
  · subst h
    simp [Hole.extent]
  · rw [Table.modify_of_ne t h]

theorem insertFront_extent (t : Table n) (i j : Fin n) :
    ((t.insertFront i).hole j).extent = (t.hole j).extent := extent_modify_next ..

theorem insertAfter_extent (t : Table n) (p i j : Fin n) :
    ((t.insertAfter p i).hole j).extent = (t.hole j).extent :=
  (extent_modify_next ..).trans (extent_modify_next ..)

theorem insertFront_threads (hh : Chain t.next t.holeHead hs) (hf : Chain t.next t.freeSlots fs)
    (hn : (a :: hs ++ fs).Nodup) (hall : ∀ i, i = a ∨ i ∈ hs ∨ i ∈ fs) :
    Threads (t.insertFront a) (a :: hs) fs := by
  have ha := (List.nodup_cons.mp hn).1
  have hnext : (t.insertFront a).next = Function.update t.next a t.holeHead :=
    Table.modify_next t a fun h => { h with hNext := t.holeHead }
  refine ⟨?_, ?_, hn, by simpa [or_assoc] using hall⟩
  · rw [hnext]
    exact hh.push (fun hm => ha (List.mem_append_left fs hm))
  · rw [hnext]
    exact hf.update_of_notMem (fun hm => ha (List.mem_append_right hs hm))

theorem insertAfter_threads (hh : Chain t.next t.holeHead (xs ++ b :: ys))
    (hf : Chain t.next t.freeSlots fs) (hn : (a :: (xs ++ b :: ys) ++ fs).Nodup)
    (hall : ∀ i, i = a ∨ i ∈ xs ++ b :: ys ∨ i ∈ fs) :
    Threads (t.insertAfter b a) (xs ++ b :: a :: ys) fs := by
  obtain ⟨ha, hn'⟩ := List.nodup_cons.mp hn
  have hb : b ∉ fs := fun hm => (List.nodup_append.mp hn').2.2 b (by simp) b hm rfl
  have hnext : (t.insertAfter b a).next =
      Function.update (Function.update t.next a (t.next b)) b (some a) := by
    rw [Table.insertAfter, Table.modify_next, Table.modify_next]
  refine ⟨?_, ?_, ?_, ?_⟩
  · rw [hnext]
    exact hh.insert_after (fun hm => ha (List.mem_append_left fs hm))
  · rw [hnext]
    exact (hf.update_of_notMem (fun hm => ha (List.mem_append_right _ hm))).update_of_notMem hb
  · have hp : ((xs ++ [b]) ++ a :: ys).Perm (a :: ((xs ++ [b]) ++ ys)) := List.perm_middle
    have hp' : (xs ++ b :: a :: ys).Perm (a :: (xs ++ b :: ys)) := by simpa using hp
    exact (hp'.append_right fs).nodup_iff.mpr hn
  · intro i
    have := hall i
    simp only [List.mem_append, List.mem_cons] at this ⊢
    tauto

theorem extents_head_le (h : ∀ k ∈ ys.head?, ¬(t.hole k).hBase < (t.hole a).hBase) :
    ∀ f ∈ (t.extents ys).head?, (t.hole a).extent.base ≤ f.base := by
  intro f hm
  obtain ⟨k, hk, rfl⟩ : ∃ k ∈ ys.head?, (t.hole k).extent = f := by
    simpa [Table.extents, List.head?_map] using hm
  exact UInt32.not_lt.mp (h k hk)

theorem merge_insertFront (hh : Chain t.next t.holeHead ys) (hf : Chain t.next t.freeSlots fs)
    (hn : (a :: ys ++ fs).Nodup) (hall : ∀ i, i = a ∨ i ∈ ys ∨ i ∈ fs) (below : t.Below (a :: ys))
    (above : ∀ k ∈ ys.head?, ¬(t.hole k).hBase < (t.hole a).hBase) :
    ∃ t' hs' fs', merge a (t.insertFront a) = .ok t' ∧ Threads t' hs' fs' ∧
      t'.extents hs' = release (t.hole a).extent (t.extents ys) ∧ t'.cleared = t.cleared := by
  have same : ∀ is, (t.insertFront a).extents is = t.extents is := fun is =>
    extents_congr fun i _ => insertFront_extent t a i
  obtain ⟨t', ys', fs', ht, hth, -, hext, hcl⟩ := @merge_spec _ (t.insertFront a) fs [] ys a
    (insertFront_threads hh hf hn hall) (fun i hi => by
      rw [insertFront_extent]
      exact below i hi)
  refine ⟨t', a :: ys', fs', ht, hth, ?_, hcl⟩
  rw [hext, same, extents_cons, release_front (extents_head_le above)]

theorem merge_insertAfter (hh : Chain t.next t.holeHead (xs ++ b :: ys)) (hf : Chain t.next t.freeSlots fs)
    (hn : (a :: (xs ++ b :: ys) ++ fs).Nodup) (hall : ∀ i, i = a ∨ i ∈ xs ++ b :: ys ∨ i ∈ fs)
    (below : t.Below (a :: (xs ++ b :: ys))) (hxs : ∀ i ∈ xs ++ [b], (t.hole i).hBase < (t.hole a).hBase)
    (above : ∀ k ∈ ys.head?, ¬(t.hole k).hBase < (t.hole a).hBase) :
    ∃ t' hs' fs', merge b (t.insertAfter b a) = .ok t' ∧ Threads t' hs' fs' ∧
      t'.extents hs' = release (t.hole a).extent (t.extents (xs ++ b :: ys)) ∧ t'.cleared = t.cleared := by
  have same : ∀ is, (t.insertAfter b a).extents is = t.extents is := fun is =>
    extents_congr fun i _ => insertAfter_extent t b a i
  obtain ⟨t', ys', fs', ht, hth, hx, hext, hcl⟩ := @merge_spec _ (t.insertAfter b a) fs xs (a :: ys) b
    (insertAfter_threads hh hf hn hall) (fun i hi => by
      rw [insertAfter_extent]
      refine below i ?_
      simp only [List.mem_cons, List.mem_append] at hi ⊢
      tauto)
  refine ⟨t', xs ++ b :: ys', fs', ht, hth, ?_, hcl⟩
  rw [extents_append, hx, hext, same, same, extents_cons, extents_cons, extents_append, extents_cons,
    release_of_split ?_ (extents_head_le above)]
  intro f hm
  obtain ⟨i, hi, rfl⟩ : ∃ i ∈ xs ++ [b], (t.hole i).extent = f := by
    simpa [Table.extents, or_and_right, exists_or, eq_comm] using hm
  exact UInt32.lt_iff_toNat_lt.mp (hxs i hi)

theorem Threads.takeSlot (h : Threads t hs (a :: fs)) (base clicks : UInt32) :
    Chain (t.takeSlot a base clicks).next (t.takeSlot a base clicks).holeHead hs ∧
      Chain (t.takeSlot a base clicks).next (t.takeSlot a base clicks).freeSlots fs ∧
      (a :: hs ++ fs).Nodup ∧ ∀ i, i = a ∨ i ∈ hs ∨ i ∈ fs := by
  obtain ⟨hh, ⟨-, hf⟩, hn, hall⟩ := h
  have hm : (hs ++ a :: fs).Perm (a :: (hs ++ fs)) := List.perm_middle
  refine ⟨(takeSlot_next t a base clicks).symm ▸ hh, (takeSlot_next t a base clicks).symm ▸ hf,
    hm.nodup_iff.mp hn, fun i => ?_⟩
  have := hall i
  simp only [List.mem_cons] at this
  tauto

theorem freeMem_eq (base : UInt32) {clicks : UInt32} (hc : clicks ≠ 0) (h : Threads t hs (a :: fs)) :
    ∃ js ks, hs = js ++ ks ∧ (∀ i ∈ js, ((t.takeSlot a base clicks).hole i).hBase < base) ∧
      (∀ k ∈ ks.head?, ¬((t.takeSlot a base clicks).hole k).hBase < base) ∧
      (js = [] ∧ freeMem base clicks t = merge a ((t.takeSlot a base clicks).insertFront a) ∨
        ∃ js' p, js = js' ++ [p] ∧
          freeMem base clicks t = merge p ((t.takeSlot a base clicks).insertAfter p a)) := by
  have hfree : t.freeSlots = some a := h.free.1
  obtain ⟨hh, -⟩ := h.takeSlot base clicks
  obtain ⟨js, ks, rfl, hjs, hks, hprev⟩ := findPrev_spec base none hh h.length_le
  refine ⟨js, ks, rfl, hjs, hks, ?_⟩
  simp only [freeMem, hc, if_false, hfree]
  rcases List.eq_nil_or_concat js with rfl | ⟨js, p, rfl⟩
  · refine .inl ⟨rfl, if_pos ?_⟩
    rw [hh.head_eq, List.nil_append]
    cases ks with
    | nil => rfl
    | cons k ks => simpa using hks k rfl
  · simp only [List.concat_eq_append, List.append_assoc, List.singleton_append] at *
    refine .inr ⟨js, p, rfl, (if_neg ?_).trans ?_⟩
    · rw [hh.head_eq]
      cases js with
      | nil => simpa using hjs p (by simp)
      | cons x js => simpa using hjs x (by simp)
    · rw [hprev]
      simp

theorem freeMem_spec {base clicks : UInt32} (hc : clicks ≠ 0)
    (h : Threads t hs (a :: fs)) (below : t.Below hs)
    (hb : base.toNat + clicks.toNat < 2 ^ 32) :
    ∃ t' hs' fs', freeMem base clicks t = .ok t' ∧ Threads t' hs' fs' ∧
      t'.extents hs' = release ⟨base.toNat, clicks.toNat⟩ (t.extents hs) ∧
      t'.cleared = t.cleared := by
  obtain ⟨hh₀, hf₀, hn, hall⟩ := h.takeSlot base clicks
  have ha := (List.nodup_cons.mp hn).1
  have split := freeMem_eq base hc h
  let t₀ := t.takeSlot a base clicks
  have self : (t₀.hole a).extent = ⟨base.toNat, clicks.toNat⟩ := takeSlot_self ..
  have hbase : (t₀.hole a).hBase = base := by simp [t₀, Table.takeSlot, Table.modify]
  have same : ∀ i ∈ hs, (t₀.hole i).extent = (t.hole i).extent := fun i hi =>
    congrArg _ (takeSlot_of_ne t (fun he => ha (by simp [← he, hi])) base clicks)
  have below₀ : t₀.Below (a :: hs) := by
    intro i hi
    rcases List.mem_cons.mp hi with rfl | hi
    · rw [self]
      exact hb
    · rw [same i hi]
      exact below i hi
  rw [← self, ← extents_congr same]
  obtain ⟨js, ks, rfl, hjs, hks, order⟩ := split
  have below : ∀ i ∈ js, (t₀.hole i).hBase < (t₀.hole a).hBase := hbase.symm ▸ hjs
  have above : ∀ k ∈ ks.head?, ¬(t₀.hole k).hBase < (t₀.hole a).hBase := hbase.symm ▸ hks
  rcases order with ⟨rfl, he⟩ | ⟨js, p, rfl, he⟩
  · obtain ⟨t', hs', fs', ht, hspec⟩ := merge_insertFront hh₀ hf₀ hn hall below₀ above
    exact ⟨t', hs', fs', he.trans ht, hspec⟩
  · simp only [List.append_assoc, List.singleton_append] at hh₀ hn hall below₀ ⊢
    obtain ⟨t', hs', fs', ht, hspec⟩ := merge_insertAfter hh₀ hf₀ hn hall below₀ below above
    exact ⟨t', hs', fs', he.trans ht, hspec⟩

/-- `free_mem` on whole lists: nothing is lost, nothing doubled, and holes stay spaced. -/
theorem freeMem_keeps {base clicks : UInt32} (h : Threads t hs fs) (below : t.Below hs)
    (hb : base.toNat + clicks.toNat < 2 ^ 32) (room : freeMem base clicks t ≠ .error .tableFull) :
    ∃ t' hs' fs', freeMem base clicks t = .ok t' ∧ Threads t' hs' fs' ∧ t'.Below hs' ∧
      (∀ x, tally (t'.extents hs') x = tally (⟨base.toNat, clicks.toNat⟩ :: t.extents hs) x) ∧
      (Spaced (t.extents hs) →
        (∀ x, tally (⟨base.toNat, clicks.toNat⟩ :: t.extents hs) x ≤ 1) → Spaced (t'.extents hs')) ∧
      t'.cleared = t.cleared := by
  by_cases hc : clicks = 0
  · subst hc
    refine ⟨t, hs, fs, by simp [freeMem], h, below, fun x => ?_, fun hs _ => hs, rfl⟩
    rw [tally_cons_empty rfl]
  · cases fs with
    | nil => exact absurd (freeMem_full hc h) room
    | cons a fs =>
      obtain ⟨t', hs', fs', ht, hth, hext, hcl⟩ := freeMem_spec hc h below hb
      have hpos : 0 < clicks.toNat := by
        rw [← UInt32.toNat_inj, UInt32.toNat_zero] at hc
        omega
      refine ⟨t', hs', fs', ht, hth, ?_, fun x => ?_, fun hsp hone => ?_, hcl⟩
      · intro i hi
        have hm : (t'.hole i).extent ∈ t'.extents hs' := List.mem_map_of_mem hi
        rw [hext] at hm
        obtain ⟨g, hg, he⟩ := stop_of_mem_release hm
        rw [he]
        rcases List.mem_cons.mp hg with rfl | hg
        · exact hb
        · exact below.extents_stop g hg
      · rw [hext, tally_release]
      · rw [hext]
        exact release_spaced hpos (disjoint_of_tally_le_one hone) hsp

theorem absorbNext_threads (h : Threads t (xs ++ a :: b :: ys) fs) :
    ∃ t', absorbNext a b t = .ok t' ∧ Threads t' (xs ++ a :: ys) (b :: fs) := by
  obtain ⟨t', ht, hth, -⟩ := delSlot_after
    (h.modify a (fun g => { g with hLen := g.hLen + (t.hole b).hLen }) rfl)
  exact ⟨t', ht, hth⟩

theorem mergeNext_threads (h : Threads t (xs ++ a :: ys) fs) :
    ∃ t' ys' fs', mergeNext a t = .ok t' ∧ Threads t' (xs ++ a :: ys') fs' := by
  have hnext : t.next a = ys.head? := h.holes.next_eq
  cases ys with
  | nil => exact ⟨t, [], fs, by simp [mergeNext, hnext], h⟩
  | cons b ys =>
    simp only [List.head?_cons] at hnext
    by_cases touch : abuts t a b = true
    · obtain ⟨t', ht, hth⟩ := absorbNext_threads h
      exact ⟨t', ys, b :: fs, by simp [mergeNext, hnext, touch, ht], hth⟩
    · exact ⟨t, b :: ys, fs, by simp [mergeNext, hnext, touch], h⟩

theorem merge_threads (h : Threads t (xs ++ a :: ys) fs) :
    ∃ t' hs' fs', merge a t = .ok t' ∧ Threads t' hs' fs' := by
  have hnext : t.next a = ys.head? := h.holes.next_eq
  cases ys with
  | nil => exact ⟨t, _, fs, by simp [merge, hnext], h⟩
  | cons b ys =>
    simp only [List.head?_cons] at hnext
    by_cases touch : abuts t a b = true
    · obtain ⟨t₁, ht, hth⟩ := absorbNext_threads h
      obtain ⟨t', ys', fs', ht', hth'⟩ := mergeNext_threads hth
      exact ⟨t', _, fs', by simp [merge, hnext, touch, ht, ht', bind, Except.bind], hth'⟩
    · have hth : Threads t ((xs ++ [a]) ++ b :: ys) fs := by simpa using h
      obtain ⟨t', ys', fs', ht', hth'⟩ := mergeNext_threads hth
      exact ⟨t', _, fs', by simp [merge, hnext, touch, ht'], hth'⟩

theorem freeMem_threads (base clicks : UInt32) (h : Threads t hs fs) :
    freeMem base clicks t = .error .tableFull ∨
      ∃ t' hs' fs', freeMem base clicks t = .ok t' ∧ Threads t' hs' fs' := by
  by_cases hc : clicks = 0
  · exact .inr ⟨t, hs, fs, by simp [freeMem, hc], h⟩
  · cases fs with
    | nil => exact .inl (freeMem_full hc h)
    | cons a fs =>
      obtain ⟨hh, hf, hn, hall⟩ := h.takeSlot base clicks
      refine .inr ?_
      obtain ⟨js, ks, rfl, -, -, ⟨rfl, he⟩ | ⟨js, p, rfl, he⟩⟩ := freeMem_eq base hc h
      · rw [he]
        exact @merge_threads _ _ fs [] _ a (insertFront_threads hh hf hn hall)
      · rw [he]
        simp only [List.append_assoc, List.singleton_append] at *
        exact merge_threads (insertAfter_threads hh hf hn hall)

theorem unused_threads (n : Nat) : Threads (Table.unused n) [] (List.finRange n) := by
  have chain : ∀ k ≤ n, Chain (Table.unused n).next
      (if h : n - k < n then some ⟨n - k, h⟩ else none) ((List.finRange n).drop (n - k)) := by
    intro k hk
    induction k with
    | zero => simp [List.drop_eq_nil_of_le]
    | succ k ih =>
      have hlt : n - (k + 1) < n := by omega
      have hd : (List.finRange n).drop (n - (k + 1)) =
          ⟨n - (k + 1), hlt⟩ :: (List.finRange n).drop (n - k) := by
        rw [List.drop_eq_getElem_cons (by simpa using hlt)]
        simp [show n - (k + 1) + 1 = n - k by omega]
      rw [hd, dif_pos hlt]
      refine ⟨rfl, ?_⟩
      have hnext : (Table.unused n).next ⟨n - (k + 1), hlt⟩ =
          if h : n - k < n then some ⟨n - k, h⟩ else none := by
        simp [Table.next, Table.unused, show n - (k + 1) + 1 = n - k by omega]
      rw [hnext]
      exact ih (by omega)
  refine ⟨rfl, ?_, by simpa using List.nodup_finRange n, by simp⟩
  have := chain n le_rfl
  simpa [Table.unused] using this

end TcpAndParallel
