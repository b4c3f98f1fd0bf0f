import Mathlib.Data.Char
import Mathlib.Data.List.Perm.Basic
import TcpAndParallel.CityList
import TcpAndParallel.Runs

namespace TcpAndParallel

universe u

/-- A call of `Insert`, with the address that `new` yields in it, or of `Remove`. -/
inductive CityCall (α ν φ : Type u)
  | insert (temp : α) (c : City ν φ)
  | remove (s : ν)

namespace Dllist

variable {α ν φ : Type u} [DecidableEq α] [LinearOrder ν]

def run (d : Dllist α ν φ) : CityCall α ν φ → Option (Dllist α ν φ)
  | .insert temp c => d.Insert temp c
  | .remove s => d.Remove s

def cities (d : Dllist α ν φ) : Option (List (City ν φ)) := if d.head = none then some [] else d.print

omit [DecidableEq α] in
theorem mem_of_split {x y : α} {xs ms ws : List α} (he : x :: xs = ms ++ y :: ws) (hne : ms ≠ [])
    (nodup : (x :: xs).Nodup) : x ∈ ms ∧ y ≠ x := by
  obtain ⟨z, zs, rfl⟩ := List.exists_cons_of_ne_nil hne
  obtain ⟨rfl, rfl⟩ := List.cons.inj he
  refine ⟨List.mem_cons_self, ?_⟩
  rintro rfl
  simp at nodup

variable {d : Dllist α ν φ} {xs us ws : List α} {x y b temp : α} {c : City ν φ} {s : ν}

section Links

omit [LinearOrder ν]

theorem cities_of_head (h : d.head ≠ none) : d.cities = d.print := if_neg h

theorem Shape.cities_eq (h : Shape d xs) : d.cities = some (xs.map d.city) := by
  cases xs with
  | nil => exact if_pos (h.empty rfl).1
  | cons x xs => rw [cities_of_head (by simp [h.head_cons]), h.print_eq]

theorem Shape.new_live (h : Shape d xs) (c : City ν φ) :
    ∀ x ∈ xs, (d.new temp c).live x = true := by
  intro x hx
  unfold new
  by_cases he : x = temp
  · simp [he]
  · simpa [Function.update_of_ne he] using h.live x hx

omit [DecidableEq α] in
theorem Shape.notMem (h : Shape d xs) (fresh : d.live temp = false) : temp ∉ xs := by
  intro hm
  have hl := h.live temp hm
  simp [fresh] at hl

theorem Shape.insert_end (h : Shape d (us ++ [y])) (fresh : d.live temp = false) :
    Shape { d.new temp c with
      next := Function.update (Function.update d.next y (some temp)) temp none
      prev := Function.update d.prev temp (some y)
      last := some temp } (us ++ [y] ++ [temp]) := by
  have hnot := h.notMem fresh
  obtain ⟨q, hq, -⟩ := h.forward
  obtain ⟨r, hr⟩ := h.backward
  have hlen := h.news
  refine ⟨⟨none, ?_, by simp⟩, ⟨r, ?_⟩, by simp, ?_, ?_, ?_⟩
  · refine segment_concat.mpr ⟨(hq.set_end h.nodup).update_of_notMem hnot, ?_⟩
    exact Function.update_self ..
  · have hpush := hr.push (x := temp) (List.mem_reverse.not.mpr hnot)
    rw [h.last_concat] at hpush
    simpa using hpush
  · intro z hz
    rcases List.mem_append.mp hz with hz | hz
    · exact h.new_live c z hz
    · obtain rfl : z = temp := by simpa using hz
      simp [new]
  · exact List.nodup_append.mpr ⟨h.nodup, List.nodup_singleton _, by
      intro a ha b hb he
      exact hnot (by simp_all)⟩
  · simp only [List.length_append, List.length_cons, List.length_nil, new] at hlen ⊢
    omega

omit [DecidableEq α] in
theorem perm_behind : (us ++ b :: x :: ws).Perm (x :: (us ++ b :: ws)) := by
  have hmiddle : (us ++ [b] ++ x :: ws).Perm (x :: (us ++ [b] ++ ws)) := List.perm_middle
  simpa using hmiddle

theorem Shape.insert_before (h : Shape d (us ++ b :: y :: ws)) (fresh : d.live temp = false)
    (hend : ∀ l, d.last = some l → d.next l ≠ some temp) :
    Shape { d.new temp c with
      next := Function.update (Function.update d.next temp (some y)) b (some temp)
      prev := Function.update (Function.update d.prev temp (some b)) y (some temp) }
      (us ++ b :: temp :: y :: ws) := by
  have hnot := h.notMem fresh
  obtain ⟨q, hq, hdead⟩ := h.forward
  obtain ⟨r, hr⟩ := h.backward
  have hlen := h.news
  have hrev : (us ++ b :: y :: ws).reverse = ws.reverse ++ y :: b :: us.reverse := by simp
  have hnd := List.nodup_reverse.mpr h.nodup
  have hnot' := List.mem_reverse.not.mpr hnot
  rw [hrev] at hr hnd hnot'
  refine ⟨⟨q, ?_, ?_⟩, ⟨r, ?_⟩, by simp, ?_, ?_, ?_⟩
  · have hins := hq.insert_after h.nodup hnot
    rwa [h.next_eq] at hins
  · intro z hz
    obtain ⟨vs, l, hl⟩ : ∃ vs l, us ++ b :: y :: ws = vs ++ [l] :=
      (List.eq_nil_or_concat' _).resolve_left (by simp)
    rw [hl] at hq h
    have hn : d.next l = q := by simpa using hq.next_eq
    have hne : z ≠ temp := by
      rintro rfl
      exact hend l h.last_concat (hn.trans hz)
    simpa [new, Function.update_of_ne hne] using hdead z hz
  · have hins := hr.insert_after hnd hnot'
    rw [h.prev_eq] at hins
    simpa [new] using hins
  · intro z hz
    by_cases he : z = temp
    · simp [new, he]
    · exact h.new_live c z (by simp at hz ⊢; tauto)
  · exact perm_behind.nodup_iff.mpr (List.nodup_cons.mpr ⟨hnot, h.nodup⟩)
  · simp only [List.length_append, List.length_cons, new] at hlen ⊢
    omega

omit [DecidableEq α] in
theorem Shape.last_mem (h : Shape d (us ++ y :: ws)) (hx : d.last = some x) : x ∈ y :: ws := by
  obtain ⟨vs, l, hl⟩ : ∃ vs l, y :: ws = vs ++ [l] :=
    (List.eq_nil_or_concat' _).resolve_left (by simp)
  rw [hl, ← List.append_assoc] at h
  obtain rfl : l = x := Option.some.inj (h.last_concat.symm.trans hx)
  simp [hl]

omit [DecidableEq α] in
theorem Shape.last_end (h : Shape d (us ++ y :: ws)) (hy : d.last = some y) : ws = [] := by
  obtain rfl | ⟨vs, l, rfl⟩ := List.eq_nil_or_concat' ws
  · rfl
  · have hcut : us ++ y :: (vs ++ [l]) = (us ++ y :: vs) ++ [l] := by simp
    have hnd := h.nodup
    rw [hcut] at h
    obtain rfl : l = y := Option.some.inj (h.last_concat.symm.trans hy)
    simp [List.nodup_append] at hnd

theorem Shape.delete_live (h : Shape d xs) (same : ∀ z ∈ us, z ∈ xs ∧ z ≠ x) :
    ∀ z ∈ us, (d.delete x).live z = true := by
  intro z hz
  obtain ⟨hm, hne⟩ := same z hz
  unfold delete
  simpa [Function.update_of_ne hne] using h.live z hm

theorem delete_dead {z : α} (dead : d.live z = false) : (d.delete x).live z = false := by
  unfold delete
  by_cases he : z = x
  · simp [he]
  · simpa [Function.update_of_ne he] using dead

theorem Shape.remove_first (h : Shape d (x :: y :: ws)) :
    Shape { d.delete x with head := d.next x } (y :: ws) := by
  obtain ⟨q, hq, hdead⟩ := h.forward
  obtain ⟨r, hr⟩ := h.backward
  have hnd := List.nodup_cons.mp h.nodup
  have hlen := h.news
  rw [List.reverse_cons] at hr
  obtain ⟨m, hm, -⟩ := segment_append.mp hr
  refine ⟨⟨q, hq.2, ?_⟩, ⟨m, hm⟩, by simp, ?_, hnd.2, ?_⟩
  · exact fun z hz => delete_dead (hdead z hz)
  · refine h.delete_live fun z hz => ⟨by simp [List.mem_cons.mp hz], ?_⟩
    rintro rfl
    exact hnd.1 hz
  · simp only [List.length_cons, delete] at hlen ⊢
    omega

theorem Shape.remove_last (h : Shape d (us ++ [b] ++ [x])) :
    Shape { d.delete x with last := d.prev x } (us ++ [b]) := by
  obtain ⟨q, hq, -⟩ := h.forward
  obtain ⟨r, hr⟩ := h.backward
  have hnd := List.nodup_append.mp h.nodup
  have hlen := h.news
  obtain ⟨hfront, -⟩ := segment_concat.mp hq
  rw [List.reverse_append] at hr
  refine ⟨⟨some x, hfront, by simp [delete]⟩, ⟨r, hr.2⟩, by simp, ?_, hnd.1, ?_⟩
  · exact h.delete_live fun z hz => ⟨List.mem_append_left _ hz, hnd.2.2 z hz x (by simp)⟩
  · simp only [List.length_append, List.length_cons, delete] at hlen ⊢
    omega

theorem Shape.remove_between (h : Shape d (us ++ b :: x :: y :: ws)) :
    Shape { d.delete x with
      next := Function.update d.next b (some y)
      prev := Function.update d.prev y (some b) } (us ++ b :: y :: ws) := by
  obtain ⟨q, hq, hdead⟩ := h.forward
  obtain ⟨r, hr⟩ := h.backward
  have hlen := h.news
  have hcut : us ++ b :: x :: y :: ws = (us ++ [b]) ++ x :: y :: ws := by simp
  have hnext : d.next x = some y := (hcut ▸ h).next_eq
  have hprev : d.prev x = some b := h.prev_eq
  have hrev : (us ++ b :: x :: y :: ws).reverse = ws.reverse ++ y :: x :: b :: us.reverse := by
    simp
  have hnd := List.nodup_reverse.mpr h.nodup
  rw [hrev] at hr hnd
  have hperm : (us ++ b :: x :: y :: ws).Perm (x :: (us ++ b :: y :: ws)) := perm_behind
  have hnd' := List.nodup_cons.mp (hperm.nodup_iff.mp h.nodup)
  refine ⟨⟨q, ?_, ?_⟩, ⟨r, ?_⟩, by simp, ?_, hnd'.2, ?_⟩
  · have hrem := hq.remove_after h.nodup
    rwa [hnext] at hrem
  · exact fun z hz => delete_dead (hdead z hz)
  · have hrem := hr.remove_after hnd
    rw [hprev] at hrem
    simpa [delete] using hrem
  · refine h.delete_live fun z hz => ⟨hperm.mem_iff.mpr (List.mem_cons_of_mem x hz), ?_⟩
    rintro rfl
    exact hnd'.1 hz
  · simp only [List.length_append, List.length_cons, delete] at hlen ⊢
    omega

end Links

/-- A call that goes well: a new city comes behind the first one, whose address is not the one
that the link behind the last node still has; and no last node is removed whose link has one. -/
def Sound (d : Dllist α ν φ) : CityCall α ν φ → Prop
  | .insert temp c => ∀ head ∈ d.head, ∀ last ∈ d.last,
      (head = last ∧ (d.city head).name ≤ c.name) ∨
      ((d.city head).name < c.name ∧ ((d.city last).name < c.name ∨ d.next last ≠ some temp))
  | .remove s => ∀ head ∈ d.head, d.last = some head → (d.city head).name = s → d.next head = none

instance Sound.decide : ∀ i, Decidable (Sound d i)
  | .insert temp c => inferInstanceAs (Decidable (∀ head ∈ d.head, ∀ last ∈ d.last,
      (head = last ∧ (d.city head).name ≤ c.name) ∨
      ((d.city head).name < c.name ∧ ((d.city last).name < c.name ∨ d.next last ≠ some temp))))
  | .remove s => inferInstanceAs (Decidable (∀ head ∈ d.head,
      d.last = some head → (d.city head).name = s → d.next head = none))

/-- The call leaves a city on the list. -/
def Leaves (d : Dllist α ν φ) : CityCall α ν φ → Prop
  | .insert _ _ => True
  | .remove s => ∃ head ∈ d.head, d.last = some head → (d.city head).name ≠ s

instance Leaves.decide : ∀ i, Decidable (Leaves d i)
  | .insert _ _ => inferInstanceAs (Decidable True)
  | .remove s => inferInstanceAs (Decidable (∃ head ∈ d.head,
      d.last = some head → (d.city head).name ≠ s))

omit [DecidableEq α] [LinearOrder ν] in
theorem Shape.head_iff (h : Shape d xs) : d.head ≠ none ↔ xs ≠ [] := by
  cases xs with
  | nil => simp [(h.empty rfl).1]
  | cons x xs => simp [h.head_cons]

omit [DecidableEq α] [LinearOrder ν] in
theorem Shape.leaves_iff (h : Shape d xs) :
    Leaves d (.remove s) ↔ xs ≠ [] ∧ ∀ x, xs = [x] → (d.city x).name ≠ s := by
  cases xs with
  | nil => simp [Leaves, (h.empty rfl).1]
  | cons x xs =>
    have h₀ : Shape d ([] ++ x :: xs) := h
    have hlast : d.last = some x ↔ xs = [] := by
      refine ⟨h₀.last_end, fun hnil => ?_⟩
      rw [hnil] at h₀
      exact h₀.last_concat
    simp [Leaves, h.head_cons, hlast]

def Ordered (cs : List (City ν φ)) : Prop := cs.Pairwise fun a b => a.name ≤ b.name

theorem insert_behind_first (hhead : d.head = some x)
    (hseek : d.seek c.name d.news (some x) = some x) (hx : x ≠ temp) :
    d.Insert temp c = some { d.new temp c with
      next := Function.update (Function.update d.next x (some temp)) temp none
      prev := Function.update d.prev temp (some x)
      last := some temp } := by
  unfold Insert
  rw [hhead]
  simp only [Option.bind_eq_bind]
  rw [hseek, Option.bind_some, if_pos rfl, Function.update_comm hx]
  rfl

theorem insert_behind_last (hhead : d.head = some x)
    (hseek : d.seek c.name d.news (some x) = some y) (hyx : y ≠ x)
    (hlast : d.last = some y ∧ (d.city y).name < c.name) :
    d.Insert temp c = some { d.new temp c with
      next := Function.update (Function.update d.next y (some temp)) temp none
      prev := Function.update d.prev temp (some y)
      last := some temp } := by
  unfold Insert
  rw [hhead]
  simp only [Option.bind_eq_bind]
  rw [hseek, Option.bind_some, if_neg hyx, if_pos hlast]
  rfl

theorem insert_before_stop (hhead : d.head = some x)
    (hseek : d.seek c.name d.news (some x) = some y) (hyx : y ≠ x)
    (hlast : ¬(d.last = some y ∧ (d.city y).name < c.name))
    (hprev : d.prev y = some b) (live : d.live b = true) :
    d.Insert temp c = some { d.new temp c with
      next := Function.update (Function.update d.next temp (some y)) b (some temp)
      prev := Function.update (Function.update d.prev temp (some b)) y (some temp) } := by
  have hb : (d.new temp c).deref (some b) = some b := by
    apply deref_some
    unfold new
    by_cases he : b = temp
    · simp [he]
    · simpa [Function.update_of_ne he] using live
  have hprev' : (d.new temp c).prev y = some b := hprev
  unfold Insert
  rw [hhead]
  simp only [Option.bind_eq_bind]
  rw [hseek, Option.bind_some, if_neg hyx, if_neg hlast, hprev', hb]
  rfl

omit [DecidableEq α] in
theorem ordered_behind (ordered : Ordered ((us ++ y :: ws).map d.city)) {z : α} (hz : z ∈ y :: ws) :
    (d.city y).name ≤ (d.city z).name := by
  unfold Ordered at ordered
  rw [List.pairwise_map] at ordered
  have htail := List.pairwise_cons.mp (List.pairwise_append.mp ordered).2.1
  rcases List.mem_cons.mp hz with rfl | hz
  · exact le_refl _
  · exact htail.1 z hz

omit [DecidableEq α] in
theorem Ordered.insert {as bs : List (City ν φ)} (h : Ordered (as ++ bs))
    (has : ∀ a ∈ as, a.name ≤ c.name) (hbs : ∀ b ∈ bs, c.name ≤ b.name) :
    Ordered (as ++ c :: bs) := by
  obtain ⟨ha, hb, hab⟩ := List.pairwise_append.mp h
  refine List.pairwise_append.mpr ⟨ha, List.pairwise_cons.mpr ⟨hbs, hb⟩, ?_⟩
  intro a hm b hb
  rcases List.mem_cons.mp hb with rfl | hb
  · exact has a hm
  · exact hab a hm b hb

theorem Shape.insert_eq (h : Shape d xs) (ordered : Ordered (xs.map d.city))
    (fresh : d.live temp = false) (sound : Sound d (.insert temp c)) :
    ∃ d' us ws, d.Insert temp c = some d' ∧ xs = us ++ ws ∧ Shape d' (us ++ temp :: ws) ∧
      d'.city = Function.update d.city temp c ∧
      (∀ z ∈ us, (d.city z).name ≤ c.name) ∧ ∀ z ∈ ws, c.name ≤ (d.city z).name := by
  cases xs with
  | nil =>
    obtain ⟨hhead, -⟩ := h.empty rfl
    unfold Insert
    rw [hhead]
    refine ⟨_, [], [], rfl, rfl, ?_, rfl, by simp, by simp⟩
    refine ⟨⟨none, by simp, by simp⟩, ⟨none, by simp⟩, by simp, by simp [new], by simp, ?_⟩
    simp [new]
  | cons x xs =>
    have hhead := h.head_cons
    have h₀ : Shape d ([] ++ x :: xs) := h
    obtain ⟨l, hl, -, -⟩ := h.exists_last (by simp)
    obtain ⟨ms, y, ws, he, hseek, hms, hws⟩ := h₀.seek_eq (s := c.name) h.news
    rcases List.eq_nil_or_concat' ms with rfl | ⟨us, b, rfl⟩
    · obtain ⟨rfl, rfl⟩ := List.cons.inj he
      obtain ⟨rfl, hle⟩ : xs = [] ∧ (d.city x).name ≤ c.name := by
        rcases sound x hhead l hl with ⟨rfl, hle⟩ | ⟨hlt, -⟩
        · exact ⟨h₀.last_end hl, hle⟩
        · exact ⟨hws.resolve_right (not_le_of_gt hlt), le_of_lt hlt⟩
      have hne : x ≠ temp := fun he => h.notMem fresh (by simp [he])
      exact ⟨_, [x], [], insert_behind_first hhead hseek hne, rfl,
        Shape.insert_end (c := c) h₀ fresh, rfl, by simpa using hle, by simp⟩
    · have hxl : x ≠ l := by
        rintro rfl
        obtain rfl := h₀.last_end hl
        have hlen := congrArg List.length he
        simp only [List.length_append, List.length_cons, List.length_nil] at hlen
        omega
      obtain ⟨-, hyx⟩ := mem_of_split he (by simp) h.nodup
      rw [he] at h ordered ⊢
      by_cases hlast : d.last = some y ∧ (d.city y).name < c.name
      · obtain rfl := h.last_end hlast.1
        refine ⟨_, us ++ [b] ++ [y], [], insert_behind_last hhead hseek hyx hlast, by simp,
          h.insert_end (c := c) fresh, rfl, ?_, by simp⟩
        intro z hz
        rcases List.mem_append.mp hz with hz | hz
        · exact le_of_lt (hms z hz)
        · obtain rfl : z = y := by simpa using hz
          exact le_of_lt hlast.2
      · have hle : c.name ≤ (d.city y).name := by
          rcases hws with rfl | hle
          · exact le_of_not_gt fun hlt => hlast ⟨h.last_concat, hlt⟩
          · exact hle
        have hbehind : ∀ z ∈ y :: ws, c.name ≤ (d.city z).name :=
          fun z hz => le_trans hle (ordered_behind ordered hz)
        have hstale : ∀ m, d.last = some m → d.next m ≠ some temp := by
          intro m hm
          obtain rfl : l = m := Option.some.inj (hl.symm.trans hm)
          rcases sound x hhead l hl with ⟨rfl, -⟩ | ⟨-, hlt | hne⟩
          · exact absurd rfl hxl
          · exact absurd hlt (not_lt_of_ge (hbehind l (h.last_mem hl)))
          · exact hne
        have h' : Shape d (us ++ b :: y :: ws) := by simpa using h
        have hshape := h'.insert_before (c := c) fresh hstale
        exact ⟨_, us ++ [b], y :: ws,
          insert_before_stop hhead hseek hyx hlast h'.prev_eq (h.live b (by simp)), rfl,
          by simpa using hshape, rfl, fun z hz => le_of_lt (hms z hz), hbehind⟩

theorem not_found (h : Shape d xs) (hno : ∀ z ∈ xs, (d.city z).name ≠ s) :
    d.Remove s = some d := by
  unfold Remove
  cases xs with
  | nil => simp [(h.empty rfl).1]
  | cons x xs =>
    obtain ⟨l, hl, hmem, -⟩ := h.exists_last (by simp)
    have hfind : (x :: xs).find? (fun z => decide ((d.city z).name = s)) = none := by
      simpa using hno
    have hsearch := h.search_eq (s := s) h.head_cons hl
    simp [h.head_cons, hl, deref_some (h.live l hmem), hsearch, hfind]

theorem remove_found (h : Shape d (us ++ x :: ws)) (hhead : d.head = some y)
    (hlast : d.last = some b) (hx : (d.city x).name = s)
    (hno : ∀ z ∈ us, (d.city z).name ≠ s) :
    d.Remove s =
      if x = y then
        if d.next x ≠ none then some { d.delete x with head := d.next x }
        else some { d.delete x with head := none, last := none }
      else if x = b then some { d.delete x with last := d.prev x }
      else (d.deref (d.prev x)).bind fun before => (d.deref (d.next x)).bind fun after =>
        some { d.delete x with
          next := Function.update d.next before (some after)
          prev := Function.update d.prev after (some before) } := by
  have hb : d.live b = true := by
    obtain ⟨l, hl, hm, -⟩ := h.exists_last (by simp)
    obtain rfl : b = l := Option.some.inj (hlast.symm.trans hl)
    exact h.live b hm
  have hfind : (us ++ x :: ws).find? (fun z => decide ((d.city z).name = s)) = some x :=
    List.find?_eq_some_iff_append.mpr ⟨by simp [hx], us, ws, rfl, by simpa using hno⟩
  have hsearch := h.search_eq (s := s) hhead hlast
  unfold Remove
  rw [hhead]
  simp only [Option.bind_eq_bind]
  rw [hlast, deref_some hb, Option.bind_some, hsearch, hfind]
  rfl

theorem Shape.remove_eq (h : Shape d xs) (sound : Sound d (.remove s)) :
    (∀ z ∈ xs, (d.city z).name ≠ s) ∧ d.Remove s = some d ∨
    ∃ d' us x ws, d.Remove s = some d' ∧ xs = us ++ x :: ws ∧ (d.city x).name = s ∧
      Shape d' (us ++ ws) ∧ d'.city = d.city := by
  by_cases hno : ∀ z ∈ xs, (d.city z).name ≠ s
  · exact .inl ⟨hno, not_found h hno⟩
  · obtain ⟨x, hfind⟩ : ∃ x, xs.find? (fun z => decide ((d.city z).name = s)) = some x := by
      simpa [List.find?_isSome, ← Option.isSome_iff_exists] using hno
    obtain ⟨hx, us, ws, rfl, hus⟩ := List.find?_eq_some_iff_append.mp hfind
    have hx : (d.city x).name = s := by simpa using hx
    have hus : ∀ z ∈ us, (d.city z).name ≠ s := by simpa using hus
    obtain ⟨b, hlast, -, -⟩ := h.exists_last (by simp)
    refine .inr ?_
    rcases List.eq_nil_or_concat' us with rfl | ⟨us, a, rfl⟩
    · have hhead := h.head_cons
      have hrun := remove_found h hhead hlast hx hus
      rw [if_pos rfl] at hrun
      cases ws with
      | nil =>
        have hnext := sound x hhead h.last_concat hx
        rw [if_neg (by simpa using hnext)] at hrun
        refine ⟨_, [], x, [], hrun, rfl, hx, ?_, rfl⟩
        exact ⟨⟨none, rfl, by simp⟩, ⟨none, rfl⟩, by simp, by simp, by simp, by simp⟩
      | cons y ws =>
        have hnext : d.next x = some y := h.next_eq
        rw [if_pos (by simp [hnext])] at hrun
        exact ⟨_, [], x, y :: ws, hrun, rfl, hx, h.remove_first, rfl⟩
    · obtain ⟨y, ys, hy⟩ := List.exists_cons_of_ne_nil (show us ++ [a] ++ x :: ws ≠ [] by simp)
      have hhead : d.head = some y := (hy ▸ h).head_cons
      have hrun := remove_found h hhead hlast hx hus
      obtain ⟨-, hxy⟩ := mem_of_split hy.symm (by simp) (hy ▸ h.nodup)
      rw [if_neg hxy] at hrun
      cases ws with
      | nil =>
        obtain rfl : x = b := Option.some.inj (h.last_concat.symm.trans hlast)
        rw [if_pos rfl] at hrun
        exact ⟨_, us ++ [a], x, [], hrun, rfl, hx, by simpa using h.remove_last, rfl⟩
      | cons y ws =>
        have hxb : x ≠ b := by
          rintro rfl
          have hnil := h.last_end hlast
          simp at hnil
        have h' : Shape d (us ++ a :: x :: y :: ws) := by simpa using h
        rw [if_neg hxb, h'.prev_eq, h.next_eq, deref_some (h.live a (by simp)),
          Option.bind_some, deref_some (h.live y (by simp)), Option.bind_some] at hrun
        exact ⟨_, us ++ [a], x, y :: ws, hrun, rfl, hx, by simpa using h'.remove_between, rfl⟩

/-- After an unsound insertion the list shows too few cities, or the new one out of order. -/
theorem Shape.sound_of_insert {d' : Dllist α ν φ} {shown : List (City ν φ)} (h : Shape d xs)
    (ordered : Ordered (xs.map d.city)) (fresh : d.live temp = false)
    (hrun : d.Insert temp c = some d') (hprint : d'.cities = some shown)
    (hshown : Ordered shown) (hlen : shown.length = xs.length + 1) :
    Sound d (.insert temp c) := by
  intro x hhead l hl
  cases xs with
  | nil => simp [(h.empty rfl).1] at hhead
  | cons w xs =>
    obtain rfl : w = x := Option.some.inj (h.head_cons.symm.trans hhead)
    have h₀ : Shape d ([] ++ w :: xs) := h
    obtain ⟨ms, y, ws, he, hseek, hms, hws⟩ := h₀.seek_eq (s := c.name) h.news
    have hwt : w ≠ temp := fun he => h.notMem fresh (by simp [he])
    have hne : (d.new temp c).head ≠ none := by simp [new, h.head_cons]
    rcases List.eq_nil_or_concat' ms with rfl | ⟨us, b, rfl⟩
    · obtain ⟨rfl, rfl⟩ := List.cons.inj he
      rw [insert_behind_first hhead hseek hwt] at hrun
      obtain rfl := Option.some.inj hrun
      have hnews := h.news
      have hp := Dllist.print_eq (d := { d.new temp c with
        next := Function.update (Function.update d.next w (some temp)) temp none
        prev := Function.update d.prev temp (some w)
        last := some temp }) hhead rfl (by simp [new])
        (show Segment _ _ [w, temp] _ by simp [hwt]) (by simp [new, hwt, h.live])
        (by simp) (by simp [new] at hnews ⊢; omega)
      obtain rfl :=
        Option.some.inj (hprint.symm.trans ((cities_of_head (by exact hne)).trans hp))
      obtain rfl : xs = [] := by simpa using hlen
      have hle : (d.city w).name ≤ c.name := by simpa [Ordered, new, hwt] using hshown
      exact .inl ⟨Option.some.inj (h₀.last_concat.symm.trans hl) ▸ rfl, hle⟩
    · obtain ⟨hw, hyw⟩ := mem_of_split he (by simp) h.nodup
      refine .inr ⟨hms w hw, ?_⟩
      by_contra! hbad
      obtain ⟨hle, hnext⟩ := hbad
      rw [he] at h hlen
      have h' : Shape d (us ++ b :: y :: ws) := by simpa using h
      have hmem := h.last_mem hl
      have hlast : ¬(d.last = some y ∧ (d.city y).name < c.name) := by
        rintro ⟨hy, hlt⟩
        obtain rfl : y = l := Option.some.inj (hy.symm.trans hl)
        exact absurd hlt (not_lt_of_ge hle)
      rw [insert_before_stop hhead hseek hyw hlast h'.prev_eq (h.live b (by simp))] at hrun
      obtain rfl := Option.some.inj hrun
      have hnd := List.nodup_append.mp h.nodup
      have hlb : l ≠ b := fun he => hnd.2.2 b (by simp) l hmem he.symm
      have hlt : l ≠ temp := fun he => h.notMem fresh (he ▸ List.mem_append_right _ hmem)
      have hfront : ∀ z ∈ us ++ [b], z ≠ temp := fun z hz he =>
        h.notMem fresh (he ▸ List.mem_append_left _ hz)
      obtain ⟨q, hq, -⟩ := h.forward
      obtain ⟨m, hm, -⟩ := segment_append.mp hq
      rw [hhead] at hm
      have hcut := (hm.update_of_notMem (x := temp) (r := some y)
        fun hz => hfront temp hz rfl).set_end (r := some temp) hnd.1
      have hnews := h.news
      have hp := Dllist.print_eq (d := { d.new temp c with
        next := Function.update (Function.update d.next temp (some y)) b (some temp)
        prev := Function.update (Function.update d.prev temp (some b)) y (some temp) }) hhead hl
        (h.new_live c l (List.mem_append_right _ hmem)) (show Segment _ _ (us ++ [b]) _ by simpa [hlb, hlt, hnext] using hcut)
        (fun z hz => h.new_live c z (List.mem_append_left _ hz))
        (fun z hz => by simpa [hlb, hlt, hnext] using hfront z hz)
        (by simp [new] at hnews ⊢; omega)
      obtain rfl :=
        Option.some.inj (hprint.symm.trans ((cities_of_head (by exact hne)).trans hp))
      simp at hlen

/-- After an unsound removal the first node is one that does not exist. -/
theorem Shape.sound_of_remove {d' : Dllist α ν φ} {shown : List (City ν φ)} (h : Shape d xs)
    (hrun : d.Remove s = some d') (hprint : d'.cities = some shown) : Sound d (.remove s) := by
  intro x hhead hl hx
  by_contra hnext
  obtain rfl : xs = [x] := by
    cases xs with
    | nil => simp [(h.empty rfl).1] at hhead
    | cons w xs =>
      obtain rfl : w = x := Option.some.inj (h.head_cons.symm.trans hhead)
      have h₀ : Shape d ([] ++ w :: xs) := h
      rw [h₀.last_end hl]
  have h₀ : Shape d ([] ++ [x]) := h
  have hrem := remove_found h₀ hhead hl hx (by simp)
  rw [if_pos rfl, if_pos hnext, hrun] at hrem
  obtain rfl := Option.some.inj hrem
  obtain ⟨y, hy⟩ := Option.ne_none_iff_exists'.mp hnext
  have hgone : (d.delete x).deref (some x) = none := by
    unfold deref delete
    simp
  rw [cities_of_head hnext] at hprint
  unfold print at hprint
  rw [hy, show (d.delete x).last = some x from hl] at hprint
  change (((d.delete x).deref (some x)).bind _) = some shown at hprint
  rw [hgone] at hprint
  simp at hprint

end Dllist

namespace CityList

open Dllist

variable {α ν φ : Type u} [DecidableEq α] [LinearOrder ν]

/-- The list after some calls, with the last call and the cities that were on the list before it. -/
structure Session (α ν φ : Type u) where
  list : Dllist α ν φ
  since : Option (CityCall α ν φ × Option (List (City ν φ)))

/-- No node exists yet; the memory may hold anything. -/
def start (next prev : α → Option α) (city : α → City ν φ) : Session α ν φ where
  list := {
    head := none
    last := none
    next := next
    prev := prev
    city := city
    live := fun _ => false
    news := 0 }
  since := none

def call (s : Session α ν φ) (i : CityCall α ν φ) : Except Unit (Session α ν φ) :=
  match s.list.run i with
  | some d => .ok ⟨d, some (i, s.list.cities)⟩
  | none => .error ()

def Follows (before after : List (City ν φ)) : CityCall α ν φ → Prop
  | .insert _ c => after.Perm (c :: before)
  | .remove s => (∃ c, c.name = s ∧ before.Perm (c :: after)) ∨
      (∀ c ∈ before, c.name ≠ s) ∧ after = before

/-- The cities are in order, and those that the last call leaves of the ones before. -/
def Right (s : Session α ν φ) (shown : List (City ν φ)) : Prop :=
  Ordered shown ∧
    ∀ i printed, s.since = some (i, printed) → ∃ before, printed = some before ∧ Follows before shown i

/-- The list holds the sorted multiset, whether there is a city to be printed or not. -/
def SortedMultiset (s : Session α ν φ) : Prop := ∃ shown, s.list.cities = some shown ∧ Right s shown

/-- After a call, the list prints the sorted multiset. -/
def Prints (s : Session α ν φ) : Prop :=
  s.since ≠ none → ∃ shown, s.list.print = some shown ∧ Right s shown

/-- `new` yields no address of a node that exists. -/
def Fresh (s : Session α ν φ) : CityCall α ν φ → Prop
  | .insert temp _ => s.list.live temp = false
  | .remove _ => True

instance Fresh.decide (s : Session α ν φ) : ∀ i, Decidable (Fresh s i)
  | .insert temp _ => inferInstanceAs (Decidable (s.list.live temp = false))
  | .remove _ => inferInstanceAs (Decidable True)

def Kept (s : Session α ν φ) : Prop :=
  ∃ xs, Shape s.list xs ∧ Ordered (xs.map s.list.city) ∧
    ∀ i printed, s.since = some (i, printed) →
      ∃ before, printed = some before ∧ Follows before (xs.map s.list.city) i

omit [DecidableEq α] in
theorem kept_start {next prev : α → Option α} {city : α → City ν φ} :
    Kept (start next prev city) :=
  ⟨[], ⟨⟨none, rfl, by simp⟩, ⟨none, rfl⟩, by simp [start], by simp, by simp, by simp⟩,
    by simp [Ordered], by simp [start]⟩

theorem Kept.sortedMultiset {s : Session α ν φ} (h : Kept s) : SortedMultiset s := by
  obtain ⟨xs, hshape, hordered, hsince⟩ := h
  exact ⟨_, hshape.cities_eq, hordered, hsince⟩

theorem SortedMultiset.prints {s : Session α ν φ} (h : SortedMultiset s)
    (hs : s.since ≠ none → s.list.head ≠ none) : Prints s := by
  intro hcalled
  obtain ⟨shown, hshown, hright⟩ := h
  rw [cities_of_head (hs hcalled)] at hshown
  exact ⟨shown, hshown, hright⟩

theorem Prints.sortedMultiset {s : Session α ν φ} (h : Prints s) (hcalled : s.since ≠ none) :
    s.list.head ≠ none ∧ SortedMultiset s := by
  obtain ⟨shown, hshown, hright⟩ := h hcalled
  have hhead : s.list.head ≠ none := by
    intro hnone
    unfold print at hshown
    simp [hnone] at hshown
  exact ⟨hhead, shown, (cities_of_head hhead).trans hshown, hright⟩

theorem Kept.call {s : Session α ν φ} {i : CityCall α ν φ} (h : Kept s) (fresh : Fresh s i)
    (sound : Sound s.list i) : ∃ t, call s i = .ok t ∧ Kept t := by
  obtain ⟨xs, hshape, hordered, -⟩ := h
  have hprint := hshape.cities_eq
  cases i with
  | insert temp c =>
    obtain ⟨d, us, ws, hrun, rfl, hd, hcity, hus, hws⟩ := hshape.insert_eq hordered fresh sound
    have hnot := hshape.notMem fresh
    refine ⟨⟨d, some (.insert temp c, s.list.cities)⟩, by simp [CityList.call, run, hrun], ?_⟩
    have hmap : (us ++ temp :: ws).map d.city =
        us.map s.list.city ++ c :: ws.map s.list.city := by
      have same : ∀ zs : List α, temp ∉ zs → zs.map d.city = zs.map s.list.city := by
        intro zs hz
        apply List.map_congr_left
        intro z hm
        have hne : z ≠ temp := fun he => hz (he ▸ hm)
        rw [hcity, Function.update_of_ne hne]
      rw [List.map_append, List.map_cons, same us (fun hm => hnot (List.mem_append_left _ hm)),
        same ws (fun hm => hnot (List.mem_append_right _ hm)), hcity, Function.update_self]
    refine ⟨us ++ temp :: ws, hd, ?_, ?_⟩
    · rw [hmap]
      rw [List.map_append] at hordered
      exact hordered.insert (by simpa using hus) (by simpa using hws)
    · intro i printed hi
      obtain ⟨rfl, rfl⟩ : CityCall.insert temp c = i ∧ s.list.cities = printed := by simpa using hi
      refine ⟨_, hprint, ?_⟩
      unfold Follows
      rw [hmap, List.map_append]
      exact List.perm_middle
  | remove n =>
    obtain ⟨hno, hrun⟩ | ⟨d, us, x, ws, hrun, rfl, hx, hd, hcity⟩ := hshape.remove_eq sound
    · refine ⟨⟨s.list, some (.remove n, s.list.cities)⟩, by simp [CityList.call, run, hrun],
        xs, hshape, hordered, ?_⟩
      intro i printed hi
      obtain ⟨rfl, rfl⟩ : CityCall.remove n = i ∧ s.list.cities = printed := by simpa using hi
      exact ⟨_, hprint, .inr ⟨by simpa using hno, rfl⟩⟩
    · refine ⟨⟨d, some (.remove n, s.list.cities)⟩, by simp [CityList.call, run, hrun],
        us ++ ws, hd, ?_, ?_⟩
      · rw [hcity]
        exact hordered.sublist (by simp)
      · intro i printed hi
        obtain ⟨rfl, rfl⟩ : CityCall.remove n = i ∧ s.list.cities = printed := by simpa using hi
        refine ⟨_, hprint, .inl ⟨s.list.city x, hx, ?_⟩⟩
        simp [hcity]

theorem Kept.sound {s t : Session α ν φ} {i : CityCall α ν φ} (h : Kept s) (fresh : Fresh s i)
    (hcall : CityList.call s i = .ok t) (ht : SortedMultiset t) : Sound s.list i := by
  obtain ⟨xs, hshape, hordered, -⟩ := h
  have hprint := hshape.cities_eq
  unfold CityList.call at hcall
  split at hcall
  next d hrun =>
    obtain rfl := Except.ok.inj hcall
    obtain ⟨shown, hshown, hsorted, hsince⟩ := ht
    cases i with
    | insert temp c =>
      obtain ⟨before, hb, hfollows⟩ := hsince _ _ rfl
      obtain rfl := Option.some.inj (hprint.symm.trans hb)
      exact hshape.sound_of_insert hordered fresh hrun hshown hsorted (by
        simpa using hfollows.length_eq)
    | remove n => exact hshape.sound_of_remove hrun hshown
  next => simp at hcall

theorem call_list {s t : Session α ν φ} {i : CityCall α ν φ} {d : Dllist α ν φ}
    (hrun : s.list.run i = some d) (hcall : CityList.call s i = .ok t) :
    t.list = d ∧ t.since ≠ none := by
  unfold CityList.call at hcall
  rw [hrun] at hcall
  obtain rfl := Except.ok.inj hcall
  exact ⟨rfl, by simp⟩

theorem Kept.leaves_iff {s t : Session α ν φ} {i : CityCall α ν φ} (h : Kept s) (fresh : Fresh s i)
    (sound : Sound s.list i) (hcall : CityList.call s i = .ok t) :
    t.since ≠ none ∧ (t.list.head ≠ none ↔ Leaves s.list i) := by
  obtain ⟨xs, hshape, hordered, -⟩ := h
  cases i with
  | insert temp c =>
    obtain ⟨d, us, ws, hrun, -, hd, -⟩ := hshape.insert_eq hordered fresh sound
    obtain ⟨rfl, hsince⟩ := call_list (i := .insert temp c) hrun hcall
    exact ⟨hsince, by simp [hd.head_iff, Leaves]⟩
  | remove n =>
    rw [hshape.leaves_iff]
    obtain ⟨hno, hrun⟩ | ⟨d, us, x, ws, hrun, rfl, hx, hd, -⟩ := hshape.remove_eq sound
    · obtain ⟨he, hsince⟩ := call_list (i := .remove n) hrun hcall
      rw [he, hshape.head_iff]
      exact ⟨hsince, fun hne => ⟨hne, fun x hone => hno x (by simp [hone])⟩, fun hl => hl.1⟩
    · obtain ⟨rfl, hsince⟩ := call_list (i := .remove n) hrun hcall
      rw [hd.head_iff]
      refine ⟨hsince, fun hne => ⟨by simp, fun y hone => ?_⟩, fun hl hnil => ?_⟩
      · have hlen := congrArg List.length hone
        have hpos := List.length_pos_iff.mpr hne
        simp only [List.length_append, List.length_cons, List.length_nil] at hlen hpos
        omega
      · obtain ⟨rfl, rfl⟩ := List.append_eq_nil_iff.mp hnil
        exact hl.2 x rfl hx

theorem sorted_multiset_of_sound_iff {next prev : α → Option α} {city : α → City ν φ}
    {is : List (CityCall α ν φ)} (fresh : Meets call Fresh (start next prev city) is) :
    Upholds call SortedMultiset (start next prev city) is ↔
      Meets call (fun s i => Sound s.list i) (start next prev city) is := by
  constructor
  · exact fun h => meets_of_upholds (fun s i hs hf hc => hs.call hf hc)
      (fun s i t hs hf ht hp => hs.sound hf ht hp) kept_start fresh h
  · intro h
    exact upholds_of_meets (C := fun s i => Fresh s i ∧ Sound s.list i)
      (fun s hs => hs.sortedMultiset) (fun s i hs hc => hs.call hc.1 hc.2) kept_start
      (fresh.and h)

theorem Kept.prints {s : Session α ν φ} {i : CityCall α ν φ} (h : Kept s) (fresh : Fresh s i)
    (hc : Sound s.list i ∧ Leaves s.list i) :
    ∃ t, CityList.call s i = .ok t ∧ Kept t ∧ (t.since ≠ none → t.list.head ≠ none) := by
  obtain ⟨t, ht, hkept⟩ := h.call fresh hc.1
  exact ⟨t, ht, hkept, fun _ => (h.leaves_iff fresh hc.1 ht).2.mpr hc.2⟩

/-- A new list prints nothing. The list prints the sorted multiset after every call of a run if and
only if each call is sound and leaves a city on the list; and it holds the sorted multiset after
every call if and only if each call is sound. -/
theorem sorted_multiset_iff {next prev : α → Option α} {city : α → City ν φ}
    {is : List (CityCall α ν φ)} (fresh : Meets call Fresh (start next prev city) is) :
    (start next prev city).list.print = none ∧
    (Upholds call Prints (start next prev city) is ↔
      Meets call (fun s i => Sound s.list i ∧ Leaves s.list i) (start next prev city) is) ∧
    (Upholds call SortedMultiset (start next prev city) is ↔
      Meets call (fun s i => Sound s.list i) (start next prev city) is) := by
  refine ⟨rfl, ⟨fun h => ?_, fun h => ?_⟩, sorted_multiset_of_sound_iff fresh⟩
  · refine meets_of_upholds (I := Kept) (fun s i hs hf hc => hs.call hf hc.1)
      (fun s i t hs hf ht hp => ?_) kept_start fresh h
    have hsince : t.since ≠ none := by
      obtain ⟨d, hrun⟩ : ∃ d, s.list.run i = some d := by
        cases hrun : s.list.run i with
        | none => simp [CityList.call, hrun] at ht
        | some d => exact ⟨d, rfl⟩
      exact (call_list hrun ht).2
    obtain ⟨hhead, hsorted⟩ := hp.sortedMultiset hsince
    have hsound := hs.sound hf ht hsorted
    exact ⟨hsound, (hs.leaves_iff hf hsound ht).2.mp hhead⟩
  · exact upholds_of_meets (I := fun s => Kept s ∧ (s.since ≠ none → s.list.head ≠ none))
      (C := fun s i => Fresh s i ∧ Sound s.list i ∧ Leaves s.list i)
      (fun s hs => hs.1.sortedMultiset.prints hs.2) (fun s i hs hc => hs.1.prints hc.1 hc.2)
      ⟨kept_start, by simp [start]⟩ (fresh.and h)

abbrev city (name : Char) : City Char Nat := ⟨name, 0, 0⟩

abbrev first : Session Nat Char Nat := start (fun _ => none) (fun _ => none) fun _ => city 'a'

theorem sorted_multiset_of_sound :
    Upholds call Prints first [.insert 0 (city 'a'), .insert 1 (city 'c'),
      .insert 2 (city 'b'), .remove 'c', .remove 'x', .insert 3 (city 'b')] :=
  (sorted_multiset_iff (by decide)).2.1.mpr (by decide)

/-- A city before the first of two cuts the second off the list. -/
theorem front_insert_cuts : ∃ is : List (CityCall Nat Char Nat),
    Meets call Fresh first is ∧ ¬Upholds call Prints first is := by
  refine ⟨[.insert 0 (city 'b'), .insert 1 (city 'c'), .insert 2 (city 'a')], by decide, ?_⟩
  intro h
  obtain ⟨t, ht, hprints⟩ := h.last
  have hrun : (([.insert 0 (city 'b'), .insert 1 (city 'c'), .insert 2 (city 'a')].foldlM call
      first).toOption.bind fun t => t.since.bind fun _ => t.list.print) =
        some [city 'b', city 'a'] := by rfl
  rw [ht] at hrun
  change (t.since.bind fun _ => t.list.print) = _ at hrun
  obtain ⟨since, hsince, hprint⟩ := Option.bind_eq_some_iff.mp hrun
  obtain ⟨shown, hshown, hordered, -⟩ := hprints (by simp [hsince])
  obtain rfl := Option.some.inj (hshown.symm.trans hprint)
  simp [Ordered] at hordered

end CityList

end TcpAndParallel
