import TcpAndParallel.CityListRuns

namespace TcpAndParallel

universe u

namespace Dllist

variable {α ν φ : Type u} [DecidableEq α] [LinearOrder ν]

/-- The nodes of the list in order, linked both ways, with null before the first and behind the
last. -/
structure WellFormed (d : Dllist α ν φ) (xs : List α) : Prop where
  forward : Segment d.next d.head xs none
  backward : Segment d.prev d.last xs.reverse none
  live : ∀ x ∈ xs, d.live x = true
  nodup : xs.Nodup
  news : xs.length ≤ d.news

/-- The first node with the name is gone from the list, and no pointer to it is left. -/
structure Removed (d : Dllist α ν φ) (xs : List α) (s : ν) (d' : Dllist α ν φ) : Prop where
  wellFormed : WellFormed d' (xs.eraseP fun z => (d.city z).name = s)
  cities : d'.city = d.city
  unreferenced : ∀ x, xs.find? (fun z => (d.city z).name = s) = some x →
    d'.live x = false ∧ d'.head ≠ some x ∧
      ∀ z ∈ xs.eraseP (fun z => (d.city z).name = s), d'.next z ≠ some x ∧ d'.prev z ≠ some x

/-- The first node with the name is the only one, or has nodes on both sides. -/
def Inner (d : Dllist α ν φ) (xs : List α) (s : ν) : Prop :=
  ∀ x, xs.find? (fun z => (d.city z).name = s) = some x →
    xs = [x] ∨ d.head ≠ some x ∧ d.last ≠ some x

variable {d d' : Dllist α ν φ} {xs us ws : List α} {x y a b z : α} {s : ν}

omit [DecidableEq α] [LinearOrder ν] in
theorem WellFormed.shape (h : WellFormed d xs) : Shape d xs := by
  refine ⟨⟨none, h.forward, by simp⟩, ⟨none, h.backward⟩, ?_, h.live, h.nodup, h.news⟩
  rintro rfl
  exact ⟨h.forward, h.backward⟩

omit [DecidableEq α] [LinearOrder ν] in
theorem mem_of_segment {next : α → Option α} {p : Option α} (h : Segment next p xs none) :
    (∀ z, p = some z → z ∈ xs) ∧ ∀ w ∈ xs, ∀ z, next w = some z → z ∈ xs := by
  induction xs generalizing p with
  | nil =>
    obtain rfl : p = none := h
    simp
  | cons w ws ih =>
    obtain ⟨rfl, hrest⟩ := h
    obtain ⟨hfirst, hnext⟩ := ih hrest
    refine ⟨by simp, fun v hv z hz => ?_⟩
    rcases List.mem_cons.mp hv with rfl | hv
    · exact List.mem_cons_of_mem _ (hfirst z hz)
    · exact List.mem_cons_of_mem _ (hnext v hv z hz)

omit [DecidableEq α] [LinearOrder ν] in
theorem WellFormed.unreferenced (h : WellFormed d xs) (hx : x ∉ xs) :
    d.head ≠ some x ∧ ∀ z ∈ xs, d.next z ≠ some x ∧ d.prev z ≠ some x := by
  obtain ⟨hhead, hnext⟩ := mem_of_segment h.forward
  obtain ⟨-, hprev⟩ := mem_of_segment h.backward
  refine ⟨fun he => hx (hhead x he), fun z hz => ⟨fun he => hx (hnext z hz x he), fun he => hx ?_⟩⟩
  exact List.mem_reverse.mp (hprev z (List.mem_reverse.mpr hz) x he)

omit [DecidableEq α] in
theorem exists_split (hfind : xs.find? (fun z => (d.city z).name = s) = some x) :
    ∃ us ws, xs = us ++ x :: ws ∧ (d.city x).name = s ∧ (∀ z ∈ us, (d.city z).name ≠ s) ∧
      xs.eraseP (fun z => (d.city z).name = s) = us ++ ws := by
  obtain ⟨hx, us, ws, rfl, hus⟩ := List.find?_eq_some_iff_append.mp hfind
  have hx : (d.city x).name = s := by simpa using hx
  have hus : ∀ z ∈ us, (d.city z).name ≠ s := by simpa using hus
  refine ⟨us, ws, rfl, hx, hus, ?_⟩
  rw [List.eraseP_append_right (x :: ws) (by simpa using hus),
    List.eraseP_cons_of_pos (by simpa using hx)]

section Cases

theorem WellFormed.remove_only (h : WellFormed d [x]) (hx : (d.city x).name = s) :
    d.Remove s = some { d.delete x with head := none, last := none } := by
  have hshape : Shape d ([] ++ x :: []) := h.shape
  have hrun := remove_found hshape hshape.head_cons hshape.last_concat hx (by simp)
  have hnext : d.next x = none := h.forward.2
  rw [if_pos rfl, if_neg (by simp [hnext])] at hrun
  exact hrun

theorem WellFormed.remove_first (h : WellFormed d (x :: y :: ws)) (hx : (d.city x).name = s) :
    d.Remove s = some { d.delete x with head := d.next x } := by
  have hshape : Shape d ([] ++ x :: y :: ws) := h.shape
  obtain ⟨b, hlast, -, -⟩ := hshape.exists_last (by simp)
  have hrun := remove_found hshape hshape.head_cons hlast hx (by simp)
  have hnext : d.next x = some y := hshape.next_eq
  rw [if_pos rfl, if_pos (by simp [hnext])] at hrun
  exact hrun

omit [DecidableEq α] [LinearOrder ν] in
theorem WellFormed.head_ne (h : WellFormed d (us ++ a :: x :: ws)) :
    ∃ y, d.head = some y ∧ x ≠ y := by
  have hcut : us ++ a :: x :: ws = (us ++ [a]) ++ x :: ws := by simp
  obtain ⟨y, ys, hy⟩ := List.exists_cons_of_ne_nil (show us ++ [a] ++ x :: ws ≠ [] by simp)
  rw [hcut, hy] at h
  exact ⟨y, h.shape.head_cons, (mem_of_split hy.symm (by simp) h.nodup).2⟩

theorem WellFormed.remove_last (h : WellFormed d (us ++ a :: [x])) (hx : (d.city x).name = s)
    (hus : ∀ z ∈ us ++ [a], (d.city z).name ≠ s) :
    d.Remove s = some { d.delete x with last := d.prev x } := by
  have hshape : Shape d ((us ++ [a]) ++ x :: []) := by simpa using h.shape
  obtain ⟨y, hhead, hxy⟩ := h.head_ne
  have hrun := remove_found hshape hhead hshape.last_concat hx hus
  rw [if_neg hxy, if_pos rfl] at hrun
  exact hrun

omit [DecidableEq α] [LinearOrder ν] in
theorem WellFormed.last_ne (h : WellFormed d (us ++ x :: b :: ws)) :
    ∃ l, d.last = some l ∧ x ≠ l := by
  obtain ⟨l, hlast, -, -⟩ := h.shape.exists_last (by simp)
  refine ⟨l, hlast, ?_⟩
  rintro rfl
  have hnil := h.shape.last_end hlast
  simp at hnil

theorem WellFormed.remove_middle (h : WellFormed d (us ++ a :: x :: b :: ws))
    (hx : (d.city x).name = s) (hus : ∀ z ∈ us ++ [a], (d.city z).name ≠ s) :
    d.Remove s = some { d.delete x with
      next := Function.update d.next a (some b)
      prev := Function.update d.prev b (some a) } := by
  have hcut : us ++ a :: x :: b :: ws = (us ++ [a]) ++ x :: b :: ws := by simp
  have hshape : Shape d ((us ++ [a]) ++ x :: b :: ws) := hcut ▸ h.shape
  obtain ⟨y, hhead, hxy⟩ := h.head_ne
  obtain ⟨l, hlast, hxl⟩ := (hcut ▸ h : WellFormed d ((us ++ [a]) ++ x :: b :: ws)).last_ne
  have hrun := remove_found hshape hhead hlast hx hus
  have ha : d.live a = true := h.live a (by simp)
  have hb : d.live b = true := h.live b (by simp)
  rw [if_neg hxy, if_neg hxl, h.shape.prev_eq, hshape.next_eq, deref_some ha, Option.bind_some,
    deref_some hb, Option.bind_some] at hrun
  exact hrun

omit [LinearOrder ν] in
theorem WellFormed.middle_removed (h : WellFormed d (us ++ a :: x :: b :: ws)) :
    WellFormed { d.delete x with
      next := Function.update d.next a (some b)
      prev := Function.update d.prev b (some a) } (us ++ a :: b :: ws) := by
  have hshape := h.shape.remove_between
  have hcut : us ++ a :: x :: b :: ws = (us ++ [a]) ++ x :: b :: ws := by simp
  have hnext : d.next x = some b := (hcut ▸ h.shape).next_eq
  have hrev : (us ++ a :: x :: b :: ws).reverse = ws.reverse ++ b :: x :: a :: us.reverse := by
    simp
  have hnd := List.nodup_reverse.mpr h.nodup
  have hback := h.backward
  rw [hrev] at hnd hback
  refine ⟨?_, ?_, hshape.live, hshape.nodup, hshape.news⟩
  · have hrem := h.forward.remove_after h.nodup
    rwa [hnext] at hrem
  · have hrem := hback.remove_after hnd
    rw [h.shape.prev_eq] at hrem
    simpa [delete] using hrem

end Cases

omit [LinearOrder ν] in
theorem delete_self : (d.delete x).live x = false := by
  simp [delete]

omit [DecidableEq α] in
theorem Removed.of_wellFormed (hfind : xs.find? (fun z => (d.city z).name = s) = some x)
    (herase : xs.eraseP (fun z => (d.city z).name = s) = us) (h : WellFormed d' us)
    (cities : d'.city = d.city) (dead : d'.live x = false) (hx : x ∉ us) : Removed d xs s d' := by
  refine ⟨herase.symm ▸ h, cities, fun z hz => ?_⟩
  obtain rfl : x = z := Option.some.inj (hfind.symm.trans hz)
  rw [herase]
  exact ⟨dead, h.unreferenced hx⟩

theorem remove_wellFormed_iff (h : WellFormed d xs) :
    (∃ d', d.Remove s = some d' ∧ Removed d xs s d') ↔ Inner d xs s := by
  cases hfind : xs.find? fun z => (d.city z).name = s with
  | none =>
    have hno : ∀ z ∈ xs, (d.city z).name ≠ s := by simpa using hfind
    have herase : xs.eraseP (fun z => (d.city z).name = s) = xs :=
      List.eraseP_of_forall_not (by simpa using hno)
    refine ⟨fun _ x hx => by simp [hfind] at hx, fun _ => ⟨d, not_found h.shape hno, ?_⟩⟩
    refine ⟨herase.symm ▸ h, rfl, fun x hx => ?_⟩
    simp [hfind] at hx
  | some x =>
    obtain ⟨us, ws, rfl, hx, hus, herase⟩ := exists_split hfind
    have hcond : Inner d (us ++ x :: ws) s ↔
        us ++ x :: ws = [x] ∨ d.head ≠ some x ∧ d.last ≠ some x := by
      constructor
      · intro hin
        exact hin x hfind
      · intro hin z hz
        obtain rfl : x = z := Option.some.inj (hfind.symm.trans hz)
        exact hin
    have hnot : x ∉ us ++ ws := by
      have hperm : (us ++ x :: ws).Perm (x :: (us ++ ws)) := List.perm_middle
      exact (List.nodup_cons.mp (hperm.nodup_iff.mp h.nodup)).1
    rw [hcond]
    rcases List.eq_nil_or_concat' us with rfl | ⟨us, a, rfl⟩
    · cases ws with
      | nil =>
        refine ⟨fun _ => .inl rfl, fun _ => ⟨_, h.remove_only hx, ?_⟩⟩
        exact .of_wellFormed hfind herase ⟨rfl, rfl, by simp, by simp, by simp⟩ rfl delete_self hnot
      | cons y ws =>
        -- the node that is first now still has the pointer back to the one deleted
        constructor
        · rintro ⟨d', hrun, hrem⟩
          obtain rfl := Option.some.inj ((h.remove_first hx).symm.trans hrun)
          have h₀ : WellFormed d ([] ++ x :: y :: ws) := h
          have hprev : d.prev y = some x := h₀.shape.prev_eq
          exact absurd hprev ((hrem.unreferenced x hfind).2.2 y (by rw [herase]; simp)).2
        · rintro (hone | ⟨hhead, -⟩)
          · simp at hone
          · exact absurd h.shape.head_cons hhead
    · have hcut : us ++ [a] ++ x :: ws = us ++ a :: x :: ws := by simp
      cases ws with
      | nil =>
        -- and the node that is last now the pointer on to it
        rw [hcut] at h
        constructor
        · rintro ⟨d', hrun, hrem⟩
          obtain rfl := Option.some.inj ((h.remove_last hx hus).symm.trans hrun)
          have hnext : d.next a = some x := h.shape.next_eq
          exact absurd hnext ((hrem.unreferenced x hfind).2.2 a (by rw [herase]; simp)).1
        · rintro (hone | ⟨-, hlast⟩)
          · have hlen := congrArg List.length hone
            simp at hlen
          · rw [← hcut] at h
            exact absurd h.shape.last_concat hlast
      | cons b ws =>
        obtain ⟨l, hlast, hxl⟩ := h.last_ne
        rw [hcut] at h
        obtain ⟨y, hhead, hxy⟩ := h.head_ne
        have hends : d.head ≠ some x ∧ d.last ≠ some x := by
          simp [hhead, hlast, hxy.symm, hxl.symm]
        refine ⟨fun _ => .inr hends, fun _ => ⟨_, h.remove_middle hx hus, ?_⟩⟩
        refine .of_wellFormed hfind herase ?_ rfl delete_self hnot
        simpa using h.middle_removed

def threeCities : Dllist Nat Nat Nat where
  head := some 0
  last := some 2
  next x := if x < 2 then some (x + 1) else none
  prev x := if x = 0 then none else some (x - 1)
  city x := ⟨x, 0, 0⟩
  live x := x < 3
  news := 3

theorem threeCities_wellFormed : WellFormed threeCities [0, 1, 2] :=
  ⟨⟨rfl, rfl, rfl, rfl⟩, ⟨rfl, rfl, rfl, rfl⟩, by decide, by decide, by decide⟩

theorem remove_second : ∃ d', threeCities.Remove 1 = some d' ∧
    Removed threeCities [0, 1, 2] 1 d' :=
  (remove_wellFormed_iff threeCities_wellFormed).mpr fun x hx => by
    obtain rfl : 1 = x := Option.some.inj hx
    exact .inr ⟨by decide, by decide⟩

/-- The second city keeps its pointer to the first. -/
theorem remove_first_dangling : WellFormed threeCities [0, 1, 2] ∧
    ¬∃ d', threeCities.Remove 0 = some d' ∧ Removed threeCities [0, 1, 2] 0 d' := by
  refine ⟨threeCities_wellFormed, ?_⟩
  rintro ⟨d', hrun, hrem⟩
  obtain rfl := Option.some.inj ((threeCities_wellFormed.remove_first rfl).symm.trans hrun)
  exact ((hrem.unreferenced 0 rfl).2.2 1 (by decide)).2 rfl

end Dllist

end TcpAndParallel
