import Mathlib.Data.List.Basic
import Mathlib.Data.List.Perm.Basic
import Mathlib.Data.List.Count
import Mathlib.Order.Interval.Finset.Nat
import Mathlib.Algebra.BigOperators.Group.Finset.Basic
import Mathlib.Algebra.Order.BigOperators.Group.List
import Mathlib.Algebra.Order.Group.Nat
import Mathlib.Algebra.GroupWithZero.Nat

namespace TcpAndParallel

/-- A range of consecutive units of some linear resource. -/
structure Extent where
  base : Nat
  len : Nat
  deriving DecidableEq, Repr

namespace Extent

def stop (e : Extent) : Nat := e.base + e.len

def units (e : Extent) : Finset Nat := Finset.Ico e.base e.stop

theorem mem_units {e : Extent} {x : Nat} : x ∈ e.units ↔ e.base ≤ x ∧ x < e.stop :=
  Finset.mem_Ico

theorem disjoint_units_iff {a b : Extent} (ha : 0 < a.len) (hb : 0 < b.len) :
    Disjoint a.units b.units ↔ a.stop ≤ b.base ∨ b.stop ≤ a.base := by
  rw [Finset.disjoint_left]
  simp only [mem_units, stop]
  constructor
  · intro h
    have hl := @h a.base
    have hr := @h b.base
    omega
  · intro h x hx
    omega

end Extent

/-- How many extents of the list contain the unit. -/
def tally (es : List Extent) (x : Nat) : Nat := es.countP (fun e => decide (x ∈ e.units))

@[simp] theorem tally_nil (x : Nat) : tally [] x = 0 := rfl

theorem tally_cons (e : Extent) (es : List Extent) (x : Nat) :
    tally (e :: es) x = tally es x + if x ∈ e.units then 1 else 0 := by
  simp [tally, List.countP_cons]

theorem tally_append (es fs : List Extent) (x : Nat) :
    tally (es ++ fs) x = tally es x + tally fs x := List.countP_append

theorem tally_perm {es fs : List Extent} (h : es.Perm fs) (x : Nat) : tally es x = tally fs x :=
  h.countP_eq _

theorem tally_pos_iff {es : List Extent} {x : Nat} : 0 < tally es x ↔ ∃ e ∈ es, x ∈ e.units := by
  simp [tally, List.countP_pos_iff]

theorem one_le_tally {es : List Extent} {e : Extent} {x : Nat} (he : e ∈ es) (hx : x ∈ e.units) :
    1 ≤ tally es x := tally_pos_iff.mpr ⟨e, he, hx⟩

theorem apart_iff_tally_le_one {es : List Extent} :
    es.Pairwise (fun a b => Disjoint a.units b.units) ↔ ∀ x, tally es x ≤ 1 := by
  induction es with
  | nil => simp
  | cons e es ih =>
    rw [List.pairwise_cons, ih]
    constructor
    · rintro ⟨hd, hs⟩ x
      rw [tally_cons]
      split
      next hx =>
        have hz : ¬0 < tally es x := by
          rw [tally_pos_iff]
          rintro ⟨f, hf, hxf⟩
          exact Finset.disjoint_left.mp (hd f hf) hx hxf
        omega
      next => simpa using hs x
    · intro h
      refine ⟨fun f hf => Finset.disjoint_left.mpr fun x hx hxf => ?_, fun x => ?_⟩
      · have hh := h x
        have := one_le_tally hf hxf
        rw [tally_cons, if_pos hx] at hh
        omega
      · have hh := h x
        rw [tally_cons] at hh
        omega

def total (es : List Extent) : Nat := (es.map Extent.len).sum

theorem sum_tally {es : List Extent} {b : Nat} (h : ∀ e ∈ es, e.stop ≤ b) :
    ∑ x ∈ Finset.range b, tally es x = total es := by
  induction es with
  | nil => simp [total]
  | cons e es ih =>
    have hsub : (Finset.range b).filter (· ∈ e.units) = e.units := by
      have hstop := h e (by simp)
      ext x
      simp only [Finset.mem_filter, Finset.mem_range, Extent.mem_units]
      omega
    have hcard : e.units.card = e.len := by simp [Extent.units, Extent.stop]
    simp only [tally_cons, Finset.sum_add_distrib]
    rw [ih fun f hf => h f (by simp [hf]), ← Finset.sum_filter, hsub, Finset.sum_const, hcard]
    simp [total, Nat.add_comm]

theorem total_eq_of_tally {es fs : List Extent} (h : ∀ x, tally es x = tally fs x) : total es = total fs := by
  obtain ⟨b, hb⟩ : ∃ b, ∀ e ∈ es ++ fs, e.stop ≤ b :=
    ⟨((es ++ fs).map Extent.stop).sum, fun e he => List.le_sum_of_mem (List.mem_map_of_mem he)⟩
  rw [← sum_tally fun e he => hb e (by simp [he]), ← sum_tally fun e he => hb e (by simp [he])]
  exact Finset.sum_congr rfl fun x _ => h x

/-- The extents of the list are pairwise apart and together are the units of `whole`. -/
structure Tiles (es whole : List Extent) : Prop where
  apart : es.Pairwise (fun a b => Disjoint a.units b.units)
  cover : ∀ x, (∃ e ∈ es, x ∈ e.units) ↔ ∃ e ∈ whole, x ∈ e.units

theorem tiles_iff_tally {es whole : List Extent}
    (hw : whole.Pairwise (fun a b => Disjoint a.units b.units)) :
    Tiles es whole ↔ ∀ x, tally es x = tally whole x := by
  have one := apart_iff_tally_le_one.mp hw
  constructor
  · rintro ⟨ha, hc⟩ x
    have hx := hc x
    rw [← tally_pos_iff, ← tally_pos_iff] at hx
    have := apart_iff_tally_le_one.mp ha x
    have := one x
    omega
  · intro h
    refine ⟨apart_iff_tally_le_one.mpr fun x => h x ▸ one x, fun x => ?_⟩
    rw [← tally_pos_iff, ← tally_pos_iff, h x]

theorem tally_join {a b : Extent} (h : a.stop = b.base) (es : List Extent) (x : Nat) :
    tally (⟨a.base, a.len + b.len⟩ :: es) x = tally (a :: b :: es) x := by
  simp only [tally_cons, Extent.mem_units, Extent.stop] at h ⊢
  split_ifs <;> omega

/-- The first extent takes over the second if they touch. -/
def absorb : List Extent → List Extent
  | a :: b :: rest => if a.stop = b.base then ⟨a.base, a.len + b.len⟩ :: rest else a :: b :: rest
  | es => es

/-- Join the first three extents wherever two of them touch. -/
def coalesce : List Extent → List Extent
  | a :: b :: rest =>
    if a.stop = b.base then absorb (⟨a.base, a.len + b.len⟩ :: rest) else a :: absorb (b :: rest)
  | es => es

/-- The order of the two joins does not matter. -/
theorem coalesce_of_absorb {q e pr : Extent} {post rest : List Extent}
    (h : absorb (e :: post) = pr :: rest) : coalesce (q :: e :: post) =
      if q.stop = e.base then ⟨q.base, q.len + pr.len⟩ :: rest else q :: pr :: rest := by
  cases post with
  | nil =>
    obtain ⟨rfl, rfl⟩ : e = pr ∧ [] = rest := by simpa [absorb] using h
    rfl
  | cons b post =>
    rw [coalesce, h]
    split
    next touch =>
      have hstop : (⟨q.base, q.len + e.len⟩ : Extent).stop = e.stop := by
        simp only [Extent.stop] at touch ⊢
        omega
      rw [absorb] at h ⊢
      rw [hstop]
      split at h
      next hb =>
        obtain ⟨rfl, rfl⟩ := List.cons.inj h
        rw [if_pos hb, Nat.add_assoc]
      next hb =>
        obtain ⟨rfl, rfl⟩ := List.cons.inj h
        rw [if_neg hb]
    next => rfl

def releaseAfter (e p : Extent) : List Extent → List Extent
  | [] => coalesce [p, e]
  | h :: rest => if h.base < e.base then p :: releaseAfter e h rest else coalesce (p :: e :: h :: rest)

/-- Put an extent back in front of the first one that does not begin below it, and join
it with its neighbours. -/
def release (e : Extent) : List Extent → List Extent
  | [] => [e]
  | h :: rest => if e.base ≤ h.base then coalesce (e :: h :: rest) else releaseAfter e h rest

theorem release_front {e : Extent} {post : List Extent} (above : ∀ f ∈ post.head?, e.base ≤ f.base) :
    release e post = coalesce (e :: post) := by
  cases post with
  | nil => rfl
  | cons h rest => simp [release, above h rfl]

theorem releaseAfter_of_split {e p q : Extent} {pre post : List Extent}
    (below : ∀ f ∈ pre ++ [q], f.base < e.base) (above : ∀ f ∈ post.head?, e.base ≤ f.base) :
    releaseAfter e p (pre ++ q :: post) = p :: pre ++ coalesce (q :: e :: post) := by
  induction pre generalizing p with
  | nil =>
    have hq := below q (by simp)
    cases post with
    | nil => simp [releaseAfter, hq]
    | cons h rest => simp [releaseAfter, hq, above h rfl]
  | cons f pre ih =>
    have hf := below f (by simp)
    simp [releaseAfter, hf, ih (fun g hg => below g (by simp at hg ⊢; tauto))]

theorem release_of_split {e q : Extent} {pre post : List Extent}
    (below : ∀ f ∈ pre ++ [q], f.base < e.base) (above : ∀ f ∈ post.head?, e.base ≤ f.base) :
    release e (pre ++ q :: post) = pre ++ coalesce (q :: e :: post) := by
  cases pre with
  | nil =>
    have hq := Nat.not_le.mpr (below q (by simp))
    cases post with
    | nil => simp [release, releaseAfter, hq]
    | cons h rest => simp [release, releaseAfter, hq, Nat.not_lt.mpr (above h rfl)]
  | cons f pre =>
    have hf := Nat.not_le.mpr (below f (by simp))
    have hs : releaseAfter e f (pre ++ q :: post) = f :: pre ++ coalesce (q :: e :: post) :=
      releaseAfter_of_split (fun g hg => below g (by simp at hg ⊢; tauto)) above
    simp [release, hf, hs]

theorem tally_absorb (es : List Extent) (x : Nat) : tally (absorb es) x = tally es x := by
  match es with
  | [] => rfl
  | [_] => rfl
  | a :: b :: rest =>
    simp only [absorb]
    split
    next h => exact tally_join h rest x
    next => rfl

theorem tally_coalesce (es : List Extent) (x : Nat) : tally (coalesce es) x = tally es x := by
  match es with
  | [] => rfl
  | [_] => rfl
  | a :: b :: rest =>
    simp only [coalesce]
    split
    next h => rw [tally_absorb, tally_join h]
    next => rw [tally_cons, tally_absorb, tally_cons a]

theorem tally_releaseAfter (e p : Extent) (es : List Extent) (x : Nat) :
    tally (releaseAfter e p es) x = tally (p :: e :: es) x := by
  induction es generalizing p with
  | nil => exact tally_coalesce _ x
  | cons h rest ih =>
    simp only [releaseAfter]
    split
    next =>
      rw [tally_cons, ih]
      simp only [tally_cons]
      omega
    next => exact tally_coalesce _ x

theorem tally_release (e : Extent) (es : List Extent) (x : Nat) :
    tally (release e es) x = tally (e :: es) x := by
  cases es with
  | nil => rfl
  | cons h rest =>
    simp only [release]
    split
    next => exact tally_coalesce _ x
    next =>
      rw [tally_releaseAfter]
      simp only [tally_cons]
      omega

theorem stop_of_mem_absorb {es : List Extent} {f : Extent} (hf : f ∈ absorb es) :
    ∃ g ∈ es, f.stop = g.stop := by
  match es with
  | [] => simp [absorb] at hf
  | [a] => exact ⟨f, hf, rfl⟩
  | a :: b :: rest =>
    simp only [absorb] at hf
    split at hf
    next h =>
      rcases List.mem_cons.mp hf with rfl | hf
      · exact ⟨b, by simp, by simp only [Extent.stop] at *; omega⟩
      · exact ⟨f, by simp [hf], rfl⟩
    next => exact ⟨f, hf, rfl⟩

theorem stop_of_mem_coalesce {es : List Extent} {f : Extent} (hf : f ∈ coalesce es) :
    ∃ g ∈ es, f.stop = g.stop := by
  match es with
  | [] => simp [coalesce] at hf
  | [a] => exact ⟨f, hf, rfl⟩
  | a :: b :: rest =>
    simp only [coalesce] at hf
    split at hf
    next h =>
      obtain ⟨g, hg, he⟩ := stop_of_mem_absorb hf
      rcases List.mem_cons.mp hg with rfl | hg
      · exact ⟨b, by simp, by simp only [Extent.stop] at *; omega⟩
      · exact ⟨g, by simp [hg], he⟩
    next =>
      rcases List.mem_cons.mp hf with rfl | hf
      · exact ⟨f, by simp, rfl⟩
      · obtain ⟨g, hg, he⟩ := stop_of_mem_absorb hf
        exact ⟨g, List.mem_cons_of_mem a hg, he⟩

theorem stop_of_mem_releaseAfter {e p f : Extent} {es : List Extent}
    (hf : f ∈ releaseAfter e p es) : ∃ g ∈ p :: e :: es, f.stop = g.stop := by
  induction es generalizing p with
  | nil => exact stop_of_mem_coalesce hf
  | cons h rest ih =>
    simp only [releaseAfter] at hf
    split at hf
    next =>
      rcases List.mem_cons.mp hf with rfl | hf
      · exact ⟨f, by simp, rfl⟩
      · obtain ⟨g, hg, he⟩ := ih hf
        simp only [List.mem_cons] at hg
        exact ⟨g, by simp; tauto, he⟩
    next => exact stop_of_mem_coalesce hf

theorem stop_of_mem_release {e f : Extent} {es : List Extent} (hf : f ∈ release e es) :
    ∃ g ∈ e :: es, f.stop = g.stop := by
  cases es with
  | nil => exact ⟨f, hf, rfl⟩
  | cons h rest =>
    simp only [release] at hf
    split at hf
    next => exact stop_of_mem_coalesce hf
    next =>
      obtain ⟨g, hg, he⟩ := stop_of_mem_releaseAfter hf
      simp only [List.mem_cons] at hg
      exact ⟨g, by simp; tauto, he⟩

theorem tally_split {pre post : List Extent} {g : Extent} {p : Nat} (hp : p ≤ g.len) (x : Nat) :
    tally (pre ++ g :: post) x =
      tally (⟨g.base, p⟩ :: (pre ++ ⟨g.base + p, g.len - p⟩ :: post)) x := by
  have hj : tally (g :: post) x = tally (⟨g.base, p⟩ :: ⟨g.base + p, g.len - p⟩ :: post) x := by
    rw [← tally_join rfl]
    simp [Nat.add_sub_cancel' hp]
  rw [tally_append, hj, tally_cons, tally_cons _ (pre ++ _), tally_append]
  omega

theorem tally_cons_empty {e : Extent} (h : e.len = 0) (es : List Extent) (x : Nat) :
    tally (e :: es) x = tally es x := by
  have hx : x ∉ e.units := by
    simp only [Extent.mem_units, Extent.stop]
    omega
  simp [tally_cons, hx]

theorem disjoint_of_tally_le_one {e : Extent} {es : List Extent}
    (h : ∀ x, tally (e :: es) x ≤ 1) : ∀ f ∈ es, Disjoint e.units f.units :=
  (List.pairwise_cons.mp (apart_iff_tally_le_one.mpr h)).1

/-- In increasing order, with a gap after each extent and no empty extent. -/
structure Spaced (es : List Extent) : Prop where
  gaps : es.Pairwise (fun a b => a.stop < b.base)
  filled : ∀ e ∈ es, 0 < e.len

theorem spaced_cons_iff {e : Extent} {es : List Extent} :
    Spaced (e :: es) ↔ (∀ f ∈ es, e.stop < f.base) ∧ 0 < e.len ∧ Spaced es := by
  constructor
  · rintro ⟨hg, hf⟩
    obtain ⟨he, hg⟩ := List.pairwise_cons.mp hg
    exact ⟨he, hf e (by simp), hg, fun f hm => hf f (by simp [hm])⟩
  · rintro ⟨he, hp, hs⟩
    refine ⟨List.pairwise_cons.mpr ⟨he, hs.gaps⟩, ?_⟩
    intro f hm
    rcases List.mem_cons.mp hm with rfl | hm
    · exact hp
    · exact hs.filled f hm

theorem spaced_nil : Spaced [] := ⟨List.Pairwise.nil, by simp⟩

theorem spaced_singleton {e : Extent} (h : 0 < e.len) : Spaced [e] :=
  spaced_cons_iff.mpr ⟨by simp, h, spaced_nil⟩

/-- In front of extents that do not touch each other only the first join can happen. -/
theorem coalesce_of_spaced {e : Extent} {es : List Extent} (h : Spaced es) :
    coalesce (e :: es) = absorb (e :: es) := by
  have hkeep : ∀ {b : Extent} {rest : List Extent}, (∀ c ∈ rest, b.stop < c.base) →
      absorb (b :: rest) = b :: rest := by
    intro b rest hb
    cases rest with
    | nil => rfl
    | cons c rest => exact if_neg (hb c (by simp)).ne
  cases es with
  | nil => rfl
  | cons b rest =>
    obtain ⟨hb, -, -⟩ := spaced_cons_iff.mp h
    rw [coalesce, absorb]
    split
    next touch =>
      refine hkeep fun c hc => ?_
      have hlt := hb c hc
      simp only [Extent.stop] at *
      omega
    next => rw [hkeep hb]

theorem absorb_spaced {b : Extent} {rest : List Extent} (hp : 0 < b.len)
    (touch : ∀ c ∈ rest, b.stop ≤ c.base) (hs : Spaced rest) :
    Spaced (absorb (b :: rest)) ∧ ∀ x ∈ absorb (b :: rest), b.base ≤ x.base := by
  cases rest with
  | nil => exact ⟨spaced_singleton hp, by simp [absorb]⟩
  | cons c rest =>
    obtain ⟨hc, hcp, hr⟩ := spaced_cons_iff.mp hs
    have hbc := touch c (by simp)
    have above : ∀ x ∈ rest, b.base ≤ x.base := by
      intro x hx
      have := hc x hx
      simp only [Extent.stop] at *
      omega
    simp only [absorb]
    split
    next h =>
      refine ⟨spaced_cons_iff.mpr ⟨?_, by simp; omega, hr⟩, by simpa using above⟩
      intro x hx
      have := hc x hx
      simp only [Extent.stop] at *
      omega
    next h =>
      refine ⟨spaced_cons_iff.mpr ⟨?_, hp, hs⟩, ?_⟩
      · intro x hx
        rcases List.mem_cons.mp hx with rfl | hx
        · omega
        · have := hc x hx
          simp only [Extent.stop] at *
          omega
      · intro x hx
        simp only [List.mem_cons] at hx
        rcases hx with rfl | rfl | hx
        · exact le_rfl
        · simp only [Extent.stop] at hbc
          omega
        · exact above x hx

theorem coalesce_spaced {a b : Extent} {rest : List Extent} (ha : 0 < a.len) (hb : 0 < b.len)
    (first : a.stop ≤ b.base) (touch : ∀ c ∈ rest, b.stop ≤ c.base) (hs : Spaced rest) :
    Spaced (coalesce (a :: b :: rest)) ∧ ∀ x ∈ coalesce (a :: b :: rest), a.base ≤ x.base := by
  simp only [coalesce]
  split
  next h =>
    apply absorb_spaced (b := ⟨a.base, a.len + b.len⟩) (by simp; omega) _ hs
    intro c hc
    have := touch c hc
    simp only [Extent.stop] at *
    omega
  next h =>
    obtain ⟨hsp, hlow⟩ := absorb_spaced hb touch hs
    refine ⟨spaced_cons_iff.mpr ⟨?_, ha, hsp⟩, ?_⟩
    · intro x hx
      have := hlow x hx
      omega
    · intro x hx
      rcases List.mem_cons.mp hx with rfl | hx
      · exact le_rfl
      · have := hlow x hx
        simp only [Extent.stop] at first
        omega

theorem releaseAfter_spaced {e p : Extent} {es : List Extent} (he : 0 < e.len)
    (below : p.base < e.base) (away : ∀ h ∈ p :: es, Disjoint e.units h.units)
    (hs : Spaced (p :: es)) :
    Spaced (releaseAfter e p es) ∧ ∀ x ∈ releaseAfter e p es, p.base ≤ x.base := by
  induction es generalizing p with
  | nil =>
    have hp := hs.filled p (by simp)
    have hd := (Extent.disjoint_units_iff he hp).mp (away p (by simp))
    refine coalesce_spaced hp he ?_ (by simp) spaced_nil
    simp only [Extent.stop] at *
    omega
  | cons h rest ih =>
    obtain ⟨hg, hp, hr⟩ := spaced_cons_iff.mp hs
    have hh := hg h (by simp)
    simp only [releaseAfter]
    split
    next hlt =>
      obtain ⟨hsp, hlow⟩ := ih hlt (fun f hf => away f (List.mem_cons_of_mem p hf)) hr
      refine ⟨spaced_cons_iff.mpr ⟨?_, hp, hsp⟩, ?_⟩
      · intro x hx
        have := hlow x hx
        omega
      · intro x hx
        rcases List.mem_cons.mp hx with rfl | hx
        · exact le_rfl
        · have := hlow x hx
          simp only [Extent.stop] at hh
          omega
    next hge =>
      have hd := (Extent.disjoint_units_iff he hp).mp (away p (by simp))
      refine coalesce_spaced hp he ?_ ?_ hr
      · simp only [Extent.stop] at *
        omega
      · intro c hc
        have hcp := hr.filled c hc
        have hdc := (Extent.disjoint_units_iff he hcp).mp (away c (by simp [hc]))
        have hle : h.base ≤ c.base := by
          rcases List.mem_cons.mp hc with rfl | hm
          · exact le_rfl
          · have := (spaced_cons_iff.mp hr).1 c hm
            simp only [Extent.stop] at this
            omega
        simp only [Extent.stop] at *
        omega

/-- Releasing an extent that no list entry overlaps keeps order, gaps and no empty entry. -/
theorem release_spaced {e : Extent} {es : List Extent} (he : 0 < e.len)
    (away : ∀ h ∈ es, Disjoint e.units h.units) (hs : Spaced es) : Spaced (release e es) := by
  cases es with
  | nil => exact spaced_singleton he
  | cons h rest =>
    simp only [release]
    split
    next hle =>
      have hp := hs.filled h (by simp)
      refine (coalesce_spaced he hp ?_ ?_ (spaced_cons_iff.mp hs).2.2).1
      · have hd := (Extent.disjoint_units_iff he hp).mp (away h (by simp))
        simp only [Extent.stop] at *
        omega
      · intro c hc
        exact ((spaced_cons_iff.mp hs).1 c hc).le
    next hgt => exact (releaseAfter_spaced he (by omega) away hs).1

theorem Spaced.eq_of_mem {es : List Extent} (h : Spaced es) {f g : Extent} {x : Nat} (hf : f ∈ es)
    (hg : g ∈ es) (hxf : x ∈ f.units) (hxg : x ∈ g.units) : f = g := by
  rw [Extent.mem_units] at hxf hxg
  induction es with
  | nil => simp at hf
  | cons e es ih =>
    obtain ⟨he, -, hs⟩ := spaced_cons_iff.mp h
    rcases List.mem_cons.mp hf with rfl | hf' <;> rcases List.mem_cons.mp hg with rfl | hg'
    · rfl
    · have := he g hg'
      omega
    · have := he f hf'
      omega
    · exact ih hs hf' hg'

theorem Spaced.bite {pre post : List Extent} {g : Extent} {p : Nat}
    (h : Spaced (pre ++ g :: post)) (hp : p < g.len) :
    Spaced (pre ++ ⟨g.base + p, g.len - p⟩ :: post) := by
  obtain ⟨hpre, htail, hcross⟩ := List.pairwise_append.mp h.gaps
  obtain ⟨hg, hpost⟩ := List.pairwise_cons.mp htail
  refine ⟨List.pairwise_append.mpr ⟨hpre, List.pairwise_cons.mpr ⟨fun f hf => ?_, hpost⟩, ?_⟩, ?_⟩
  · have := hg f hf
    simp only [Extent.stop] at *
    omega
  · intro a ha f hf
    rcases List.mem_cons.mp hf with rfl | hf
    · have := hcross a ha g (by simp)
      simp only
      omega
    · exact hcross a ha f (by simp [hf])
  · intro f hf
    rcases List.mem_append.mp hf with hf | hf
    · exact h.filled f (by simp [hf])
    · rcases List.mem_cons.mp hf with rfl | hf
      · simp only
        omega
      · exact h.filled f (by simp [hf])

theorem least_of_split {es pre post : List Extent} {g : Extent} {p : Nat} (h : es = pre ++ g :: post)
    (before : ∀ f ∈ pre, p ≤ f.len → g.len ≤ f.len) (after : ∀ f ∈ post, p ≤ f.len → g.len ≤ f.len) :
    ∀ f ∈ es, p ≤ f.len → g.len ≤ f.len := by
  intro f hf hfit
  rw [h] at hf
  rcases List.mem_append.mp hf with hf | hf
  · exact before f hf hfit
  · rcases List.mem_cons.mp hf with rfl | hf
    · exact le_rfl
    · exact after f hf hfit

/-- What is left when one extent loses its front, and disappears if nothing of it remains. -/
def carve (pre : List Extent) (g : Extent) (p : Nat) (post : List Extent) : List Extent :=
  if g.len = p then pre ++ post else pre ++ ⟨g.base + p, g.len - p⟩ :: post

theorem carve_spaced {pre post : List Extent} {g : Extent} {p : Nat}
    (h : Spaced (pre ++ g :: post)) (hp : p ≤ g.len) : Spaced (carve pre g p post) := by
  simp only [carve]
  split
  next =>
    have hsub : (pre ++ post).Sublist (pre ++ g :: post) :=
      (List.sublist_cons_self g post).append_left pre
    exact ⟨h.gaps.sublist hsub, fun f hf => h.filled f (hsub.subset hf)⟩
  next hne => exact h.bite (by omega)

theorem mem_carve {pre post : List Extent} {g f : Extent} {p : Nat}
    (h : Spaced (pre ++ g :: post)) (hp : p ≤ g.len) (hf : f ∈ carve pre g p post) :
    (f.stop ≤ g.base ∨ g.base + p ≤ f.base) ∧ ∃ e ∈ pre ++ g :: post, f.stop = e.stop := by
  obtain ⟨-, htail, hcross⟩ := List.pairwise_append.mp h.gaps
  have hpre : ∀ f ∈ pre, f.stop ≤ g.base := fun f hf => (hcross f hf g (by simp)).le
  have hpost : ∀ f ∈ post, g.base + p ≤ f.base := by
    intro f hf
    have := (List.pairwise_cons.mp htail).1 f hf
    simp only [Extent.stop] at this
    omega
  simp only [carve] at hf
  split at hf
  next =>
    rcases List.mem_append.mp hf with hf | hf
    · exact ⟨.inl (hpre f hf), f, by simp [hf], rfl⟩
    · exact ⟨.inr (hpost f hf), f, by simp [hf], rfl⟩
  next =>
    rcases List.mem_append.mp hf with hf | hf
    · exact ⟨.inl (hpre f hf), f, by simp [hf], rfl⟩
    · rcases List.mem_cons.mp hf with rfl | hf
      · exact ⟨.inr le_rfl, g, by simp, by simp only [Extent.stop]; omega⟩
      · exact ⟨.inr (hpost f hf), f, by simp [hf], rfl⟩

/-- What is left when one extent loses its end, and disappears if nothing of it remains. -/
def trim (pre : List Extent) (g : Extent) (p : Nat) (post : List Extent) : List Extent :=
  if g.len = p then pre ++ post else pre ++ ⟨g.base, g.len - p⟩ :: post

theorem tally_trim (pre post : List Extent) {g : Extent} {p : Nat} (hp : p ≤ g.len) (x : Nat) :
    tally (⟨g.stop - p, p⟩ :: trim pre g p post) x = tally (pre ++ g :: post) x := by
  have hstop : g.stop - p = g.base + (g.len - p) := by
    simp only [Extent.stop]
    omega
  have hsplit : tally (pre ++ g :: post) x = tally (⟨g.base, g.len - p⟩ ::
      (pre ++ ⟨g.base + (g.len - p), g.len - (g.len - p)⟩ :: post)) x :=
    tally_split (Nat.sub_le g.len p) x
  have hrest : g.len - (g.len - p) = p := by omega
  rw [hsplit, hrest, hstop, trim]
  split
  next h =>
    have hempty : (⟨g.base, g.len - p⟩ : Extent).len = 0 := by simp [h]
    rw [tally_cons_empty hempty, tally_cons, tally_append, tally_append, tally_cons]
    omega
  next =>
    simp only [tally_cons, tally_append]
    omega

theorem trim_spaced {pre post : List Extent} {g : Extent} {p : Nat} (h : Spaced (pre ++ g :: post))
    (hp : p ≤ g.len) : Spaced (trim pre g p post) := by
  obtain ⟨hpre, htail, hcross⟩ := List.pairwise_append.mp h.gaps
  obtain ⟨hg, hpost⟩ := List.pairwise_cons.mp htail
  unfold trim
  split
  next =>
    have hsub : (pre ++ post).Sublist (pre ++ g :: post) :=
      (List.sublist_cons_self g post).append_left pre
    exact ⟨h.gaps.sublist hsub, fun f hf => h.filled f (hsub.subset hf)⟩
  next hne =>
    have hpos : 0 < g.len - p := by omega
    refine ⟨List.pairwise_append.mpr ⟨hpre, List.pairwise_cons.mpr ⟨fun f hf => ?_, hpost⟩, ?_⟩, ?_⟩
    · have hlt := hg f hf
      simp only [Extent.stop] at hlt ⊢
      omega
    · intro a ha f hf
      rcases List.mem_cons.mp hf with rfl | hf
      · exact hcross a ha g (by simp)
      · exact hcross a ha f (by simp [hf])
    · intro f hf
      rcases List.mem_append.mp hf with hf | hf
      · exact h.filled f (by simp [hf])
      · rcases List.mem_cons.mp hf with rfl | hf
        · exact hpos
        · exact h.filled f (by simp [hf])

end TcpAndParallel
