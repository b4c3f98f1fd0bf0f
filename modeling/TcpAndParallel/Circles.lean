import Mathlib.Data.List.Nodup
import Mathlib.Logic.Function.Basic
import Mathlib.Logic.Function.Iterate

namespace TcpAndParallel

variable {α : Type*}

/-- From `x` the links lead through the cells of the list to `z`, and from there back again. -/
def Linking (forw back : α → α) : α → List α → α → Prop
  | x, [], z => forw x = z ∧ back z = x
  | x, y :: ys, z => forw x = y ∧ back y = x ∧ Linking forw back y ys z

/-- The cells of the list are a circle, and `head` is the first of them. -/
def Circular (forw back : α → α) (head : Option α) : List α → Prop
  | [] => head = none
  | x :: xs => head = some x ∧ (x :: xs).Nodup ∧ Linking forw back x xs x

variable {forw back : α → α} {x y z : α} {xs ys : List α} {head : Option α}

theorem linking_append :
    Linking forw back x (xs ++ y :: ys) z ↔ Linking forw back x xs y ∧ Linking forw back y ys z := by
  induction xs generalizing x with
  | nil => exact (and_assoc).symm
  | cons w ws ih => simp only [List.cons_append, Linking, ih, and_assoc]

theorem Linking.congr {forw' back' : α → α} (h : Linking forw back x xs z)
    (hforw : ∀ a ∈ x :: xs, forw' a = forw a) (hback : ∀ a ∈ xs ++ [z], back' a = back a) :
    Linking forw' back' x xs z := by
  induction xs generalizing x with
  | nil =>
    refine ⟨?_, ?_⟩
    · rw [hforw x (by simp), h.1]
    · rw [hback z (by simp), h.2]
  | cons y ys ih =>
    obtain ⟨hx, hy, hrest⟩ := h
    refine ⟨?_, ?_, ih hrest (fun a ha => hforw a (by simp [ha])) fun a ha => hback a (by simp [ha])⟩
    · rw [hforw x (by simp), hx]
    · rw [hback y (by simp), hy]

theorem Linking.back_mem (h : Linking forw back x xs z) : back z ∈ x :: xs := by
  induction xs generalizing x with
  | nil => simp [h.2]
  | cons y ys ih => exact List.mem_cons_of_mem x (ih h.2.2)

/-- The way leads on through the last link as many cells as there are. -/
theorem Linking.iterate (h : Linking forw back x xs z) : forw^[xs.length + 1] x = z := by
  induction xs generalizing x with
  | nil => exact h.1
  | cons y ys ih =>
    rw [List.length_cons, Function.iterate_succ_apply, h.1]
    exact ih h.2.2

theorem Linking.walk (h : Linking forw back x xs z) :
    List.iterate forw x (xs.length + 1) = x :: xs := by
  induction xs generalizing x with
  | nil => rfl
  | cons y ys ih =>
    rw [List.length_cons, List.iterate, h.1, ih h.2.2]

variable [DecidableEq α]

theorem Linking.retarget (h : Linking forw back x xs z) (hn : (x :: xs).Nodup) {w : α}
    (hw : w ∉ xs) :
    Linking (Function.update forw (back z) w) (Function.update back w (back z)) x xs w := by
  induction xs generalizing x with
  | nil =>
    obtain ⟨-, hz⟩ := h
    simp [Linking, hz]
  | cons y ys ih =>
    obtain ⟨hx, hy, hrest⟩ := h
    have hout := List.nodup_cons.mp hn
    have hxz : x ≠ back z := by
      rintro he
      exact hout.1 (he ▸ hrest.back_mem)
    have hyw : y ≠ w := by
      rintro rfl
      exact hw List.mem_cons_self
    refine ⟨?_, ?_, ih hrest hout.2 fun hm => hw (List.mem_cons_of_mem y hm)⟩
    · rw [Function.update_of_ne hxz, hx]
    · rw [Function.update_of_ne hyw, hy]

theorem Circular.concat (h : Circular forw back head (x :: xs)) {p : α} (hp : p ∉ x :: xs) :
    Circular (Function.update (Function.update forw (back x) p) p x)
      (Function.update (Function.update back p (back x)) x p) head (x :: xs ++ [p]) := by
  obtain ⟨hhead, hn, hlinks⟩ := h
  have hout := List.nodup_cons.mp hn
  have hxp : x ≠ p := by
    rintro rfl
    exact hp List.mem_cons_self
  refine ⟨hhead, ?_, linking_append.mpr ⟨?_, by simp [Linking]⟩⟩
  · exact List.nodup_append.mpr ⟨hn, List.nodup_singleton p, fun a ha b hb hab => by
      rw [List.mem_singleton.mp hb] at hab
      exact hp (hab ▸ ha)⟩
  · have hturned := hlinks.retarget hn (w := p) fun hm => hp (List.mem_cons_of_mem x hm)
    refine hturned.congr (fun a ha => Function.update_of_ne ?_ _ _) fun a ha =>
      Function.update_of_ne ?_ _ _
    · rintro rfl
      exact hp ha
    · rintro rfl
      rcases List.mem_append.mp ha with hm | hm
      · exact hout.1 hm
      · exact hxp (List.mem_singleton.mp hm)

theorem Circular.remove_head (h : Circular forw back head (x :: y :: ys)) :
    forw x = y ∧ Circular (Function.update forw (back x) (forw x))
      (Function.update back (forw x) (back x)) (some y) (y :: ys) := by
  obtain ⟨-, hn, hx, -, hlinks⟩ := h
  have hrest := (List.nodup_cons.mp hn).2
  refine ⟨hx, rfl, hrest, ?_⟩
  rw [hx]
  exact hlinks.retarget hrest (List.nodup_cons.mp hrest).1

theorem Circular.remove {p : α} (h : Circular forw back head (x :: (xs ++ p :: ys))) :
    Circular (Function.update forw (back p) (forw p)) (Function.update back (forw p) (back p)) head
      (x :: (xs ++ ys)) := by
  obtain ⟨hhead, hn, hlinks⟩ := h
  obtain ⟨hbefore, hafter⟩ := linking_append.mp hlinks
  have hsub : List.Sublist (x :: (xs ++ ys)) (x :: (xs ++ p :: ys)) :=
    ((List.sublist_cons_self p ys).append_left xs).cons_cons x
  have hfirst : (x :: xs).Nodup := hn.sublist ((List.sublist_append_left xs (p :: ys)).cons_cons x)
  refine ⟨hhead, hn.sublist hsub, ?_⟩
  cases ys with
  | nil =>
    rw [hafter.1, List.append_nil]
    exact hbefore.retarget hfirst (List.nodup_cons.mp hfirst).1
  | cons a as =>
    obtain ⟨ha, -, hrest⟩ := hafter
    rw [ha]
    have hsplit : ((x :: xs) ++ p :: a :: as).Nodup := hn
    obtain ⟨-, hlast, hapart⟩ := List.nodup_append.mp hsplit
    have hlast' := List.nodup_cons.mp (List.nodup_cons.mp hlast).2
    refine linking_append.mpr ⟨hbefore.retarget hfirst fun hm => ?_, hrest.congr (fun b hb => ?_)
      fun b hb => ?_⟩
    · exact hapart a (List.mem_cons_of_mem x hm) a (by simp) rfl
    · refine Function.update_of_ne ?_ _ _
      rintro rfl
      exact hapart _ hbefore.back_mem _ (List.mem_cons_of_mem p hb) rfl
    · refine Function.update_of_ne ?_ _ _
      rintro rfl
      rcases List.mem_append.mp hb with hm | hm
      · exact hlast'.1 hm
      · exact hapart x (by simp) b (by simp) (List.mem_singleton.mp hm).symm

end TcpAndParallel
