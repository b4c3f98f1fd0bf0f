import Mathlib.Data.List.Basic
import Mathlib.Data.List.Nodup
import Mathlib.Logic.Function.Basic

namespace TcpAndParallel

variable {α : Type*}

/-- Following `next` from the link `p` visits exactly the cells of the list and
then meets a null link. -/
def Chain (next : α → Option α) : Option α → List α → Prop
  | p, [] => p = none
  | p, x :: xs => p = some x ∧ Chain next (next x) xs

@[simp] theorem chain_nil {next : α → Option α} {p : Option α} :
    Chain next p [] ↔ p = none := Iff.rfl

@[simp] theorem chain_cons {next : α → Option α} {p : Option α} {x : α} {xs : List α} :
    Chain next p (x :: xs) ↔ p = some x ∧ Chain next (next x) xs := Iff.rfl

theorem Chain.head_eq {next : α → Option α} {p : Option α} {xs : List α}
    (h : Chain next p xs) : p = xs.head? := by
  cases xs with
  | nil => exact h
  | cons x xs => exact h.1

theorem chain_none_iff {next : α → Option α} {xs : List α} :
    Chain next none xs ↔ xs = [] := by
  cases xs <;> simp

/-- A link determines the cells that are visited from it. -/
theorem Chain.unique {next : α → Option α} {p : Option α} {xs ys : List α}
    (hx : Chain next p xs) (hy : Chain next p ys) : xs = ys := by
  induction xs generalizing p ys with
  | nil =>
    have hp : p = none := hx
    subst hp
    exact (chain_none_iff.mp hy).symm
  | cons x xs ih =>
    obtain ⟨rfl, hx⟩ := hx
    cases ys with
    | nil => simp at hy
    | cons y ys =>
      obtain ⟨he, hy⟩ := hy
      cases Option.some.inj he
      rw [ih hx hy]

/-- No cell is visited twice, as the second visit would begin the list anew. -/
theorem Chain.nodup {next : α → Option α} {p : Option α} {xs : List α}
    (h : Chain next p xs) : xs.Nodup := by
  induction xs generalizing p with
  | nil => exact List.nodup_nil
  | cons x xs ih =>
    refine List.nodup_cons.mpr ⟨?_, ih h.2⟩
    intro hm
    obtain ⟨before, after, rfl⟩ := List.append_of_mem hm
    have again : ∀ {q : Option α} {zs : List α}, Chain next q (zs ++ x :: after) →
        Chain next (some x) (x :: after) := by
      intro q zs
      induction zs generalizing q with
      | nil => exact fun hz => ⟨rfl, hz.2⟩
      | cons z zs ihz => exact fun hz => ihz hz.2
    have hlen := congrArg List.length ((again h.2).2.unique h.2)
    simp only [List.length_append, List.length_cons] at hlen
    omega

theorem Chain.congr {next next' : α → Option α} {p : Option α} {xs : List α}
    (h : Chain next p xs) (same : ∀ x ∈ xs, next' x = next x) : Chain next' p xs := by
  induction xs generalizing p with
  | nil => exact h
  | cons x xs ih =>
    refine ⟨h.1, ?_⟩
    rw [same x (by simp)]
    exact ih h.2 (fun y hy => same y (by simp [hy]))

theorem Chain.update_of_notMem [DecidableEq α] {next : α → Option α} {p q : Option α} {x : α}
    {xs : List α} (h : Chain next p xs) (hx : x ∉ xs) : Chain (Function.update next x q) p xs :=
  h.congr fun y hy => Function.update_of_ne (by rintro rfl; exact hx hy) _ _

theorem Chain.push [DecidableEq α] {next : α → Option α} {p : Option α} {x : α} {xs : List α}
    (h : Chain next p xs) (hx : x ∉ xs) : Chain (Function.update next x p) (some x) (x :: xs) :=
  ⟨rfl, by simpa using h.update_of_notMem hx⟩

theorem Chain.next_eq {next : α → Option α} {p : Option α} {x : α} {xs ys : List α}
    (h : Chain next p (xs ++ x :: ys)) : next x = ys.head? := by
  induction xs generalizing p with
  | nil => exact h.2.head_eq
  | cons z zs ih => exact ih h.2

theorem Chain.insert_after [DecidableEq α] {next : α → Option α} {p : Option α} {x y : α}
    {xs ys : List α} (h : Chain next p (xs ++ x :: ys)) (hy : y ∉ xs ++ x :: ys) :
    Chain (Function.update (Function.update next y (next x)) x (some y)) p (xs ++ x :: y :: ys) := by
  induction xs generalizing p with
  | nil =>
    have hxy : y ≠ x := fun he => hy (by simp [he])
    have hx : x ∉ ys := (List.nodup_cons.mp h.nodup).1
    obtain ⟨hp, ht⟩ := h
    refine ⟨hp, by simp, ?_⟩
    rw [Function.update_of_ne hxy, Function.update_self]
    exact (ht.update_of_notMem (fun hm => hy (by simp [hm]))).update_of_notMem hx
  | cons z zs ih =>
    have hn := List.nodup_cons.mp h.nodup
    have hzx : z ≠ x := fun he => hn.1 (by simp [he])
    have hzy : z ≠ y := fun he => hy (by simp [he])
    refine ⟨h.1, ?_⟩
    rw [Function.update_of_ne hzx, Function.update_of_ne hzy]
    exact ih h.2 (fun hm => hy (List.mem_cons_of_mem z hm))

theorem Chain.concat [DecidableEq α] {next : α → Option α} {p : Option α} {x y : α} {xs : List α}
    (h : Chain next p (xs ++ [x])) (hy : y ∉ xs ++ [x]) :
    Chain (Function.update (Function.update next y none) x (some y)) p (xs ++ [x] ++ [y]) := by
  have hlast : next x = none := h.next_eq
  rw [List.append_assoc, ← hlast]
  exact h.insert_after hy

theorem Chain.remove_after [DecidableEq α] {next : α → Option α} {p : Option α} {x y : α}
    {xs ys : List α} (h : Chain next p (xs ++ x :: y :: ys)) :
    Chain (Function.update next x (next y)) p (xs ++ x :: ys) := by
  induction xs generalizing p with
  | nil =>
    have hx : x ∉ y :: ys := (List.nodup_cons.mp h.nodup).1
    obtain ⟨hp, -, ht⟩ := h
    refine ⟨hp, ?_⟩
    rw [Function.update_self]
    exact ht.update_of_notMem (fun hm => hx (List.mem_cons_of_mem y hm))
  | cons z zs ih =>
    have hn := List.nodup_cons.mp h.nodup
    have hzx : z ≠ x := fun he => hn.1 (by simp [he])
    refine ⟨h.1, ?_⟩
    rw [Function.update_of_ne hzx]
    exact ih h.2

/-- Walk at most `fuel` links; the answer is `none` if the walk has not ended by then. -/
def walk (next : α → Option α) : Nat → Option α → Option (List α)
  | _, none => some []
  | 0, some _ => none
  | fuel + 1, some x => (walk next fuel (next x)).map (x :: ·)

theorem walk_eq_some_iff {next : α → Option α} {fuel : Nat} {p : Option α} {xs : List α} :
    walk next fuel p = some xs ↔ Chain next p xs ∧ xs.length ≤ fuel := by
  induction fuel generalizing p xs with
  | zero =>
    cases p with
    | none => cases xs <;> simp [walk]
    | some x => cases xs <;> simp [walk]
  | succ fuel ih =>
    cases p with
    | none => cases xs <;> simp [walk]
    | some x =>
      cases xs with
      | nil => simp [walk]
      | cons y ys =>
        simp only [walk, Option.map_eq_some_iff, ih, List.cons.injEq, chain_cons, Option.some.injEq,
          List.length_cons]
        constructor
        · rintro ⟨zs, ⟨hz, hl⟩, rfl, rfl⟩
          exact ⟨⟨rfl, hz⟩, by omega⟩
        · rintro ⟨⟨rfl, hz⟩, hl⟩
          exact ⟨ys, ⟨hz, by omega⟩, rfl, rfl⟩

/-- Following `next` from the link `p` visits the cells of the list and then meets the link `q`. -/
def Segment (next : α → Option α) : Option α → List α → Option α → Prop
  | p, [], q => p = q
  | p, x :: xs, q => p = some x ∧ Segment next (next x) xs q

@[simp] theorem segment_nil {next : α → Option α} {p q : Option α} :
    Segment next p [] q ↔ p = q := Iff.rfl

@[simp] theorem segment_cons {next : α → Option α} {p q : Option α} {x : α} {xs : List α} :
    Segment next p (x :: xs) q ↔ p = some x ∧ Segment next (next x) xs q := Iff.rfl

theorem segment_append {next : α → Option α} {p q : Option α} {xs ys : List α} :
    Segment next p (xs ++ ys) q ↔ ∃ r, Segment next p xs r ∧ Segment next r ys q := by
  induction xs generalizing p with
  | nil => simp
  | cons x xs ih =>
    simp only [List.cons_append, segment_cons, ih]
    constructor
    · rintro ⟨hp, r, hx, hy⟩
      exact ⟨r, ⟨hp, hx⟩, hy⟩
    · rintro ⟨r, ⟨hp, hx⟩, hy⟩
      exact ⟨hp, r, hx, hy⟩

theorem segment_concat {next : α → Option α} {p q : Option α} {x : α} {xs : List α} :
    Segment next p (xs ++ [x]) q ↔ Segment next p xs (some x) ∧ next x = q := by
  rw [segment_append]
  constructor
  · rintro ⟨r, hx, rfl, hq⟩
    exact ⟨hx, hq⟩
  · rintro ⟨hx, hq⟩
    exact ⟨some x, hx, rfl, hq⟩

namespace Segment

variable {next : α → Option α} {p q r : Option α} {x y : α} {xs ys : List α}

theorem next_eq (h : Segment next p (xs ++ x :: ys) q) : next x = ys.head?.or q := by
  obtain ⟨m, -, -, hy⟩ := segment_append.mp h
  cases ys with
  | nil => exact hy
  | cons y ys => exact hy.1

theorem congr {next' : α → Option α} (h : Segment next p xs q) (same : ∀ z ∈ xs, next' z = next z) :
    Segment next' p xs q := by
  induction xs generalizing p with
  | nil => exact h
  | cons z zs ih =>
    refine ⟨h.1, ?_⟩
    rw [same z List.mem_cons_self]
    exact ih h.2 fun w hw => same w (List.mem_cons_of_mem z hw)

variable [DecidableEq α]

theorem update_of_notMem (h : Segment next p xs q) (hx : x ∉ xs) :
    Segment (Function.update next x r) p xs q :=
  h.congr fun z hz => Function.update_of_ne (by rintro rfl; exact hx hz) _ _

theorem push (h : Segment next p xs q) (hx : x ∉ xs) :
    Segment (Function.update next x p) (some x) (x :: xs) q :=
  ⟨rfl, by simpa using h.update_of_notMem hx⟩

theorem set_end (h : Segment next p (xs ++ [x]) q) (nodup : (xs ++ [x]).Nodup) :
    Segment (Function.update next x r) p (xs ++ [x]) r := by
  obtain ⟨hfront, -⟩ := segment_concat.mp h
  have hx : x ∉ xs := fun hm => (List.nodup_append.mp nodup).2.2 x hm x List.mem_cons_self rfl
  exact segment_concat.mpr ⟨hfront.update_of_notMem hx, Function.update_self ..⟩

theorem insert_after (h : Segment next p (xs ++ x :: ys) q) (nodup : (xs ++ x :: ys).Nodup)
    (hy : y ∉ xs ++ x :: ys) :
    Segment (Function.update (Function.update next y (next x)) x (some y)) p (xs ++ x :: y :: ys) q := by
  obtain ⟨m, hfront, hp, hback⟩ := segment_append.mp h
  obtain ⟨-, hnd, hdisj⟩ := List.nodup_append.mp nodup
  have hx : x ∉ xs := fun hm => hdisj x hm x List.mem_cons_self rfl
  have hxy : y ≠ x := fun he => hy (by simp [he])
  have hback' : Segment (Function.update next y (next x)) (some y) (y :: ys) q :=
    hback.push fun hm => hy (by simp [hm])
  have hfront' := (hfront.update_of_notMem (r := next x) (x := y) fun hm => hy (by simp [hm]))
  refine segment_append.mpr ⟨m, hfront'.update_of_notMem hx, hp, ?_⟩
  rw [Function.update_self]
  refine hback'.update_of_notMem fun hm => ?_
  rcases List.mem_cons.mp hm with he | hm
  · exact hxy he.symm
  · exact (List.nodup_cons.mp hnd).1 hm

theorem remove_after (h : Segment next p (xs ++ x :: y :: ys) q)
    (nodup : (xs ++ x :: y :: ys).Nodup) :
    Segment (Function.update next x (next y)) p (xs ++ x :: ys) q := by
  obtain ⟨m, hfront, hp, -, hback⟩ := segment_append.mp h
  obtain ⟨-, hnd, hdisj⟩ := List.nodup_append.mp nodup
  have hx : x ∉ xs := fun hm => hdisj x hm x List.mem_cons_self rfl
  have hxs : x ∉ ys := fun hm => (List.nodup_cons.mp hnd).1 (List.mem_cons_of_mem y hm)
  refine segment_append.mpr ⟨m, hfront.update_of_notMem hx, hp, ?_⟩
  rw [Function.update_self]
  exact hback.update_of_notMem hxs

end Segment

/-- The cell is visited on the way from the link, which may run in a circle. -/
inductive Linked (next : α → Option α) : Option α → α → Prop
  | here (x : α) : Linked next (some x) x
  | there {x y : α} (h : Linked next (next x) y) : Linked next (some x) y

theorem linked_none {next : α → Option α} {y : α} : ¬Linked next none y := nofun

theorem linked_some_iff {next : α → Option α} {x y : α} :
    Linked next (some x) y ↔ y = x ∨ Linked next (next x) y := by
  constructor
  · rintro (_ | h)
    · exact .inl rfl
    · exact .inr h
  · rintro (rfl | h)
    · exact .here _
    · exact .there h

theorem linked_update_iff [DecidableEq α] {next : α → Option α} {p q : Option α} {x y : α}
    (hx : ¬Linked next p x) : Linked (Function.update next x q) p y ↔ Linked next p y := by
  constructor
  · intro h
    induction h with
    | here z => exact .here z
    | @there z y _ ih =>
      have hz : z ≠ x := by
        rintro rfl
        exact hx (.here z)
      rw [Function.update_of_ne hz] at ih
      exact .there (ih fun hl => hx (.there hl))
  · intro h
    induction h with
    | here z => exact .here z
    | @there z y _ ih =>
      have hz : z ≠ x := by
        rintro rfl
        exact hx (.here z)
      apply Linked.there
      rw [Function.update_of_ne hz]
      exact ih fun hl => hx (.there hl)

theorem linked_push [DecidableEq α] {next : α → Option α} {p : Option α} {x y : α}
    (hx : ¬Linked next p x) :
    Linked (Function.update next x p) (some x) y ↔ y = x ∨ Linked next p y := by
  rw [linked_some_iff, Function.update_self, linked_update_iff hx]

theorem linked_self {next : α → Option α} {x y : α} (hx : next x = some x) :
    Linked next (some x) y ↔ y = x := by
  constructor
  · intro h
    generalize hp : some x = p at h
    induction h with
    | here z => exact (Option.some.inj hp).symm
    | @there z y _ ih =>
      obtain rfl := Option.some.inj hp
      exact ih hx.symm
  · rintro rfl
    exact .here y

end TcpAndParallel
