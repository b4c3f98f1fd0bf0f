import Mathlib.Order.Lattice
import TcpAndParallel.Chain

namespace TcpAndParallel

universe u

/-- What a node says of a city; names are strings in the order of `std::string`. -/
structure City (ν φ : Type u) where
  name : ν
  latitude : φ
  longitude : φ

/-- The list of `Dllist`, and of `CityDatabase`, whose functions are the same. The fields of a node
are read at its address; `live` are the nodes that exist, and `news` counts all that ever did. -/
structure Dllist (α ν φ : Type u) where
  head : Option α
  last : Option α
  next : α → Option α
  prev : α → Option α
  city : α → City ν φ
  live : α → Bool
  news : Nat

namespace Dllist

variable {α ν φ : Type u} [DecidableEq α] [LinearOrder ν]

/-- The address of a node that exists; there is no other to be followed. -/
def deref (d : Dllist α ν φ) (p : Option α) : Option α := p.filter fun x => d.live x

def new (d : Dllist α ν φ) (temp : α) (c : City ν φ) : Dllist α ν φ :=
  { d with
    city := Function.update d.city temp c
    live := Function.update d.live temp true
    news := d.news + 1 }

def delete (d : Dllist α ν φ) (curr : α) : Dllist α ν φ :=
  { d with live := Function.update d.live curr false }

/-- `while (s > curr->name && curr->next != last->next) curr = curr->next`. A loop that goes on for
more rounds than there ever were nodes does not end. -/
def seek (d : Dllist α ν φ) (s : ν) : Nat → Option α → Option α
  | 0, _ => none
  | fuel + 1, curr => do
    let curr ← d.deref curr
    if (d.city curr).name < s then
      let last ← d.deref d.last
      if d.next curr ≠ d.next last then seek d s fuel (d.next curr) else some curr
    else some curr

/-- `temp` is the address that `new` yields. -/
def Insert (d : Dllist α ν φ) (temp : α) (c : City ν φ) : Option (Dllist α ν φ) :=
  match d.head with
  | none =>
    let d := d.new temp c
    some { d with
      head := some temp
      last := some temp
      prev := Function.update d.prev temp none
      next := Function.update d.next temp none }
  | some head => do
    let curr ← d.seek c.name d.news (some head)
    if curr = head then
      let d := d.new temp c
      some { d with
        prev := Function.update d.prev temp (some curr)
        next := Function.update (Function.update d.next temp none) head (some temp)
        last := some temp }
    else if d.last = some curr ∧ (d.city curr).name < c.name then
      let d := d.new temp c
      some { d with
        next := Function.update (Function.update d.next curr (some temp)) temp none
        prev := Function.update d.prev temp (some curr)
        last := some temp }
    else
      let d := d.new temp c
      let before ← d.deref (d.prev curr)
      some { d with
        next := Function.update (Function.update d.next temp (some curr)) before (some temp)
        prev := Function.update (Function.update d.prev temp (d.prev curr)) curr (some temp) }

def search (d : Dllist α ν φ) (s : ν) (stop : Option α) : Nat → Option α → Option (Option α)
  | fuel, curr =>
    if curr = stop then some none
    else match fuel with
      | 0 => none
      | fuel + 1 => do
        let x ← d.deref curr
        if (d.city x).name = s then some (some x) else search d s stop fuel (d.next x)

def Remove (d : Dllist α ν φ) (s : ν) : Option (Dllist α ν φ) :=
  match d.head with
  | none => some d
  | some head => do
    let last ← d.deref d.last
    match ← d.search s (d.next last) d.news (some head) with
    | none => some d
    | some curr =>
      if curr = head then
        if d.next curr ≠ none then some { d.delete curr with head := d.next curr }
        else some { d.delete curr with head := none, last := none }
      else if curr = last then some { d.delete curr with last := d.prev curr }
      else
        let before ← d.deref (d.prev curr)
        let after ← d.deref (d.next curr)
        some { d.delete curr with
          next := Function.update d.next before (some after)
          prev := Function.update d.prev after (some before) }

/-- The cities that `operator<<` visits from a link up to the link `stop`. -/
def visit (d : Dllist α ν φ) (stop : Option α) : Nat → Option α → Option (List (City ν φ))
  | fuel, curr =>
    if curr = stop then some []
    else match fuel with
      | 0 => none
      | fuel + 1 => do
        let x ← d.deref curr
        let rest ← visit d stop fuel (d.next x)
        some (d.city x :: rest)

/-- `operator<<`. For an empty list it comes to its end without a `return`, and has no defined
result. -/
def print (d : Dllist α ν φ) : Option (List (City ν φ)) :=
  match d.head with
  | none => none
  | some head => do
    let last ← d.deref d.last
    d.visit (d.next last) d.news (some head)

/-- The nodes of the list in order. The link behind the last one is null or that of a node that
exists no longer. -/
structure Shape (d : Dllist α ν φ) (xs : List α) : Prop where
  forward : ∃ q, Segment d.next d.head xs q ∧ ∀ z, q = some z → d.live z = false
  backward : ∃ r, Segment d.prev d.last xs.reverse r
  empty : xs = [] → d.head = none ∧ d.last = none
  live : ∀ x ∈ xs, d.live x = true
  nodup : xs.Nodup
  news : xs.length ≤ d.news

variable {d : Dllist α ν φ} {xs us vs : List α} {x y temp : α} {p q : Option α} {s : ν}
  {c : City ν φ} {n : Nat}

section Walks

omit [DecidableEq α] [LinearOrder ν]

theorem deref_some (h : d.live x = true) : d.deref (some x) = some x := by
  simp [deref, h]

theorem Shape.head_cons (h : Shape d (x :: xs)) : d.head = some x := by
  obtain ⟨q, hq, -⟩ := h.forward
  exact hq.1

theorem Shape.last_concat (h : Shape d (xs ++ [x])) : d.last = some x := by
  obtain ⟨r, hr⟩ := h.backward
  rw [List.reverse_append] at hr
  exact hr.1

theorem Shape.next_eq (h : Shape d (us ++ x :: y :: vs)) : d.next x = some y := by
  obtain ⟨q, hq, -⟩ := h.forward
  have hn := hq.next_eq
  simpa using hn

theorem Shape.prev_eq (h : Shape d (us ++ y :: x :: vs)) : d.prev x = some y := by
  obtain ⟨r, hr⟩ := h.backward
  have he : (us ++ y :: x :: vs).reverse = vs.reverse ++ x :: y :: us.reverse := by simp
  rw [he] at hr
  have hn := hr.next_eq
  simpa using hn

theorem Shape.notEnd (h : Shape d xs) (hq : ∀ z, q = some z → d.live z = false) :
    ∀ z ∈ xs, some z ≠ q := by
  intro z hz he
  have hdead := hq z he.symm
  simp [h.live z hz] at hdead

theorem Shape.exists_last (h : Shape d xs) (hne : xs ≠ []) :
    ∃ l, d.last = some l ∧ l ∈ xs ∧ ∀ y ∈ xs, d.next l ≠ some y := by
  obtain ⟨us, l, rfl⟩ := (List.eq_nil_or_concat' xs).resolve_left hne
  obtain ⟨q, hq, hdead⟩ := h.forward
  have hn : d.next l = q := by simpa using hq.next_eq
  exact ⟨l, h.last_concat, by simp, fun y hy he => h.notEnd hdead y hy (he ▸ hn)⟩

end Walks

omit [LinearOrder ν] in
theorem visit_eq (h : Segment d.next p xs q) (live : ∀ z ∈ xs, d.live z = true)
    (notEnd : ∀ z ∈ xs, some z ≠ q) (fuel : xs.length ≤ n) :
    d.visit q n p = some (xs.map d.city) := by
  induction xs generalizing p n with
  | nil =>
    obtain rfl : p = q := h
    unfold visit
    simp
  | cons z zs ih =>
    obtain ⟨rfl, hz⟩ := h
    obtain ⟨n, rfl⟩ : ∃ m, n = m + 1 := ⟨n - 1, by simp at fuel; omega⟩
    have hrest := ih hz (fun w hw => live w (by simp [hw])) (fun w hw => notEnd w (by simp [hw]))
      (by simpa using fuel)
    unfold visit
    rw [if_neg (notEnd z (by simp))]
    simp [deref_some (live z (by simp)), hrest]

omit [LinearOrder ν] in
theorem print_eq (hhead : d.head = some x) (hlast : d.last = some y) (hy : d.live y = true)
    (h : Segment d.next (some x) xs (d.next y)) (live : ∀ z ∈ xs, d.live z = true)
    (notEnd : ∀ z ∈ xs, some z ≠ d.next y) (fuel : xs.length ≤ d.news) :
    d.print = some (xs.map d.city) := by
  have hvisit := visit_eq h live notEnd fuel
  unfold print
  simp [hhead, hlast, deref_some hy, hvisit]

omit [LinearOrder ν] in
theorem Shape.print_eq (h : Shape d (x :: xs)) : d.print = some ((x :: xs).map d.city) := by
  obtain ⟨us, l, hl⟩ := (List.eq_nil_or_concat' (x :: xs)).resolve_left (by simp)
  obtain ⟨q, hq, hdead⟩ := h.forward
  have hne := h.notEnd hdead
  have hlast : d.last = some l := (hl ▸ h).last_concat
  have hend : d.next l = q := by
    rw [hl] at hq
    simpa using hq.next_eq
  rw [h.head_cons] at hq
  exact Dllist.print_eq h.head_cons hlast (h.live l (by simp [hl])) (hend ▸ hq) h.live
    (hend ▸ hne) h.news

theorem search_eq (h : Segment d.next p xs q) (live : ∀ z ∈ xs, d.live z = true)
    (notEnd : ∀ z ∈ xs, some z ≠ q) (fuel : xs.length ≤ n) :
    d.search s q n p = some (xs.find? fun z => (d.city z).name = s) := by
  induction xs generalizing p n with
  | nil =>
    obtain rfl : p = q := h
    unfold search
    simp
  | cons z zs ih =>
    obtain ⟨rfl, hz⟩ := h
    obtain ⟨n, rfl⟩ : ∃ m, n = m + 1 := ⟨n - 1, by simp at fuel; omega⟩
    have hrest := ih hz (fun w hw => live w (by simp [hw])) (fun w hw => notEnd w (by simp [hw]))
      (by simpa using fuel)
    unfold search
    rw [if_neg (notEnd z (by simp)), List.find?_cons]
    by_cases hs : (d.city z).name = s
    · simp [deref_some (live z (by simp)), hs]
    · simp [deref_some (live z (by simp)), hs, hrest]

theorem Shape.search_eq (h : Shape d xs) (hhead : d.head = some x) (hlast : d.last = some y) :
    d.search s (d.next y) d.news (some x) = some (xs.find? fun z => (d.city z).name = s) := by
  have hne : xs ≠ [] := by
    rintro rfl
    simp [(h.empty rfl).1] at hhead
  obtain ⟨us, l, rfl⟩ := (List.eq_nil_or_concat' xs).resolve_left hne
  obtain ⟨q, hq, hdead⟩ := h.forward
  obtain rfl : l = y := Option.some.inj (h.last_concat.symm.trans hlast)
  have hend : d.next l = q := by simpa using hq.next_eq
  rw [hend, ← hhead]
  exact Dllist.search_eq hq h.live (h.notEnd hdead) h.news

/-- `Insert` stops at the first node whose name is not smaller, or else at the last one. -/
theorem Shape.seek_eq (h : Shape d (us ++ x :: vs)) (fuel : (x :: vs).length ≤ n) :
    ∃ ms y ws, x :: vs = ms ++ y :: ws ∧ d.seek s n (some x) = some y ∧
      (∀ z ∈ ms, (d.city z).name < s) ∧ (ws = [] ∨ s ≤ (d.city y).name) := by
  induction vs generalizing us x n with
  | nil =>
    obtain ⟨n, rfl⟩ : ∃ m, n = m + 1 := ⟨n - 1, by simp at fuel; omega⟩
    refine ⟨[], x, [], rfl, ?_, by simp, .inl rfl⟩
    have hx := deref_some (h.live x (by simp))
    unfold seek
    simp [hx, h.last_concat]
  | cons y ys ih =>
    obtain ⟨n, rfl⟩ : ∃ m, n = m + 1 := ⟨n - 1, by simp at fuel; omega⟩
    have hx := deref_some (h.live x (by simp))
    by_cases hs : (d.city x).name < s
    · obtain ⟨l, hl, hlast, hend⟩ := h.exists_last (by simp)
      have h' : Shape d ((us ++ [x]) ++ y :: ys) := by simpa using h
      have fuel' : (y :: ys).length ≤ n := by simpa using fuel
      obtain ⟨ms, z, ws, he, hseek, hms, hws⟩ := ih h' fuel'
      refine ⟨x :: ms, z, ws, by simp [he], ?_, ?_, hws⟩
      · have hne := hend y (by simp)
        unfold seek
        simp [hx, hl, deref_some (h.live l hlast), hs, h.next_eq, hne.symm, hseek]
      · intro w hw
        rcases List.mem_cons.mp hw with rfl | hw
        · exact hs
        · exact hms w hw
    · refine ⟨[], x, y :: ys, rfl, ?_, by simp, .inr (le_of_not_gt hs)⟩
      unfold seek
      simp [hx, hs]

end Dllist

end TcpAndParallel
