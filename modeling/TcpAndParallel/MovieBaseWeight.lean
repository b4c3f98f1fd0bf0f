import Mathlib.Algebra.GroupWithZero.Nat
import Mathlib.Algebra.Order.BigOperators.Group.List
import Mathlib.Algebra.Order.Group.Nat
import TcpAndParallel.MovieBaseFile

namespace TcpAndParallel

open Scanner

namespace MovieBase

variable {fold : Text → Text} {sys : Platform} {b b' : MovieBase} {field field' t rest : Text}

/-- The line separators in the names of an actor. -/
def cost (b : MovieBase) (i : Nat) : Nat :=
  match b.actors[i]? with
  | some a => (text a.firstName).countP isLineSeparator + (text a.lastName).countP isLineSeparator
  | none => 0

/-- The lines that it takes to read the casts: three for each actor in one, and the separators in
the names. -/
def weight (b : MovieBase) : Nat := (b.movies.map fun m => (m.actors.map fun i => cost b i + 3).sum).sum

/-- A mark that is read is a line of those that its record takes. -/
def credit (field : Text) : Nat := if field = castMark then 1 else 0

theorem credit_le (field : Text) : credit field ≤ 1 := by
  unfold credit
  split <;> omega

theorem sum_map_modify {α : Type} {f : α → Nat} {g : α → α} {xs : List α} {k : Nat} {x : α}
    (h : xs[k]? = some x) : ((xs.modify k g).map f).sum + f x = (xs.map f).sum + f (g x) := by
  induction xs generalizing k with
  | nil => simp at h
  | cons y ys ih =>
    cases k with
    | zero =>
      obtain rfl : y = x := by simpa using h
      simp
      omega
    | succ k =>
      have htail := ih (k := k) (by simpa using h)
      simp
      omega

theorem Consistent.actor_lt (hb : Consistent fold b) {m : Movie} {i : Nat} (hm : m ∈ b.movies)
    (hi : i ∈ m.actors) : i < b.actors.length := by
  obtain ⟨k, hk⟩ := List.mem_iff_getElem?.mp hm
  have hl := (hb.linked k i).mp (by simpa [cast, hk] using hi)
  by_contra hge
  unfold filmography at hl
  rw [List.getElem?_eq_none (by omega)] at hl
  simp at hl

variable (fold) in
theorem weight_addMovie (b : MovieBase) (movie : Option Text) :
    weight (addMovie fold movie b).2 = weight b := by
  obtain he | ⟨-, -, he⟩ := addMovie_cases fold movie b
  · rw [he]
  · rw [he]
    simp [weight, cost]

theorem weight_addActor (hb : Consistent fold b) (firstName lastName : Option Text) :
    weight (addActor firstName lastName b).2 = weight b := by
  obtain he | ⟨-, -, he⟩ := addActor_cases firstName lastName b
  · rw [he]
  · rw [he]
    unfold weight
    congr 1
    apply List.map_congr_left
    intro m hm
    congr 1
    apply List.map_congr_left
    intro i hi
    unfold cost
    rw [List.getElem?_append_left (hb.actor_lt hm hi)]

theorem cost_link {movie actor : Nat} (i : Nat) : cost (b.link movie actor) i = cost b i := by
  unfold cost link
  simp only [List.getElem?_modify]
  cases b.actors[i]? with
  | none => rfl
  | some a =>
    simp only [Option.map_eq_map, Option.map_some]
    split <;> rfl

theorem weight_link {movie actor : Nat} (h : movie < b.movies.length) :
    weight (b.link movie actor) = weight b + (cost b actor + 3) := by
  have hsum := sum_map_modify (f := fun m => (m.actors.map fun i => cost b i + 3).sum)
    (g := fun m => { m with actors := m.actors ++ [actor] }) (List.getElem?_eq_getElem h)
  unfold weight
  simp only [cost_link]
  unfold link
  simp only [List.map_append, List.sum_append, List.map_cons, List.map_nil, List.sum_cons,
    List.sum_nil] at hsum ⊢
  omega

theorem weight_addActorToMovie (hb : Consistent fold b) (movieName : Option Text) (s t : Text) :
    weight (addActorToMovie fold movieName (some s) (some t) b).2 ≤
      weight b + (s.countP isLineSeparator + t.countP isLineSeparator + 3) := by
  obtain he | ⟨movie, actor, a, hmovie, ha, hf, hl, hnot, he⟩ :=
    addActorToMovie_cases fold movieName (some s) (some t) b
  · rw [he]
    omega
  · rw [he (hb.filmography_length hmovie hnot), weight_link hmovie]
    simp [cost, ha, hf, hl, text]

theorem record_weight (hb : Consistent fold b)
    (h : record fold field t b = (.ok (field', rest), b')) :
    weight b' + credit field' + lines rest ≤ weight b + credit field + lines t := by
  have hcredit := credit_le field'
  unfold record at h
  split at h
  next =>
    obtain ⟨r, b₁, h₁, k₁⟩ := Action.bind_ok h
    obtain ⟨u, b₂, h₂, k₂⟩ := Action.bind_ok k₁
    obtain ⟨hr, rfl⟩ := scanLine_ok h₁
    obtain ⟨hrest, rfl⟩ := scanLine_ok k₂
    have hw : weight b' = weight b₁ := by
      simpa only [h₂] using weight_addMovie fold b₁ (some r.1)
    have hlr := nextLine_lines hr
    have hlrest := nextLine_lines hrest
    omega
  next =>
    split at h
    next =>
      obtain ⟨r, b₁, h₁, k₁⟩ := Action.bind_ok h
      obtain ⟨q, b₂, h₂, k₂⟩ := Action.bind_ok k₁
      obtain ⟨u, b₃, h₃, k₃⟩ := Action.bind_ok k₂
      obtain ⟨hr, rfl⟩ := scanToken_ok h₁
      obtain ⟨hq, rfl⟩ := scanToken_ok h₂
      obtain ⟨hrest, rfl⟩ := scanLine_ok k₃
      have hw : weight b' = weight b₂ := by
        simpa only [h₃] using weight_addActor hb (some r.1) (some q.1)
      have hlr := next_lines hr
      have hlq := next_lines hq
      have hlrest := nextLine_lines hrest
      omega
    next =>
      split at h
      next hmark =>
        obtain ⟨r, b₁, h₁, k₁⟩ := Action.bind_ok h
        obtain ⟨q, b₂, h₂, k₂⟩ := Action.bind_ok k₁
        obtain ⟨p, b₃, h₃, k₃⟩ := Action.bind_ok k₂
        obtain ⟨u, b₄, h₄, k₄⟩ := Action.bind_ok k₃
        obtain ⟨hr, rfl⟩ := scanLine_ok h₁
        obtain ⟨hq, rfl⟩ := scanToken_ok h₂
        obtain ⟨hp, rfl⟩ := scanToken_ok h₃
        obtain ⟨hrest, rfl⟩ := scanLine_ok k₄
        have hw : weight b' ≤ weight b₃ +
            (q.1.countP isLineSeparator + p.1.countP isLineSeparator + 3) := by
          simpa only [h₄] using weight_addActorToMovie hb (some r.1) q.1 p.1
        have hlr := nextLine_lines hr
        have hlq := next_lines hq
        have hlp := next_lines hp
        have hlrest := nextLine_lines hrest
        have hnext : credit field' = 0 := by
          unfold credit
          split
          next he =>
            rw [he] at hrest
            exact absurd (nextLine_behind hp hrest) (by decide)
          next => rfl
        have hfield : credit field = 1 := by
          unfold credit
          rw [if_pos hmark]
        omega
      next =>
        obtain ⟨hrest, rfl⟩ := scanLine_ok h
        have hlrest := nextLine_lines hrest
        omega

theorem record_consistent (hb : Consistent fold b)
    (h : record fold field t b = (.ok (field', rest), b')) : Consistent fold b' := by
  have hkeeps : Action.Keeps (Consistent fold) (record fold field t) :=
    record_keeps (T := fun _ => True) (fun _ _ => ⟨trivial, trivial⟩)
      (fun t _ _ b hb => hb.addMovie _) (fun s t _ _ _ _ b hb => hb.addActor _ _)
      (fun r s t b hb => hb.addActorToMovie _ _ _) field trivial
  have hb' := hkeeps b hb
  rwa [h] at hb'

theorem loop_weight (hb : Consistent fold b) (h : loop fold field t b = (.ok (), b')) :
    weight b' ≤ weight b + credit field + lines t := by
  induction field, t, b using loop.induct fold with
  | case1 field b =>
    obtain ⟨-, rfl⟩ := Prod.mk.inj (loop_nil.symm.trans h)
    omega
  | case2 field t b hne e b₁ hr =>
    rw [loop_ne hne, Action.bind_run, hr] at h
    simp at h
  | case3 field t b hne field' rest b₁ hr ih =>
    rw [loop_ne hne, Action.bind_of_ok hr] at h
    have hrec := record_weight hb hr
    have hrest := ih (record_consistent hb hr) h
    omega

theorem saveName_eq (hb : Consistent fold b) (hr : Readable b) {m : Movie} {i : Nat}
    (hm : m ∈ b.movies) (hi : i ∈ m.actors) :
    ∃ s t, saveName b i = s ++ 32 :: (t ++ [32]) ∧ Token s ∧ Token t ∧
      cost b i = s.countP isLineSeparator + t.countP isLineSeparator := by
  have hget := List.getElem?_eq_getElem (hb.actor_lt hm hi)
  obtain ⟨s, t, hs, ht, hsn, htn⟩ := hr.names _ (List.getElem_mem (hb.actor_lt hm hi))
  exact ⟨s, t, by simp [saveName, hget, hs, ht, text], hsn, htn, by simp [cost, hget, hs, ht, text]⟩

theorem countP_names (hb : Consistent fold b) (hr : Readable b) {m : Movie} (hm : m ∈ b.movies)
    {is : List Nat} (his : ∀ i ∈ is, i ∈ m.actors) :
    (is.flatMap (saveName b)).countP isLineSeparator = (is.map (cost b)).sum ∧
      ∀ c ∈ is.flatMap (saveName b), c ≠ 13 := by
  induction is with
  | nil => simp
  | cons i is ih =>
    obtain ⟨s, t, hname, hs, ht, hcost⟩ := saveName_eq hb hr hm (his i (by simp))
    obtain ⟨hcount, hne⟩ := ih fun j hj => his j (by simp [hj])
    have hspace : isLineSeparator 32 = false := by decide
    constructor
    · rw [List.flatMap_cons, List.countP_append, hcount, hname]
      simp [hcost, hspace]
    · intro c hc
      rw [List.flatMap_cons, hname] at hc
      rcases List.mem_append.mp hc with hc | hc
      · rcases List.mem_append.mp hc with hc | hc
        · exact token_ne_return (hs.2 c hc)
        · simp only [List.mem_cons, List.mem_append, List.not_mem_nil, or_false] at hc
          obtain rfl | hc | rfl := hc
          · decide
          · exact token_ne_return (ht.2 c hc)
          · decide
      · exact hne c hc

theorem lines_casts (hb : Consistent fold b) (hr : Readable b) {ms : List Movie}
    (hms : ∀ m ∈ ms, m ∈ b.movies) :
    lines (ms.flatMap (saveCast sys b)) =
      (ms.map fun m => if 0 < m.actors.length then (m.actors.map (cost b)).sum + 3 else 0).sum := by
  induction ms with
  | nil => rfl
  | cons m ms ih =>
    have htail := ih fun n hn => hms n (by simp [hn])
    obtain ⟨t, ht, hline⟩ := hr.titles m (hms m (by simp))
    obtain ⟨hcount, hne⟩ := countP_names hb hr (hms m (by simp)) (fun i hi => hi)
    have hmark : Line castMark := by decide
    rw [List.flatMap_cons, List.map_cons, List.sum_cons, ← htail]
    unfold saveCast
    split
    next =>
      rw [List.append_assoc, List.append_assoc, println_append, lines_append sys hmark.ne_return,
        println_append, ht, text, lines_append sys hline.ne_return, println_append,
        lines_append sys hne, hcount, hmark.countP, hline.countP]
      omega
    next => simp

theorem sum_cost (is : List Nat) :
    (is.map fun i => cost b i + 3).sum = (is.map (cost b)).sum + 3 * is.length := by
  induction is with
  | nil => rfl
  | cons i is ih =>
    simp only [List.map_cons, List.sum_cons, List.length_cons, ih]
    omega

/-- A cast of two would take more lines than it is written in. -/
theorem casts_of_weight (hb : Consistent fold b) (hr : Readable b)
    (h : weight b ≤ lines (b.movies.flatMap (saveCast sys b))) :
    ∀ m ∈ b.movies, m.actors.length ≤ 1 := by
  rw [lines_casts hb hr fun m hm => hm] at h
  unfold weight at h
  simp only [sum_cost] at h
  intro m hm
  by_contra hlen
  apply absurd h
  rw [not_le]
  apply List.sum_lt_sum
  · intro n _
    split <;> omega
  · refine ⟨m, hm, ?_⟩
    rw [if_pos (by omega)]
    omega

end MovieBase

end TcpAndParallel
