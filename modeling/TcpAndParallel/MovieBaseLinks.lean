import Mathlib.Data.List.Induction
import Mathlib.Data.List.Perm.Subperm
import TcpAndParallel.MovieBase

namespace TcpAndParallel

open Scanner

namespace MovieBase

variable (fold : Text → Text) (cs : Charset)

inductive Op
  | addMovie (movie : Option Text)
  | addActor (firstName lastName : Option Text)
  | addActorToMovie (movieName firstName lastName : Option Text)
  | load (file : Option (List UInt8))

def perform : Op → Action Unit
  | .addMovie movie => addMovie fold movie
  | .addActor firstName lastName => addActor firstName lastName
  | .addActorToMovie movieName firstName lastName => do
    let _ ← addActorToMovie fold movieName firstName lastName
    pure ()
  | .load file => load fold cs file

/-- The base after some calls; what they throw is caught. -/
def run (ops : List Op) : MovieBase := ops.foldl (fun b op => (perform fold cs op b).2) new

def cast (b : MovieBase) (movie : Nat) : List Nat := ((b.movies[movie]?).map Movie.actors).getD []

def filmography (b : MovieBase) (actor : Nat) : List Nat :=
  ((b.actors[actor]?).map Actor.movies).getD []

def SameTitle (m n : Movie) : Prop := m.name.map fold = n.name.map fold

def SameName (a c : Actor) : Prop := a.firstName = c.firstName ∧ a.lastName = c.lastName

/-- The casts and the filmographies say the same, and nothing is stored twice. -/
structure InStep (b : MovieBase) : Prop where
  linked : ∀ movie actor, actor ∈ b.cast movie ↔ movie ∈ b.filmography actor
  castNodup : ∀ movie, (b.cast movie).Nodup
  filmographyNodup : ∀ actor, (b.filmography actor).Nodup
  titles : b.movies.Pairwise fun m n => ¬SameTitle fold m n
  names : b.actors.Pairwise fun a c => ¬SameName a c

structure Consistent (b : MovieBase) : Prop extends InStep fold b where
  movieCapacity : b.movies.length ≤ 100
  actorCapacity : b.actors.length ≤ 100

section Search

variable {α : Type} {test : α → Except Throwable Bool} {xs : List α}

theorem search_cons {x : α} : search test (x :: xs) =
    match test x with
    | .error e => .error e
    | .ok true => .ok (some 0)
    | .ok false => (search test xs).map (Option.map (· + 1)) := rfl

theorem search_none_iff : search test xs = .ok none ↔ ∀ x ∈ xs, test x = .ok false := by
  induction xs with
  | nil => simp [search]
  | cons x xs ih =>
    rw [List.forall_mem_cons, ← ih, search_cons]
    split
    next e he => simp [he]
    next he => simp [he]
    next he =>
      cases hs : search test xs with
      | error e => simp [he, Except.map]
      | ok o => cases o <;> simp [he, Except.map]

theorem search_some {i : Nat} (h : search test xs = .ok (some i)) :
    ∃ x, xs[i]? = some x ∧ test x = .ok true := by
  induction xs generalizing i with
  | nil => simp [search] at h
  | cons x xs ih =>
    rw [search_cons] at h
    split at h
    next => simp at h
    next he =>
      obtain rfl : 0 = i := by simpa using h
      exact ⟨x, rfl, he⟩
    next he =>
      cases hs : search test xs with
      | error e => simp [hs, Except.map] at h
      | ok o =>
        cases o with
        | none => simp [hs, Except.map] at h
        | some j =>
          obtain rfl : j + 1 = i := by simpa [hs, Except.map] using h
          exact ih hs

theorem pairwise_modify {R : α → α → Prop} {g : α → α} (left : ∀ x y, R x y → R (g x) y)
    (right : ∀ x y, R x y → R x (g y)) (h : xs.Pairwise R) (k : Nat) :
    (xs.modify k g).Pairwise R := by
  rw [List.pairwise_iff_getElem] at h ⊢
  intro i j hi hj hij
  rw [List.length_modify] at hi hj
  have hr := h i j hi hj hij
  rw [List.getElem_modify, List.getElem_modify]
  split
  next =>
    split
    next => exact left _ _ (right _ _ hr)
    next => exact left _ _ hr
  next =>
    split
    next => exact right _ _ hr
    next => exact hr

end Search

variable {fold} {cs : Charset} {b : MovieBase}

theorem named_true {firstName lastName : Option Text} {actor : Actor}
    (h : named firstName lastName actor = .ok true) :
    actor.firstName = firstName ∧ actor.lastName = lastName := by
  unfold named at h
  split at h
  next => simp at h
  next first hf =>
    split at h
    next heq =>
      split at h
      next => simp at h
      next last hl => exact ⟨hf.trans heq, by simpa [hl] using h⟩
    next => simp at h

theorem named_false {firstName lastName : Option Text} {actor : Actor}
    (h : named firstName lastName actor = .ok false) :
    ¬(actor.firstName = firstName ∧ actor.lastName = lastName) := by
  rintro ⟨rfl, rfl⟩
  unfold named at h
  split at h
  next => simp at h
  next first hf =>
    rw [if_pos hf.symm] at h
    split at h
    next => simp at h
    next last hl => simp [hl] at h

theorem titled_false {name : Option Text} {movie : Movie}
    (h : titled fold name movie = .ok false) :
    movie.name.map fold ≠ name.map fold := by
  unfold titled at h
  split at h
  next => simp at h
  next title ht =>
    cases name with
    | none => simp [ht]
    | some n => simpa [ht, equalsIgnoreCase] using h

variable (fold) in
theorem addMovie_cases (movie : Option Text) (b : MovieBase) :
    (addMovie fold movie b).2 = b ∨
    ((∀ m ∈ b.movies, titled fold movie m = .ok false) ∧ b.movies.length < 100 ∧
      (addMovie fold movie b).2 = { b with movies := b.movies ++ [⟨movie, []⟩] }) := by
  unfold addMovie
  rw [Action.bind_run]
  unfold findMovie
  cases hs : search (titled fold movie) b.movies with
  | error e => exact .inl rfl
  | ok o =>
    cases o with
    | some i => exact .inl rfl
    | none =>
      by_cases hlen : b.movies.length < 100
      · exact .inr ⟨search_none_iff.mp hs, hlen, by simp [hlen]⟩
      · exact .inl (by simp [hlen])

theorem addActor_cases (firstName lastName : Option Text) (b : MovieBase) :
    (addActor firstName lastName b).2 = b ∨
    ((∀ a ∈ b.actors, named firstName lastName a = .ok false) ∧ b.actors.length < 100 ∧
      (addActor firstName lastName b).2 =
        { b with actors := b.actors ++ [⟨firstName, lastName, []⟩] }) := by
  unfold addActor
  rw [Action.bind_run]
  unfold findActor
  cases hs : search (named firstName lastName) b.actors with
  | error e => exact .inl rfl
  | ok o =>
    cases o with
    | some i => exact .inl rfl
    | none =>
      by_cases hlen : b.actors.length < 100
      · exact .inr ⟨search_none_iff.mp hs, hlen, by simp [hlen]⟩
      · exact .inl (by simp [hlen])

def link (b : MovieBase) (movie actor : Nat) : MovieBase where
  movies := b.movies.modify movie fun m => { m with actors := m.actors ++ [actor] }
  actors := b.actors.modify actor fun a => { a with movies := a.movies ++ [movie] }

variable (fold) in
theorem addActorToMovie_cases (movieName firstName lastName : Option Text) (b : MovieBase) :
    (addActorToMovie fold movieName firstName lastName b).2 = b ∨
    ∃ movie actor a, movie < b.movies.length ∧ b.actors[actor]? = some a ∧
      a.firstName = firstName ∧ a.lastName = lastName ∧ actor ∉ b.cast movie ∧
      ((b.filmography actor).length < 100 →
        (addActorToMovie fold movieName firstName lastName b).2 = b.link movie actor) := by
  unfold addActorToMovie
  rw [Action.bind_run]
  unfold findActor
  cases ha : search (named firstName lastName) b.actors with
  | error e => exact .inl rfl
  | ok o =>
    cases o with
    | none => exact .inl rfl
    | some actor =>
      obtain ⟨a, haget, hnamed⟩ := search_some ha
      simp only [Action.bind_run, findMovie]
      cases hm : search (titled fold movieName) b.movies with
      | error e => exact .inl rfl
      | ok o =>
        cases o with
        | none => exact .inl rfl
        | some movie =>
          obtain ⟨m, hmget, -⟩ := search_some hm
          simp only [Action.bind_run, isInCast, findMovie, hm, hmget, Option.any_some]
          cases hc : containsActor fold b m.actors firstName lastName with
          | true => exact .inl rfl
          | false =>
            have hcast : b.cast movie = m.actors := by simp [cast, hmget]
            have hfilm : b.filmography actor = a.movies := by simp [filmography, haget]
            obtain ⟨hf, hl⟩ := named_true hnamed
            have hnot : actor ∉ b.cast movie := by
              intro hmem
              have hyes : containsActor fold b m.actors firstName lastName = true := by
                unfold containsActor
                refine List.any_eq_true.mpr ⟨actor, hcast ▸ hmem, ?_⟩
                simp [haget, hf, hl, equalsIgnoreCase]
              simp [hc] at hyes
            by_cases hten : m.actors.length < 10
            · refine .inr ⟨movie, actor, a, ?_, haget, hf, hl, hnot, fun hroom => ?_⟩
              · exact (List.getElem?_eq_some_iff.mp hmget).1
              · rw [hfilm] at hroom
                simp [Action.bind_run, movieAddActor, hmget, hten, actorAddMovie, haget, hroom,
                  Action.pure_run, link]
            · exact .inl (by simp [Action.bind_run, movieAddActor, hmget, hten])

theorem cast_append (movie : Option Text) (i : Nat) :
    ({ b with movies := b.movies ++ [⟨movie, []⟩] } : MovieBase).cast i = b.cast i := by
  unfold cast
  rw [List.getElem?_append]
  split
  next => rfl
  next hi =>
    rw [List.getElem?_eq_none (by omega : b.movies.length ≤ i)]
    cases hj : [(⟨movie, []⟩ : Movie)][i - b.movies.length]? with
    | none => rfl
    | some m =>
      obtain rfl : m = ⟨movie, []⟩ := by simpa using List.mem_of_getElem? hj
      rfl

theorem filmography_append (firstName lastName : Option Text) (i : Nat) :
    ({ b with actors := b.actors ++ [⟨firstName, lastName, []⟩] } : MovieBase).filmography i =
      b.filmography i := by
  unfold filmography
  rw [List.getElem?_append]
  split
  next => rfl
  next hi =>
    rw [List.getElem?_eq_none (by omega : b.actors.length ≤ i)]
    cases hj : [(⟨firstName, lastName, []⟩ : Actor)][i - b.actors.length]? with
    | none => rfl
    | some m =>
      obtain rfl : m = ⟨firstName, lastName, []⟩ := by simpa using List.mem_of_getElem? hj
      rfl

theorem cast_link {movie actor : Nat} (h : movie < b.movies.length) (i : Nat) :
    (b.link movie actor).cast i = if i = movie then b.cast movie ++ [actor] else b.cast i := by
  unfold cast link
  simp only [List.getElem?_modify]
  by_cases hi : i = movie
  · subst hi
    simp [List.getElem?_eq_getElem h]
  · have hne : movie ≠ i := fun he => hi he.symm
    simp [hi, hne]

theorem filmography_link {movie actor : Nat} (h : actor < b.actors.length) (i : Nat) :
    (b.link movie actor).filmography i =
      if i = actor then b.filmography actor ++ [movie] else b.filmography i := by
  unfold filmography link
  simp only [List.getElem?_modify]
  by_cases hi : i = actor
  · subst hi
    simp [List.getElem?_eq_getElem h]
  · have hne : actor ≠ i := fun he => hi he.symm
    simp [hi, hne]

theorem mem_cast_lt {movie actor : Nat} (h : actor ∈ b.cast movie) : movie < b.movies.length := by
  by_contra hge
  unfold cast at h
  rw [List.getElem?_eq_none (by omega)] at h
  simp at h

theorem consistent_new : Consistent fold new := by
  refine ⟨⟨?_, ?_, ?_, ?_, ?_⟩, ?_, ?_⟩ <;> simp [new, cast, filmography]

theorem Consistent.addMovie (h : Consistent fold b) (movie : Option Text) :
    Consistent fold (addMovie fold movie b).2 := by
  obtain he | ⟨hno, hlen, he⟩ := addMovie_cases fold movie b
  · rwa [he]
  · rw [he]
    refine ⟨⟨?_, ?_, h.filmographyNodup, ?_, h.names⟩, ?_, h.actorCapacity⟩
    · intro i j
      rw [cast_append]
      exact h.linked i j
    · intro i
      rw [cast_append]
      exact h.castNodup i
    · refine List.pairwise_append.mpr ⟨h.titles, List.pairwise_singleton _ _, ?_⟩
      intro m hm n hn
      obtain rfl : n = ⟨movie, []⟩ := by simpa using hn
      exact titled_false (hno m hm)
    · simp
      omega

theorem Consistent.addActor (h : Consistent fold b) (firstName lastName : Option Text) :
    Consistent fold (addActor firstName lastName b).2 := by
  obtain he | ⟨hno, hlen, he⟩ := addActor_cases firstName lastName b
  · rwa [he]
  · rw [he]
    refine ⟨⟨?_, h.castNodup, ?_, h.titles, ?_⟩, h.movieCapacity, ?_⟩
    · intro i j
      rw [filmography_append]
      exact h.linked i j
    · intro i
      rw [filmography_append]
      exact h.filmographyNodup i
    · refine List.pairwise_append.mpr ⟨h.names, List.pairwise_singleton _ _, ?_⟩
      intro a ha c hc
      obtain rfl : c = ⟨firstName, lastName, []⟩ := by simpa using hc
      exact named_false (hno a ha)
    · simp
      omega

/-- An actor who is not in the cast has a place for the movie, as there are no more movies. -/
theorem Consistent.filmography_length (h : Consistent fold b) {movie actor : Nat}
    (hmovie : movie < b.movies.length) (hnot : actor ∉ b.cast movie) :
    (b.filmography actor).length < 100 := by
  have hnd : (movie :: b.filmography actor).Nodup :=
    List.nodup_cons.mpr ⟨fun hm => hnot ((h.linked movie actor).mpr hm), h.filmographyNodup actor⟩
  have hsub : movie :: b.filmography actor ⊆ List.range b.movies.length := by
    intro i hi
    rw [List.mem_range]
    rcases List.mem_cons.mp hi with rfl | hi
    · exact hmovie
    · exact mem_cast_lt ((h.linked i actor).mpr hi)
  have hle := (List.subperm_of_subset hnd hsub).length_le
  have hcap := h.movieCapacity
  simp only [List.length_cons, List.length_range] at hle
  omega

theorem Consistent.link (h : Consistent fold b) {movie actor : Nat}
    (hmovie : movie < b.movies.length) (hactor : actor < b.actors.length)
    (hnot : actor ∉ b.cast movie) : Consistent fold (b.link movie actor) := by
  have hnot' : movie ∉ b.filmography actor := fun hm => hnot ((h.linked movie actor).mpr hm)
  refine ⟨⟨?_, ?_, ?_, ?_, ?_⟩, ?_, ?_⟩
  · intro i j
    rw [cast_link hmovie, filmography_link hactor]
    have hl := h.linked i j
    by_cases hi : i = movie
    · by_cases hj : j = actor
      · simp [hi, hj]
      · subst hi
        simpa [hj] using hl
    · by_cases hj : j = actor
      · subst hj
        simpa [hi] using hl
      · simpa [hi, hj] using hl
  · intro i
    rw [cast_link hmovie]
    split
    next => exact List.nodup_append.mpr ⟨h.castNodup movie, List.pairwise_singleton _ _, by
      rintro a ha c hc rfl
      exact hnot (List.mem_singleton.mp hc ▸ ha)⟩
    next => exact h.castNodup i
  · intro j
    rw [filmography_link hactor]
    split
    next => exact List.nodup_append.mpr ⟨h.filmographyNodup actor, List.pairwise_singleton _ _, by
      rintro a ha c hc rfl
      exact hnot' (List.mem_singleton.mp hc ▸ ha)⟩
    next => exact h.filmographyNodup j
  · refine pairwise_modify ?_ ?_ h.titles movie <;> exact fun _ _ hm => hm
  · refine pairwise_modify ?_ ?_ h.names actor <;> exact fun _ _ ha => ha
  · simpa [MovieBase.link] using h.movieCapacity
  · simpa [MovieBase.link] using h.actorCapacity

theorem Consistent.addActorToMovie (h : Consistent fold b)
    (movieName firstName lastName : Option Text) :
    Consistent fold (addActorToMovie fold movieName firstName lastName b).2 := by
  obtain he | ⟨movie, actor, a, hmovie, ha, -, -, hnot, he⟩ :=
    addActorToMovie_cases fold movieName firstName lastName b
  · rwa [he]
  · rw [he (h.filmography_length hmovie hnot)]
    exact h.link hmovie (List.getElem?_eq_some_iff.mp ha).1 hnot

theorem Consistent.perform (h : Consistent fold b) (op : Op) :
    Consistent fold (perform fold cs op b).2 := by
  cases op with
  | addMovie movie => exact h.addMovie movie
  | addActor firstName lastName => exact h.addActor firstName lastName
  | addActorToMovie movieName firstName lastName =>
    have hkeeps : Action.Keeps (Consistent fold) (MovieBase.perform fold cs
        (.addActorToMovie movieName firstName lastName)) :=
      Action.Keeps.bind (fun b hb => hb.addActorToMovie movieName firstName lastName)
        fun _ _ _ _ => Action.keeps_pure _
    exact hkeeps b h
  | load file =>
    exact load_keeps (T := fun _ => True) (fun _ _ => ⟨trivial, trivial⟩)
      (fun t _ _ b hb => hb.addMovie _) (fun s t _ _ _ _ b hb => hb.addActor _ _)
      (fun r s t b hb => hb.addActorToMovie _ _ _) cs file (fun _ _ => trivial) b h

theorem consistent_run (cs : Charset) (ops : List Op) : Consistent fold (run fold cs ops) := by
  unfold run
  induction ops using List.reverseRecOn with
  | nil => exact consistent_new
  | append_singleton ops op ih =>
    rw [List.foldl_append]
    exact ih.perform op

/-- Whatever is called and thrown, the casts and the filmographies say the same. -/
theorem in_step (cs : Charset) (ops : List Op) : InStep fold (run fold cs ops) :=
  (consistent_run cs ops).toInStep

end MovieBase

end TcpAndParallel
