import TcpAndParallel.MovieBaseLinks

namespace TcpAndParallel

open Scanner

namespace MovieBase

variable (fold : Text → Text)

/-- The movie has the title, but for the case, the actor exactly the names, and is not in the
cast. -/
structure Castable (b : MovieBase) (movieName firstName lastName : Option Text)
    (movie actor : Nat) : Prop where
  title : ∃ m, b.movies[movie]? = some m ∧
    m.name.map fold = movieName.map fold
  names : ∃ a, b.actors[actor]? = some a ∧ a.firstName = firstName ∧ a.lastName = lastName
  absent : actor ∉ b.cast movie

/-- True for the names that are stored and not in the cast yet, and no change without it. -/
structure Exact (b : MovieBase) (movieName firstName lastName : Option Text) : Prop where
  succeeds : (addActorToMovie fold movieName firstName lastName b).1 = .ok true ↔
    ∃ movie actor, Castable fold b movieName firstName lastName movie actor
  atomic : (addActorToMovie fold movieName firstName lastName b).1 ≠ .ok true →
    (addActorToMovie fold movieName firstName lastName b).2 = b

/-- The names that are looked at up to the movie and the actor are not null, the cast has a place,
and no one in it has the same full name but for the case. -/
structure Free (b : MovieBase) (firstName lastName : Option Text) (movie actor : Nat) : Prop where
  titles : ∀ i ≤ movie, ∀ m, b.movies[i]? = some m → m.name ≠ none
  names : ∀ i ≤ actor, ∀ a, b.actors[i]? = some a →
    a.firstName ≠ none ∧ (a.firstName = firstName → a.lastName ≠ none)
  room : (b.cast movie).length < 10
  distinct : ∀ i ∈ b.cast movie, ∀ a, b.actors[i]? = some a →
    equalsIgnoreCase fold (getFullName firstName lastName)
      (getFullName a.firstName a.lastName) = false

section Search

variable {α : Type} {test : α → Except Throwable Bool} {xs : List α}

theorem search_some_iff {i : Nat} : search test xs = .ok (some i) ↔
    (∃ x, xs[i]? = some x ∧ test x = .ok true) ∧
      ∀ j < i, ∀ x, xs[j]? = some x → test x = .ok false := by
  induction xs generalizing i with
  | nil => simp [search]
  | cons x xs ih =>
    rw [search_cons]
    split
    next e he =>
      cases i with
      | zero => simp [he]
      | succ i =>
        constructor
        · intro h
          simp at h
        · intro h
          have hx := h.2 0 (by omega) x rfl
          simp [he] at hx
    next he =>
      cases i with
      | zero => simp [he]
      | succ i =>
        constructor
        · intro h
          simp at h
        · intro h
          have hx := h.2 0 (by omega) x rfl
          simp [he] at hx
    next he =>
      have hmap : (search test xs).map (Option.map (· + 1)) = .ok (some i) ↔
          ∃ j, i = j + 1 ∧ search test xs = .ok (some j) := by
        cases search test xs with
        | error e => simp [Except.map]
        | ok o =>
          cases o with
          | none => simp [Except.map]
          | some j => simp [Except.map, eq_comm]
      rw [hmap]
      constructor
      · rintro ⟨j, rfl, hj⟩
        obtain ⟨hfound, hbefore⟩ := ih.mp hj
        refine ⟨hfound, fun k hk y hy => ?_⟩
        cases k with
        | zero =>
          obtain rfl : x = y := Option.some.inj hy
          exact he
        | succ k => exact hbefore k (by omega) y hy
      · rintro ⟨hfound, hbefore⟩
        cases i with
        | zero => simp [he] at hfound
        | succ i =>
          exact ⟨i, rfl, ih.mpr ⟨hfound, fun k hk y hy => hbefore (k + 1) (by omega) y hy⟩⟩

theorem pairwise_getElem? {R : α → α → Prop} (h : xs.Pairwise R) {i j : Nat} (hij : i < j)
    {x y : α} (hx : xs[i]? = some x) (hy : xs[j]? = some y) : R x y := by
  obtain ⟨hi, rfl⟩ := List.getElem?_eq_some_iff.mp hx
  obtain ⟨hj, rfl⟩ := List.getElem?_eq_some_iff.mp hy
  exact List.pairwise_iff_getElem.mp h i j hi hj hij

end Search

variable {fold} {b : MovieBase} {movieName firstName lastName : Option Text} {movie actor : Nat}

theorem named_true_iff {a : Actor} : named firstName lastName a = .ok true ↔
    a.firstName = firstName ∧ a.lastName = lastName ∧ a.firstName ≠ none ∧ a.lastName ≠ none := by
  constructor
  · intro h
    obtain ⟨hf, hl⟩ := named_true h
    refine ⟨hf, hl, ?_, ?_⟩
    · intro hnone
      simp [named, hnone] at h
    · intro hnone
      unfold named at h
      split at h
      next => simp at h
      next first hfirst => simp [hfirst ▸ hf, hnone] at h
  · rintro ⟨rfl, rfl, hf, hl⟩
    obtain ⟨first, hfirst⟩ := Option.ne_none_iff_exists'.mp hf
    obtain ⟨last, hlast⟩ := Option.ne_none_iff_exists'.mp hl
    simp [named, hfirst, hlast]

theorem named_false_iff {a : Actor} : named firstName lastName a = .ok false ↔
    ¬(a.firstName = firstName ∧ a.lastName = lastName) ∧ a.firstName ≠ none ∧
      (a.firstName = firstName → a.lastName ≠ none) := by
  constructor
  · intro h
    refine ⟨named_false h, ?_, ?_⟩
    · intro hnone
      simp [named, hnone] at h
    · intro hf hnone
      unfold named at h
      split at h
      next => simp at h
      next first hfirst => simp [hfirst ▸ hf, hnone] at h
  · rintro ⟨hne, hf, hl⟩
    obtain ⟨first, hfirst⟩ := Option.ne_none_iff_exists'.mp hf
    by_cases heq : a.firstName = firstName
    · obtain ⟨last, hlast⟩ := Option.ne_none_iff_exists'.mp (hl heq)
      have hlastne : some last ≠ lastName := fun he => hne ⟨heq, hlast.trans he⟩
      obtain rfl : firstName = some first := heq.symm.trans hfirst
      simp [named, hfirst, hlast, hlastne]
    · simp [named, hfirst, hfirst ▸ heq]

theorem titled_true_iff {m : Movie} : titled fold movieName m = .ok true ↔
    m.name.map fold = movieName.map fold ∧ m.name ≠ none := by
  unfold titled
  split
  next hn => simp [hn]
  next title hn =>
    cases movieName with
    | none => simp [hn]
    | some n => simp [hn, equalsIgnoreCase]

theorem titled_false_iff {m : Movie} : titled fold movieName m = .ok false ↔
    m.name.map fold ≠ movieName.map fold ∧ m.name ≠ none := by
  unfold titled
  split
  next hn => simp [hn]
  next title hn =>
    cases movieName with
    | none => simp [hn]
    | some n => simp [hn, equalsIgnoreCase]

variable (fold) in
/-- Both searches end at a place, and the cast takes the actor. -/
structure Adds (b : MovieBase) (movieName firstName lastName : Option Text)
    (movie actor : Nat) : Prop where
  foundActor : search (named firstName lastName) b.actors = .ok (some actor)
  foundMovie : search (titled fold movieName) b.movies = .ok (some movie)
  outside : containsActor fold b (b.cast movie) firstName lastName = false
  room : (b.cast movie).length < 10

theorem containsActor_false_iff {is : List Nat} :
    containsActor fold b is firstName lastName = false ↔
      ∀ i ∈ is, ∀ a, b.actors[i]? = some a → equalsIgnoreCase fold
        (getFullName firstName lastName) (getFullName a.firstName a.lastName) = false := by
  unfold containsActor
  rw [List.any_eq_false]
  refine forall_congr' fun i => imp_congr_right fun _ => ?_
  cases b.actors[i]? with
  | none => simp
  | some a => simp

theorem Adds.absent (h : Adds fold b movieName firstName lastName movie actor) :
    actor ∉ b.cast movie := by
  intro hmem
  obtain ⟨a, ha, hnamed⟩ := search_some h.foundActor
  obtain ⟨rfl, rfl⟩ := named_true hnamed
  have hno := containsActor_false_iff.mp h.outside actor hmem a ha
  simp [equalsIgnoreCase] at hno

/-- A call adds and returns true, or leaves the base alone. -/
theorem addActorToMovie_outcome (h : Consistent fold b)
    (movieName firstName lastName : Option Text) :
    (∃ movie actor, Adds fold b movieName firstName lastName movie actor ∧
      (addActorToMovie fold movieName firstName lastName b).1 = .ok true) ∨
    (∀ movie actor, ¬Adds fold b movieName firstName lastName movie actor) ∧
      (addActorToMovie fold movieName firstName lastName b).1 ≠ .ok true ∧
      (addActorToMovie fold movieName firstName lastName b).2 = b := by
  unfold addActorToMovie
  rw [Action.bind_run]
  unfold findActor
  cases ha : search (named firstName lastName) b.actors with
  | error e =>
    refine .inr ⟨fun _ _ hadds => ?_, by simp, rfl⟩
    have hfound := hadds.foundActor
    simp [ha] at hfound
  | ok o =>
    cases o with
    | none =>
      refine .inr ⟨fun _ _ hadds => ?_, by simp [Action.pure_run], rfl⟩
      have hfound := hadds.foundActor
      simp [ha] at hfound
    | some actor =>
      obtain ⟨a, haget, -⟩ := search_some ha
      simp only [Action.bind_run, findMovie]
      cases hm : search (titled fold movieName) b.movies with
      | error e =>
        refine .inr ⟨fun _ _ hadds => ?_, by simp, rfl⟩
        have hfound := hadds.foundMovie
        simp [hm] at hfound
      | ok o =>
        cases o with
        | none =>
          refine .inr ⟨fun _ _ hadds => ?_, by simp [Action.pure_run], rfl⟩
          have hfound := hadds.foundMovie
          simp [hm] at hfound
        | some movie =>
          obtain ⟨m, hmget, -⟩ := search_some hm
          have hcast : b.cast movie = m.actors := by simp [cast, hmget]
          have hplace : ∀ movie' actor',
              Adds fold b movieName firstName lastName movie' actor' → movie' = movie := by
            intro movie' actor' hadds
            have hfound := hadds.foundMovie.symm.trans hm
            simpa using hfound
          simp only [Action.bind_run, isInCast, findMovie, hm, hmget, Option.any_some]
          cases hc : containsActor fold b m.actors firstName lastName with
          | true =>
            refine .inr ⟨fun movie' actor' hadds => ?_, by simp [Action.pure_run], rfl⟩
            obtain rfl := hplace movie' actor' hadds
            have hout := hadds.outside
            rw [hcast, hc] at hout
            simp at hout
          | false =>
            by_cases hten : m.actors.length < 10
            · have hadds : Adds fold b movieName firstName lastName movie actor :=
                ⟨ha, hm, hcast ▸ hc, hcast ▸ hten⟩
              have hroom := h.filmography_length (List.getElem?_eq_some_iff.mp hmget).1 hadds.absent
              have hfilm : b.filmography actor = a.movies := by simp [filmography, haget]
              rw [hfilm] at hroom
              refine .inl ⟨movie, actor, hadds, ?_⟩
              simp [Action.bind_run, movieAddActor, hmget, hten, actorAddMovie, haget, hroom,
                Action.pure_run]
            · refine .inr ⟨fun movie' actor' hadds => ?_, ?_, ?_⟩
              · obtain rfl := hplace movie' actor' hadds
                exact hten (hcast ▸ hadds.room)
              · simp [Action.bind_run, movieAddActor, hmget, hten]
              · simp [Action.bind_run, movieAddActor, hmget, hten]

theorem adds_iff (h : Consistent fold b) :
    Adds fold b movieName firstName lastName movie actor ↔
      Castable fold b movieName firstName lastName movie actor ∧
        Free fold b firstName lastName movie actor := by
  constructor
  · intro hadds
    obtain ⟨⟨a, ha, hnamed⟩, hbefore⟩ := search_some_iff.mp hadds.foundActor
    obtain ⟨⟨m, hm, htitled⟩, hbefore'⟩ := search_some_iff.mp hadds.foundMovie
    obtain ⟨hf, hl, hfn, hln⟩ := named_true_iff.mp hnamed
    obtain ⟨ht, htn⟩ := titled_true_iff.mp htitled
    refine ⟨⟨⟨m, hm, ht⟩, ⟨a, ha, hf, hl⟩, hadds.absent⟩, ⟨?_, ?_, hadds.room, ?_⟩⟩
    · intro i hi n hn
      rcases Nat.lt_or_eq_of_le hi with hlt | rfl
      · exact (titled_false_iff.mp (hbefore' i hlt n hn)).2
      · obtain rfl : m = n := Option.some.inj (hm.symm.trans hn)
        exact htn
    · intro i hi c hc
      rcases Nat.lt_or_eq_of_le hi with hlt | rfl
      · exact (named_false_iff.mp (hbefore i hlt c hc)).2
      · obtain rfl : a = c := Option.some.inj (ha.symm.trans hc)
        exact ⟨hfn, fun _ => hln⟩
    · exact containsActor_false_iff.mp hadds.outside
  · rintro ⟨hcastable, hfree⟩
    obtain ⟨m, hm, ht⟩ := hcastable.title
    obtain ⟨a, ha, hf, hl⟩ := hcastable.names
    refine ⟨search_some_iff.mpr ⟨⟨a, ha, ?_⟩, ?_⟩, search_some_iff.mpr ⟨⟨m, hm, ?_⟩, ?_⟩,
      containsActor_false_iff.mpr hfree.distinct, hfree.room⟩
    · obtain ⟨hfn, hln⟩ := hfree.names actor le_rfl a ha
      exact named_true_iff.mpr ⟨hf, hl, hfn, hln hf⟩
    · intro j hj c hc
      refine named_false_iff.mpr ⟨?_, hfree.names j (by omega) c hc⟩
      rintro ⟨hf', hl'⟩
      exact pairwise_getElem? h.names hj hc ha ⟨hf'.trans hf.symm, hl'.trans hl.symm⟩
    · exact titled_true_iff.mpr ⟨ht, hfree.titles movie le_rfl m hm⟩
    · intro j hj n hn
      refine titled_false_iff.mpr ⟨fun ht' => ?_, hfree.titles j (by omega) n hn⟩
      exact pairwise_getElem? h.titles hj hn hm (ht'.trans ht.symm)

theorem Castable.unique (h : Consistent fold b) {movie' actor' : Nat}
    (hc : Castable fold b movieName firstName lastName movie actor)
    (hc' : Castable fold b movieName firstName lastName movie' actor') :
    movie = movie' ∧ actor = actor' := by
  obtain ⟨m, hm, ht⟩ := hc.title
  obtain ⟨m', hm', ht'⟩ := hc'.title
  obtain ⟨a, ha, hf, hl⟩ := hc.names
  obtain ⟨a', ha', hf', hl'⟩ := hc'.names
  constructor
  · rcases Nat.lt_trichotomy movie movie' with hlt | heq | hlt
    · exact absurd (ht.trans ht'.symm) (pairwise_getElem? h.titles hlt hm hm')
    · exact heq
    · exact absurd (ht'.trans ht.symm) (pairwise_getElem? h.titles hlt hm' hm)
  · rcases Nat.lt_trichotomy actor actor' with hlt | heq | hlt
    · exact absurd ⟨hf.trans hf'.symm, hl.trans hl'.symm⟩ (pairwise_getElem? h.names hlt ha ha')
    · exact heq
    · exact absurd ⟨hf'.trans hf.symm, hl'.trans hl.symm⟩ (pairwise_getElem? h.names hlt ha' ha)

/-- In every base that the calls lead to. -/
theorem addActorToMovie_exact_iff (cs : Charset) (ops : List Op)
    (movieName firstName lastName : Option Text) :
    Exact fold (run fold cs ops) movieName firstName lastName ↔
      ∀ movie actor, Castable fold (run fold cs ops) movieName firstName lastName movie actor →
        Free fold (run fold cs ops) firstName lastName movie actor := by
  have h : Consistent fold (run fold cs ops) := consistent_run cs ops
  rcases addActorToMovie_outcome h movieName firstName lastName with
    ⟨movie, actor, hadds, hyes⟩ | ⟨hno, hnot, hsame⟩
  · obtain ⟨hcastable, hfree⟩ := (adds_iff h).mp hadds
    constructor
    · intro _ movie' actor' hcastable'
      obtain ⟨rfl, rfl⟩ := hcastable.unique h hcastable'
      exact hfree
    · intro _
      exact ⟨⟨fun _ => ⟨movie, actor, hcastable⟩, fun _ => hyes⟩, fun hnot => absurd hyes hnot⟩
  · constructor
    · intro hexact movie actor hcastable
      exact absurd (hexact.succeeds.mpr ⟨movie, actor, hcastable⟩) hnot
    · intro hfree
      refine ⟨⟨fun hyes => absurd hyes hnot, ?_⟩, fun _ => hsame⟩
      rintro ⟨movie, actor, hcastable⟩
      exact absurd ((adds_iff h).mpr ⟨hcastable, hfree movie actor hcastable⟩) (hno movie actor)

def toLowerCase (s : Text) : Text := s.map fun c => if 65 ≤ c.toNat && c.toNat ≤ 90 then c + 32 else c

/-- An actor whose name differs from that of one in the cast by its case alone is not added. -/
theorem addActorToMovie_namesake : ¬Exact toLowerCase
    (run toLowerCase latin1 [.addMovie (ofChars ['M']), .addActor (ofChars ['A']) (ofChars ['B']),
      .addActor (ofChars ['a']) (ofChars ['b']),
      .addActorToMovie (ofChars ['M']) (ofChars ['A']) (ofChars ['B'])])
    (ofChars ['M']) (ofChars ['a']) (ofChars ['b']) := by
  intro h
  have hyes := h.succeeds.mpr ⟨0, 1, ⟨⟨some (ofChars ['M']), [0]⟩, by decide, by decide⟩,
    ⟨⟨some (ofChars ['a']), some (ofChars ['b']), []⟩, by decide, rfl, rfl⟩, by decide⟩
  revert hyes
  decide

end MovieBase

end TcpAndParallel
