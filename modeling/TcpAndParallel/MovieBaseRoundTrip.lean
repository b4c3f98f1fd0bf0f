import Mathlib.Data.List.Sort
import TcpAndParallel.MovieBaseWeight

namespace TcpAndParallel

open Scanner

namespace MovieBase

variable {fold : Text → Text} {sys : Platform} {cs : Charset} {maps : Text → Bool}
  {replacement : UInt16} {b : MovieBase} {field s t rest : Text}

theorem search_eq {α : Type} {test : α → Except Throwable Bool} {xs : List α} {i : Nat}
    (hi : i < xs.length) (h : ∀ j x, xs[j]? = some x → test x = .ok (decide (j = i))) :
    search test xs = .ok (some i) := by
  induction xs generalizing i with
  | nil => simp at hi
  | cons x xs ih =>
    have hx := h 0 x rfl
    rw [search_cons, hx]
    cases i with
    | zero => rfl
    | succ i =>
      have htail := @ih i (by simpa using hi) fun j y hy => by simpa using h (j + 1) y hy
      simp [htail, Except.map]

theorem index_of_pairwise {α : Type} {R : α → α → Prop} {xs : List α} {i j : Nat} {x y : α}
    (h : xs.Pairwise fun x y => ¬R x y) (symm : R x y → R y x) (hx : xs[i]? = some x)
    (hy : xs[j]? = some y) (hr : R x y) : i = j := by
  obtain ⟨hi, rfl⟩ := List.getElem?_eq_some_iff.mp hx
  obtain ⟨hj, rfl⟩ := List.getElem?_eq_some_iff.mp hy
  rw [List.pairwise_iff_getElem] at h
  rcases Nat.lt_trichotomy i j with hlt | he | hgt
  · exact absurd hr (h i j hi hj hlt)
  · exact he
  · exact absurd (symm hr) (h j i hj hi hgt)

/-- The base when the casts of the first `k` movies are read. -/
def loaded (b : MovieBase) (k : Nat) : MovieBase where
  movies := b.movies.mapIdx fun i m => if i < k then m else bareMovie m
  actors := b.actors.mapIdx fun i a =>
    { a with movies := (List.range k).filter fun j => i ∈ b.cast j }

theorem loaded_movie (k i : Nat) : (b.loaded k).movies[i]? =
    (b.movies[i]?).map fun m => if i < k then m else bareMovie m :=
  List.getElem?_mapIdx

theorem loaded_actor (k i : Nat) : (b.loaded k).actors[i]? =
    (b.actors[i]?).map fun a => { a with movies := (List.range k).filter fun j => i ∈ b.cast j } :=
  List.getElem?_mapIdx

theorem ext_places {c : MovieBase} (hm : ∀ i : Nat, b.movies[i]? = c.movies[i]?)
    (ha : ∀ i : Nat, b.actors[i]? = c.actors[i]?) : b = c := by
  cases b
  cases c
  rw [mk.injEq]
  exact ⟨List.ext_getElem? hm, List.ext_getElem? ha⟩

theorem loaded_zero : b.loaded 0 = b.bare := by
  apply ext_places
  · intro i
    rw [loaded_movie]
    simp [bare]
  · intro i
    rw [loaded_actor]
    simp [bare]
    rfl

theorem loaded_succ_nil {k : Nat} {m : Movie} (hm : b.movies[k]? = some m) (hnil : m.actors = []) :
    b.loaded (k + 1) = b.loaded k := by
  have hcast : b.cast k = [] := by simp [cast, hm, hnil]
  apply ext_places
  · intro i
    rw [loaded_movie, loaded_movie]
    by_cases hi : i = k
    · subst hi
      simp [hm, bareMovie, ← hnil]
    · have hlt : i < k + 1 ↔ i < k := by omega
      simp only [hlt]
  · intro i
    rw [loaded_actor, loaded_actor]
    simp [List.range_succ, List.filter_append, hcast]

theorem loaded_succ_link {k a : Nat} {m : Movie} (hm : b.movies[k]? = some m)
    (hone : m.actors = [a]) : (b.loaded k).link k a = b.loaded (k + 1) := by
  have hcast : b.cast k = [a] := by simp [cast, hm, hone]
  apply ext_places
  · intro i
    unfold link
    simp only [List.getElem?_modify]
    rw [loaded_movie, loaded_movie]
    by_cases hi : i = k
    · subst hi
      simp [hm, bareMovie, ← hone]
    · have hlt : i < k + 1 ↔ i < k := by omega
      have hne : ¬k = i := fun he => hi he.symm
      simp [hlt, hne]
  · intro i
    unfold link
    simp only [List.getElem?_modify]
    rw [loaded_actor, loaded_actor]
    by_cases hi : i = a
    · subst hi
      simp [List.range_succ, List.filter_append, hcast, Function.comp_def]
    · have hne : ¬a = i := fun he => hi he.symm
      simp [List.range_succ, List.filter_append, hcast, hi, hne]

theorem findActor_loaded (hb : Consistent fold b) (hr : Readable b) {k i : Nat} {a : Actor}
    (ha : b.actors[i]? = some a) :
    findActor a.firstName a.lastName (b.loaded k) = (.ok (some i), b.loaded k) := by
  have hsearch : search (named a.firstName a.lastName) (b.loaded k).actors = .ok (some i) := by
    apply search_eq
    · simpa [loaded] using (List.getElem?_eq_some_iff.mp ha).1
    · intro j y hy
      rw [loaded_actor] at hy
      obtain ⟨x, hx, rfl⟩ := Option.map_eq_some_iff.mp hy
      have hmem := List.mem_of_getElem? hx
      change named a.firstName a.lastName x = _
      by_cases hj : j = i
      · subst hj
        obtain rfl : x = a := Option.some.inj (hx.symm.trans ha)
        obtain ⟨s, t, hs, ht, -, -⟩ := hr.names x hmem
        simp [named, hs, ht]
      · rw [hr.named_of_ne hmem fun hsame => hj (index_of_pairwise (R := SameName) hb.names
          (fun h => ⟨h.1.symm, h.2.symm⟩) hx ha hsame)]
        simp [hj]
  unfold findActor
  rw [hsearch]

theorem findMovie_loaded (hb : Consistent fold b) (hr : Readable b) {k i : Nat} {m : Movie}
    (hm : b.movies[i]? = some m) :
    findMovie fold m.name (b.loaded k) = (.ok (some i), b.loaded k) := by
  have hsearch : search (titled fold m.name) (b.loaded k).movies = .ok (some i) := by
    apply search_eq
    · simpa [loaded] using (List.getElem?_eq_some_iff.mp hm).1
    · intro j y hy
      rw [loaded_movie] at hy
      obtain ⟨x, hx, rfl⟩ := Option.map_eq_some_iff.mp hy
      have hmem := List.mem_of_getElem? hx
      have hname : titled fold m.name (if j < k then x else bareMovie x) = titled fold m.name x := by
        split <;> rfl
      rw [hname]
      by_cases hj : j = i
      · subst hj
        obtain rfl : x = m := Option.some.inj (hx.symm.trans hm)
        obtain ⟨t, ht, -⟩ := hr.titles x hmem
        simp [titled, ht, equalsIgnoreCase]
      · rw [hr.titled_of_ne hmem fun hsame => hj (index_of_pairwise (R := SameTitle fold) hb.titles
          (fun h => h.symm) hx hm hsame)]
        simp [hj]
  unfold findMovie
  rw [hsearch]

theorem addActorToMovie_loaded (hb : Consistent fold b) (hr : Readable b) {k i : Nat} {m : Movie}
    {a : Actor} (hm : b.movies[k]? = some m) (ha : b.actors[i]? = some a) :
    addActorToMovie fold m.name a.firstName a.lastName (b.loaded k) =
      (.ok true, (b.loaded k).link k i) := by
  have hk := (List.getElem?_eq_some_iff.mp hm).1
  have hcap := hb.movieCapacity
  have hactor := findActor_loaded (k := k) hb hr ha
  have hmovie := findMovie_loaded (k := k) hb hr hm
  have hbare : (b.loaded k).movies[k]? = some (bareMovie m) := by simp [loaded_movie, hm]
  have hfilm : ((List.range k).filter fun j => i ∈ b.cast j).length < 100 := by
    have hle := List.length_filter_le (fun j => decide (i ∈ b.cast j)) (List.range k)
    rw [List.length_range] at hle
    omega
  have hcast : isInCast fold m.name a.firstName a.lastName (b.loaded k) =
      (.ok false, b.loaded k) := by
    unfold isInCast
    rw [Action.bind_of_ok hmovie]
    simp [hbare, bareMovie, containsActor]
  have hfirst : movieAddActor k i (b.loaded k) = (.ok (), { b.loaded k with
      movies := (b.loaded k).movies.modify k fun m => { m with actors := m.actors ++ [i] } }) := by
    unfold movieAddActor
    simp [hbare, bareMovie]
  have hsecond : actorAddMovie i k { b.loaded k with
      movies := (b.loaded k).movies.modify k fun m => { m with actors := m.actors ++ [i] } } =
      (.ok (), (b.loaded k).link k i) := by
    unfold actorAddMovie
    simp [loaded_actor, ha, hfilm, link]
  unfold addActorToMovie
  rw [Action.bind_of_ok hactor]
  simp only
  rw [Action.bind_of_ok hmovie]
  simp only
  rw [Action.bind_of_ok hcast, if_neg (by decide), Action.bind_of_ok hfirst,
    Action.bind_of_ok hsecond]
  rfl

theorem read_casts (hb : Consistent fold b) (hr : Readable b)
    (single : ∀ m ∈ b.movies, m.actors.length ≤ 1) {done todo : List Movie}
    (he : b.movies = done ++ todo) (hf : field = [] ∨ field = [32]) :
    loop fold field (todo.flatMap (saveCast sys b)) (b.loaded done.length) =
      (.ok (), b.loaded b.movies.length) := by
  induction todo generalizing done field with
  | nil =>
    rw [List.flatMap_nil, loop_nil]
    simp [he]
  | cons m todo ih =>
    have hm : b.movies[done.length]? = some m := by simp [he]
    have hmem : m ∈ b.movies := by simp [he]
    have hnext := fun f hf => @ih f (done ++ [m]) (by simp [he]) hf
    rw [List.length_append, List.length_singleton] at hnext
    rw [List.flatMap_cons]
    rcases hactors : m.actors with _ | ⟨i, rest⟩
    · rw [← loaded_succ_nil hm hactors]
      simpa [saveCast, hactors] using hnext field hf
    · obtain rfl : rest = [] := by
        have hlen := single m hmem
        rw [hactors] at hlen
        simpa using hlen
      obtain ⟨a, ha⟩ : ∃ a, b.actors[i]? = some a :=
        ⟨_, List.getElem?_eq_getElem (hb.actor_lt hmem (by simp [hactors]))⟩
      obtain ⟨t, ht, hline⟩ := hr.titles m hmem
      obtain ⟨s, r, hs, hlast, hsn, hrn⟩ := hr.names a (List.mem_of_getElem? ha)
      have htext : saveCast sys b m ++ todo.flatMap (saveCast sys b) =
          println sys castMark ++ (println sys t ++ (println sys (s ++ 32 :: (r ++ 32 :: [])) ++
            todo.flatMap (saveCast sys b))) := by
        simp [saveCast, hactors, saveName, ha, ht, hs, hlast, text]
      have hskip : loop fold field (println sys castMark ++ (println sys t ++
          (println sys (s ++ 32 :: (r ++ 32 :: [])) ++ todo.flatMap (saveCast sys b))))
          (b.loaded done.length) = proceed fold (println sys castMark ++ (println sys t ++
          (println sys (s ++ 32 :: (r ++ 32 :: [])) ++ todo.flatMap (saveCast sys b))))
          (b.loaded done.length) := by
        rcases hf with rfl | rfl
        · exact loop_empty println_ne
        · exact loop_skip (by decide) (by decide) (by decide) println_ne
      rw [htext, hskip, proceed_cast hline hsn hrn (by decide), ← ht, ← hs, ← hlast,
        Action.bind_of_ok (addActorToMovie_loaded hb hr hm ha), loaded_succ_link hm hactors]
      exact hnext [32] (.inr rfl)

theorem loaded_eq_iff (hb : Consistent fold b) :
    b.loaded b.movies.length = b ↔ ∀ a ∈ b.actors, a.movies.Pairwise (· < ·) := by
  constructor
  · intro h a ha
    obtain ⟨i, hi⟩ := List.mem_iff_getElem?.mp ha
    have hloaded := @loaded_actor b b.movies.length i
    rw [h, hi] at hloaded
    have hmovies := congrArg Actor.movies (Option.some.inj hloaded)
    rw [hmovies]
    exact List.pairwise_lt_range.filter _
  · intro h
    apply ext_places
    · intro i
      rw [loaded_movie]
      cases hi : b.movies[i]? with
      | none => rfl
      | some m =>
        have hlt := (List.getElem?_eq_some_iff.mp hi).1
        simp [hlt]
    · intro i
      rw [loaded_actor]
      cases hi : b.actors[i]? with
      | none => rfl
      | some a =>
        have hsame : (List.range b.movies.length).filter (fun j => i ∈ b.cast j) = a.movies := by
          apply List.Pairwise.eq_of_mem_iff (r := (· < ·)) (List.pairwise_lt_range.filter _)
            (h a (List.mem_of_getElem? hi))
          intro j
          have hl := hb.linked j i
          have hfilm : b.filmography i = a.movies := by simp [filmography, hi]
          rw [hfilm] at hl
          rw [List.mem_filter, List.mem_range, ← hl]
          constructor
          · intro hj
            simpa using hj.2
          · intro hj
            exact ⟨mem_cast_lt hj, by simpa using hj⟩
        simp [hsame]

def AllStrings (P : Text → Prop) (b : MovieBase) : Prop :=
  (∀ m ∈ b.movies, ∀ t ∈ m.name, P t) ∧
    ∀ a ∈ b.actors, (∀ s ∈ a.firstName, P s) ∧ ∀ t ∈ a.lastName, P t

/-- What a file can hold of a base. -/
structure Storable (cs : Charset) (b : MovieBase) : Prop extends Readable b where
  named : b.movies = [] ∨ b.actors ≠ []
  single : ∀ m ∈ b.movies, m.actors.length ≤ 1
  ordered : ∀ a ∈ b.actors, a.movies.Pairwise (· < ·)
  encodable : AllStrings (fun t => cs.decode (cs.encode t) = t) b

theorem Readable.link (hr : Readable b) (movie actor : Nat) : Readable (b.link movie actor) := by
  constructor
  · intro m hm
    obtain ⟨i, hi⟩ := List.mem_iff_getElem?.mp hm
    unfold MovieBase.link at hi
    simp only [List.getElem?_modify] at hi
    obtain ⟨n, hn, rfl⟩ := Option.map_eq_some_iff.mp hi
    obtain ⟨t, ht⟩ := hr.titles n (List.mem_of_getElem? hn)
    exact ⟨t, by split <;> exact ht⟩
  · intro a ha
    obtain ⟨i, hi⟩ := List.mem_iff_getElem?.mp ha
    unfold MovieBase.link at hi
    simp only [List.getElem?_modify] at hi
    obtain ⟨c, hc, rfl⟩ := Option.map_eq_some_iff.mp hi
    obtain ⟨s, t, hst⟩ := hr.names c (List.mem_of_getElem? hc)
    exact ⟨s, t, by split <;> exact hst⟩

theorem AllStrings.link {P : Text → Prop} (h : AllStrings P b) (movie actor : Nat) :
    AllStrings P (b.link movie actor) := by
  constructor
  · intro m hm
    obtain ⟨i, hi⟩ := List.mem_iff_getElem?.mp hm
    unfold MovieBase.link at hi
    simp only [List.getElem?_modify] at hi
    obtain ⟨n, hn, rfl⟩ := Option.map_eq_some_iff.mp hi
    have hname := h.1 n (List.mem_of_getElem? hn)
    split <;> exact hname
  · intro a ha
    obtain ⟨i, hi⟩ := List.mem_iff_getElem?.mp ha
    unfold MovieBase.link at hi
    simp only [List.getElem?_modify] at hi
    obtain ⟨c, hc, rfl⟩ := Option.map_eq_some_iff.mp hi
    have hnames := h.2 c (List.mem_of_getElem? hc)
    split <;> exact hnames

theorem Readable.addMovie (hr : Readable b) (ht : Line t) :
    Readable (addMovie fold (some t) b).2 := by
  obtain he | ⟨-, -, he⟩ := addMovie_cases fold (some t) b
  · rwa [he]
  · rw [he]
    refine ⟨fun m hm => ?_, hr.names⟩
    rcases List.mem_append.mp hm with hm | hm
    · exact hr.titles m hm
    · obtain rfl : m = ⟨some t, []⟩ := by simpa using hm
      exact ⟨t, rfl, ht⟩

theorem AllStrings.addMovie {P : Text → Prop} (h : AllStrings P b) (ht : P t) :
    AllStrings P (addMovie fold (some t) b).2 := by
  obtain he | ⟨-, -, he⟩ := addMovie_cases fold (some t) b
  · rwa [he]
  · rw [he]
    refine ⟨fun m hm => ?_, h.2⟩
    rcases List.mem_append.mp hm with hm | hm
    · exact h.1 m hm
    · obtain rfl : m = ⟨some t, []⟩ := by simpa using hm
      simpa using ht

theorem Readable.addActor (hr : Readable b) (hs : Token s) (ht : Token t) :
    Readable (addActor (some s) (some t) b).2 := by
  obtain he | ⟨-, -, he⟩ := addActor_cases (some s) (some t) b
  · rwa [he]
  · rw [he]
    refine ⟨hr.titles, fun a ha => ?_⟩
    rcases List.mem_append.mp ha with ha | ha
    · exact hr.names a ha
    · obtain rfl : a = ⟨some s, some t, []⟩ := by simpa using ha
      exact ⟨s, t, rfl, rfl, hs, ht⟩

theorem AllStrings.addActor {P : Text → Prop} (h : AllStrings P b) (hs : P s) (ht : P t) :
    AllStrings P (addActor (some s) (some t) b).2 := by
  obtain he | ⟨-, -, he⟩ := addActor_cases (some s) (some t) b
  · rwa [he]
  · rw [he]
    refine ⟨h.1, fun a ha => ?_⟩
    rcases List.mem_append.mp ha with ha | ha
    · exact h.2 a ha
    · obtain rfl : a = ⟨some s, some t, []⟩ := by simpa using ha
      exact ⟨by simpa using hs, by simpa using ht⟩

theorem Readable.addActorToMovie (hr : Readable b) (hb : Consistent fold b)
    (movieName firstName lastName : Option Text) :
    Readable (addActorToMovie fold movieName firstName lastName b).2 := by
  obtain he | ⟨movie, actor, a, hmovie, ha, -, -, hnot, he⟩ :=
    addActorToMovie_cases fold movieName firstName lastName b
  · rwa [he]
  · rw [he (hb.filmography_length hmovie hnot)]
    exact hr.link movie actor

theorem AllStrings.addActorToMovie {P : Text → Prop} (h : AllStrings P b) (hb : Consistent fold b)
    (movieName firstName lastName : Option Text) :
    AllStrings P (addActorToMovie fold movieName firstName lastName b).2 := by
  obtain he | ⟨movie, actor, a, hmovie, ha, -, -, hnot, he⟩ :=
    addActorToMovie_cases fold movieName firstName lastName b
  · rwa [he]
  · rw [he (hb.filmography_length hmovie hnot)]
    exact h.link movie actor

/-- Whatever is in a file, it is read as titles in one line and names without white space; and what
holds of each piece of it holds of the strings of the base. -/
theorem readable_proceed (fold : Text → Text) {T : Text → Prop}
    (reads : ∀ {text piece rest}, Reads text piece rest → T text → T piece ∧ T rest) (ht : T t) :
    Readable (proceed fold t new).2 ∧ AllStrings T (proceed fold t new).2 := by
  have hkeeps : Action.Keeps (fun b => Consistent fold b ∧ Readable b ∧ AllStrings T b)
      (proceed fold t) := by
    refine (scanLine_keeps t).bind fun r _ _ h => ?_
    exact loop_keeps reads
      (fun t hline ht b hb => ⟨hb.1.addMovie _, hb.2.1.addMovie hline, hb.2.2.addMovie ht⟩)
      (fun s t htoken htoken' hs ht b hb =>
        ⟨hb.1.addActor _ _, hb.2.1.addActor htoken htoken', hb.2.2.addActor hs ht⟩)
      (fun r s t b hb => ⟨hb.1.addActorToMovie _ _ _, hb.2.1.addActorToMovie hb.1 _ _ _,
        hb.2.2.addActorToMovie hb.1 _ _ _⟩)
      r.1 (reads (.inl (scanLine_ok h).1) ht).2
  exact (hkeeps new ⟨consistent_new, ⟨by simp [new], by simp [new]⟩,
    ⟨by simp [new], by simp [new]⟩⟩).2

theorem weight_bare : weight b.bare = 0 := by
  unfold weight bare bareMovie
  simp [Function.comp_def]

theorem cast_bare (i : Nat) : b.bare.cast i = [] := by
  unfold cast bare bareMovie
  cases h : b.movies[i]? <;> simp [h]

theorem filmography_bare (i : Nat) : b.bare.filmography i = [] := by
  unfold filmography bare bareActor
  cases h : b.actors[i]? <;> simp [h]

theorem Consistent.bare (hb : Consistent fold b) : Consistent fold b.bare := by
  refine ⟨⟨?_, ?_, ?_, ?_, ?_⟩, ?_, ?_⟩
  · intro i j
    simp [cast_bare, filmography_bare]
  · intro i
    simp [cast_bare]
  · intro i
    simp [filmography_bare]
  · exact List.pairwise_map.mpr hb.titles
  · exact List.pairwise_map.mpr hb.names
  · simpa [MovieBase.bare] using hb.movieCapacity
  · simpa [MovieBase.bare] using hb.actorCapacity

theorem storable_of_proceed (hb : Consistent fold b)
    (h : proceed fold (saveText sys b) new = (.ok (), b)) :
    Readable b ∧ (b.movies = [] ∨ b.actors ≠ []) ∧ (∀ m ∈ b.movies, m.actors.length ≤ 1) ∧
      ∀ a ∈ b.actors, a.movies.Pairwise (· < ·) := by
  have hr : Readable b := by
    have hload := readable_proceed fold (T := fun _ => True) (fun _ _ => ⟨trivial, trivial⟩)
      (t := saveText sys b) trivial
    rw [h] at hload
    exact hload.1
  have named : b.movies = [] ∨ b.actors ≠ [] := by
    by_contra! hno
    have herr := @proceed_save_unnamed fold sys b hb hr hno.1 hno.2
    rw [h] at herr
    simp at herr
  rw [proceed_save hb hr named] at h
  have hweight := loop_weight hb.bare h
  rw [weight_bare] at hweight
  have single := casts_of_weight hb hr (by simpa [credit, castMark, ofChars] using hweight)
  have hloaded := @read_casts fold sys b [] hb hr single [] b.movies rfl (.inl rfl)
  rw [List.length_nil, loaded_zero, h] at hloaded
  obtain ⟨-, heq⟩ := Prod.mk.inj hloaded
  exact ⟨hr, named, single, (loaded_eq_iff hb).mp heq.symm⟩

theorem proceed_of_storable (hb : Consistent fold b) (h : Storable cs b) :
    proceed fold (saveText sys b) new = (.ok (), b) := by
  have hloaded := @read_casts fold sys b [] hb h.toReadable h.single [] b.movies rfl (.inl rfl)
  rw [List.length_nil, loaded_zero, (loaded_eq_iff hb).mpr h.ordered] at hloaded
  rw [proceed_save hb h.toReadable h.named, hloaded]

section Transcode

variable (h : cs.Lawful maps replacement)

include h

theorem mapped_println (hs : Mapped maps replacement s) (hrest : Mapped maps replacement rest) :
    Mapped maps replacement (println sys s ++ rest) := by
  have hlf : Mapped maps replacement (10 :: rest) :=
    (mapped_cons (by decide)).mpr ⟨if_pos (h.ascii 10 (by decide)), hrest⟩
  rw [println_append]
  cases sys with
  | unix => exact (mapped_append (by decide)).mpr ⟨hs, (mapped_cons (by decide)).mp hlf⟩
  | windows =>
    exact (mapped_append (by decide)).mpr ⟨hs, if_pos (h.ascii 13 (by decide)), hlf⟩

theorem mapped_space (hs : Mapped maps replacement s) (ht : Mapped maps replacement t) :
    Mapped maps replacement (s ++ 32 :: t) :=
  (mapped_append (by decide)).mpr ⟨hs, if_pos (h.ascii 32 (by decide)), ht⟩

theorem mapped_ascii (hs : (s.all fun c => c.toNat < 128) = true) : Mapped maps replacement s := by
  induction s with
  | nil => rfl
  | cons c s ih =>
    rw [List.all_cons, Bool.and_eq_true, decide_eq_true_iff] at hs
    obtain ⟨hc, hs⟩ := hs
    have hsingle : NoSurrogate c := by
      simp [NoSurrogate, isHighSurrogate, isLowSurrogate]
      omega
    exact (mapped_cons hsingle).mpr ⟨if_pos (h.ascii c hc), ih hs⟩

theorem mapped_text {name : Option Text} (hname : ∀ t ∈ name, Mapped maps replacement t) :
    Mapped maps replacement (text name) := by
  cases name with
  | none => exact mapped_ascii h rfl
  | some t => exact hname t rfl

omit h in
theorem mapped_flatMap {α : Type} {f : α → Text} {xs : List α}
    (hf : ∀ x ∈ xs, ∀ rest, Mapped maps replacement rest → Mapped maps replacement (f x ++ rest))
    (hrest : Mapped maps replacement rest) : Mapped maps replacement (xs.flatMap f ++ rest) := by
  induction xs with
  | nil => exact hrest
  | cons x xs ih =>
    rw [List.flatMap_cons, List.append_assoc]
    exact hf x List.mem_cons_self _ (ih fun y hy => hf y (List.mem_cons_of_mem x hy))

theorem mapped_names (hb : AllStrings (Mapped maps replacement) b) (is : List Nat) :
    Mapped maps replacement (is.flatMap (saveName b)) := by
  have hnames : Mapped maps replacement (is.flatMap (saveName b) ++ []) :=
    mapped_flatMap (fun i _ rest hrest => ?_) rfl
  · simpa using hnames
  · unfold saveName
    cases ha : b.actors[i]? with
    | none => exact hrest
    | some a =>
      obtain ⟨hfirst, hlast⟩ := hb.2 a (List.mem_of_getElem? ha)
      have hback := mapped_space h (mapped_text h hfirst)
        (mapped_space h (mapped_text h hlast) hrest)
      simpa using hback

theorem mapped_saveText (hb : AllStrings (Mapped maps replacement) b) :
    Mapped maps replacement (saveText sys b) := by
  have hcasts : Mapped maps replacement (b.movies.flatMap (saveCast sys b) ++ []) := by
    refine mapped_flatMap (fun m hm rest hrest => ?_) rfl
    unfold saveCast
    split
    next =>
      rw [List.append_assoc, List.append_assoc]
      exact mapped_println h (mapped_ascii h rfl)
        (mapped_println h (mapped_text h (hb.1 m hm)) (mapped_println h (mapped_names h hb _) hrest))
    next => exact hrest
  rw [List.append_nil] at hcasts
  unfold saveText
  refine mapped_println h rfl (mapped_flatMap (fun m hm rest hrest => ?_)
    (mapped_flatMap (fun a ha rest hrest => ?_) hcasts))
  · unfold saveMovie
    rw [List.append_assoc]
    exact mapped_println h (mapped_ascii h rfl)
      (mapped_println h (mapped_text h (hb.1 m hm)) hrest)
  · obtain ⟨hfirst, hlast⟩ := hb.2 a ha
    unfold saveActor
    rw [List.append_assoc]
    exact mapped_println h (mapped_ascii h rfl)
      (mapped_println h (mapped_space h (mapped_text h hfirst) (mapped_text h hlast)) hrest)

theorem encodable_iff : AllStrings (fun t => cs.decode (cs.encode t) = t) b ↔
    AllStrings (Mapped maps replacement) b := by
  simp only [h.reads_back]
  exact Iff.rfl

/-- What comes out of a file has been read, and is read back again. -/
theorem storable_of_load (hb : Consistent fold b)
    (hload : load fold cs (some (save sys cs b)) new = (.ok (), b)) : Storable cs b := by
  rw [load_some, save, h.reads_back] at hload
  have hread := readable_proceed fold (fun {_ _ _} hr ht => Mapped.reads ht hr)
    (transcode_mapped h.replacement_maps h.replacement_single (saveText sys b))
  rw [hload] at hread
  rw [mapped_saveText h hread.2] at hload
  obtain ⟨hr, named, single, ordered⟩ := storable_of_proceed hb hload
  exact ⟨hr, named, single, ordered, (encodable_iff h).mpr hread.2⟩

theorem load_of_storable (hb : Consistent fold b) (hs : Storable cs b) :
    load fold cs (some (save sys cs b)) new = (.ok (), b) := by
  rw [load_some, save, h.reads_back, mapped_saveText h ((encodable_iff h).mp hs.encodable)]
  exact proceed_of_storable hb hs

/-- A base that is saved is loaded as it was if and only if a file can hold it. -/
theorem round_trip_iff (fold : Text → Text) (sys : Platform) (ops : List Op) :
    load fold cs (some (save sys cs (run fold cs ops))) new = (.ok (), run fold cs ops) ↔
      Storable cs (run fold cs ops) :=
  ⟨storable_of_load h (consistent_run cs ops), load_of_storable h (consistent_run cs ops)⟩

end Transcode

theorem round_trip_latin1 :
    load id latin1 (some (save .windows latin1 (run id latin1 [.addMovie (some [233]),
      .addActor (ofChars ['A']) (ofChars ['B']),
      .addActorToMovie (some [233]) (ofChars ['A']) (ofChars ['B'])]))) new =
    (.ok (), run id latin1 [.addMovie (some [233]), .addActor (ofChars ['A']) (ofChars ['B']),
      .addActorToMovie (some [233]) (ofChars ['A']) (ofChars ['B'])]) := by
  refine (round_trip_iff latin1_lawful id .windows _).mpr ?_
  have hrun : run id latin1 [.addMovie (some [233]), .addActor (ofChars ['A']) (ofChars ['B']),
      .addActorToMovie (some [233]) (ofChars ['A']) (ofChars ['B'])] =
        ⟨[⟨some [233], [0]⟩], [⟨some [65], some [66], [0]⟩]⟩ := by decide
  rw [hrun]
  exact ⟨⟨by simp; decide, by simp; decide⟩, by decide, by decide, by decide,
    ⟨by decide, by decide⟩⟩

/-- The second actor of a cast is not read. -/
theorem second_actor_lost : ∃ ops, (∀ op ∈ ops, ∀ file, op ≠ .load file) ∧
    load id latin1 (some (save .unix latin1 (run id latin1 ops))) new ≠
      (.ok (), run id latin1 ops) := by
  refine ⟨[.addMovie (ofChars ['M']), .addActor (ofChars ['A']) (ofChars ['B']),
    .addActor (ofChars ['C']) (ofChars ['D']),
    .addActorToMovie (ofChars ['M']) (ofChars ['A']) (ofChars ['B']),
    .addActorToMovie (ofChars ['M']) (ofChars ['C']) (ofChars ['D'])], by simp, fun h => ?_⟩
  have hstorable := storable_of_load latin1_lawful (consistent_run _ _) h
  have hsingle := hstorable.single ⟨ofChars ['M'], [0, 1]⟩ (by decide)
  simp at hsingle

end MovieBase

end TcpAndParallel
