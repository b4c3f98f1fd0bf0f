import TcpAndParallel.MovieBaseLinks

namespace TcpAndParallel

open Scanner

namespace MovieBase

def println (sys : Platform) (line : Text) : Text := line ++ lineSeparator sys

def saveMovie (sys : Platform) (m : Movie) : Text :=
  println sys movieMark ++ println sys (text m.name)

def saveActor (sys : Platform) (a : Actor) : Text :=
  println sys actorMark ++ println sys (text a.firstName ++ 32 :: text a.lastName)

def saveName (b : MovieBase) (i : Nat) : Text :=
  match b.actors[i]? with
  | some a => text a.firstName ++ 32 :: text a.lastName ++ [32]
  | none => []

def saveCast (sys : Platform) (b : MovieBase) (m : Movie) : Text :=
  if 0 < m.actors.length then
    println sys castMark ++ println sys (text m.name) ++ println sys (m.actors.flatMap (saveName b))
  else []

/-- What is printed to the file. -/
def saveText (sys : Platform) (b : MovieBase) : Text :=
  println sys [] ++ (b.movies.flatMap (saveMovie sys) ++ (b.actors.flatMap (saveActor sys) ++
    b.movies.flatMap (saveCast sys b)))

def save (sys : Platform) (cs : Charset) (b : MovieBase) : List UInt8 := cs.encode (saveText sys b)

variable {fold : Text → Text} {sys : Platform} {b : MovieBase} {field t s r line rest : Text}

theorem loop_nil : loop fold field [] b = (.ok (), b) := by
  rw [loop, if_pos rfl]

theorem loop_ne (h : t ≠ []) :
    loop fold field t b = (record fold field t >>= fun r => loop fold r.1 r.2) b := by
  rw [loop, if_neg h, Action.bind_run]
  split
  next e b' hr => rw [hr]
  next field' rest b' hr => rw [hr]

/-- `field = scan.nextLine()` and the loop. -/
def proceed (fold : Text → Text) (t : Text) : Action Unit :=
  scanLine t >>= fun r => loop fold r.1 r.2

theorem load_some (cs : Charset) (bytes : List UInt8) :
    load fold cs (some bytes) b = proceed fold (cs.decode bytes) b := rfl

theorem println_append (line rest : Text) :
    println sys line ++ rest = line ++ (lineSeparator sys ++ rest) := by
  simp [println]

theorem scanLine_println (h : Line line) :
    scanLine (println sys line ++ rest) b = (.ok (line, rest), b) := by
  unfold scanLine
  rw [println_append, nextLine_append sys h]

theorem proceed_println (h : Line line) :
    proceed fold (println sys line ++ rest) b = loop fold line rest b := by
  unfold proceed
  rw [Action.bind_run, scanLine_println h]

theorem println_ne : println sys line ++ rest ≠ [] := by
  cases sys <;> simp [println, lineSeparator]

theorem loop_skip (hm : field ≠ movieMark) (ha : field ≠ actorMark) (hc : field ≠ castMark)
    (hne : t ≠ []) : loop fold field t b = proceed fold t b := by
  rw [loop_ne hne]
  unfold record proceed
  rw [if_neg hm, if_neg ha, if_neg hc]

theorem loop_empty (hne : t ≠ []) : loop fold [] t b = proceed fold t b :=
  loop_skip (by decide) (by decide) (by decide) hne

theorem scanToken_append (h : Token s) {c : UInt16} (hc : isWhitespace c = true) :
    scanToken (s ++ c :: rest) b = (.ok (s, c :: rest), b) := by
  unfold scanToken
  rw [next_append h hc]

theorem scanToken_space (h : Token s) {c : UInt16} (hc : isWhitespace c = true) :
    scanToken (32 :: (s ++ c :: rest)) b = (.ok (s, c :: rest), b) := by
  unfold scanToken
  rw [next_space (by decide), next_append h hc]

theorem whitespace_lineSeparator (sys : Platform) : ∃ c tail, lineSeparator sys = c :: tail ∧
    isWhitespace c = true := by
  cases sys with
  | unix => exact ⟨_, _, rfl, by decide⟩
  | windows => exact ⟨_, _, rfl, by decide⟩

theorem proceed_movie (ht : Line t) :
    proceed fold (println sys movieMark ++ (println sys t ++ rest)) b =
      (addMovie fold (some t) >>= fun _ => proceed fold rest) b := by
  rw [proceed_println (by decide), loop_ne println_ne]
  unfold record
  rw [if_pos rfl, Action.bind_assoc, Action.bind_of_ok (scanLine_println ht), Action.bind_assoc]
  rfl

theorem proceed_actor (hs : Token s) (ht : Token t) :
    proceed fold (println sys actorMark ++ (println sys (s ++ 32 :: t) ++ rest)) b =
      (addActor (some s) (some t) >>= fun _ => loop fold [] rest) b := by
  obtain ⟨c, tail, hsep, hc⟩ := whitespace_lineSeparator sys
  have hline : println sys (s ++ 32 :: t) ++ rest = s ++ 32 :: (t ++ c :: (tail ++ rest)) := by
    simp [println, hsep]
  have hend : c :: (tail ++ rest) = println sys [] ++ rest := by simp [println, hsep]
  have hback : proceed fold (println sys [] ++ rest) = loop fold [] rest := by
    funext b
    exact proceed_println (by decide)
  rw [proceed_println (by decide), loop_ne println_ne]
  unfold record
  rw [if_neg (by decide), if_pos rfl, hline]
  rw [Action.bind_assoc, Action.bind_of_ok (scanToken_append hs (by decide))]
  rw [Action.bind_assoc, Action.bind_of_ok (scanToken_space ht hc), Action.bind_assoc, hend, ← hback]
  rfl

/-- Only the first name of the line is read; the rest of it is the next field. -/
theorem proceed_cast (hr : Line r) (hs : Token s) (ht : Token t) (hline : Line line) :
    proceed fold (println sys castMark ++ (println sys r ++
      (println sys (s ++ 32 :: (t ++ 32 :: line)) ++ rest))) b =
      (addActorToMovie fold (some r) (some s) (some t) >>= fun _ =>
        loop fold (32 :: line) rest) b := by
  have hnames : println sys (s ++ 32 :: (t ++ 32 :: line)) ++ rest =
      s ++ 32 :: (t ++ 32 :: (println sys line ++ rest)) := by
    simp [println]
  have hend : 32 :: (println sys line ++ rest) = println sys (32 :: line) ++ rest := by
    simp [println]
  have hline' : Line (32 :: line) := by
    intro c hc
    rcases List.mem_cons.mp hc with rfl | hc
    · decide
    · exact hline c hc
  have hback : proceed fold (println sys (32 :: line) ++ rest) = loop fold (32 :: line) rest := by
    funext b
    exact proceed_println hline'
  rw [proceed_println (by decide), loop_ne println_ne]
  unfold record
  rw [if_neg (by decide), if_neg (by decide), if_pos rfl]
  rw [Action.bind_assoc, Action.bind_of_ok (scanLine_println hr), hnames]
  rw [Action.bind_assoc, Action.bind_of_ok (scanToken_append hs (by decide))]
  rw [Action.bind_assoc, Action.bind_of_ok (scanToken_space ht (by decide)), Action.bind_assoc,
    hend, ← hback]
  rfl

/-- What can be read back: titles in one line, and names without white space. -/
structure Readable (b : MovieBase) : Prop where
  titles : ∀ m ∈ b.movies, ∃ t, m.name = some t ∧ Line t
  names : ∀ a ∈ b.actors, ∃ s t, a.firstName = some s ∧ a.lastName = some t ∧ Token s ∧ Token t

def bareMovie (m : Movie) : Movie := { m with actors := [] }

def bareActor (a : Actor) : Actor := { a with movies := [] }

theorem addMovie_ok {movie : Option Text} (hno : ∀ m ∈ b.movies, titled fold movie m = .ok false)
    (hlen : b.movies.length < 100) :
    addMovie fold movie b = (.ok (), { b with movies := b.movies ++ [⟨movie, []⟩] }) := by
  have hsearch : findMovie fold movie b = (.ok none, b) := by
    unfold findMovie
    rw [search_none_iff.mpr hno]
  unfold addMovie
  rw [Action.bind_of_ok hsearch]
  simp [hlen]

theorem addActor_ok {firstName lastName : Option Text}
    (hno : ∀ a ∈ b.actors, named firstName lastName a = .ok false) (hlen : b.actors.length < 100) :
    addActor firstName lastName b =
      (.ok (), { b with actors := b.actors ++ [⟨firstName, lastName, []⟩] }) := by
  have hsearch : findActor firstName lastName b = (.ok none, b) := by
    unfold findActor
    rw [search_none_iff.mpr hno]
  unfold addActor
  rw [Action.bind_of_ok hsearch]
  simp [hlen]

theorem Readable.titled_of_ne (hr : Readable b) {m n : Movie} (hm : m ∈ b.movies)
    (hne : ¬SameTitle fold m n) : titled fold n.name m = .ok false := by
  obtain ⟨t, ht, -⟩ := hr.titles m hm
  unfold SameTitle at hne
  unfold titled
  rw [ht] at hne ⊢
  cases hn : n.name with
  | none => rfl
  | some u => simpa [hn, equalsIgnoreCase] using hne

theorem Readable.named_of_ne (hr : Readable b) {a c : Actor} (ha : a ∈ b.actors)
    (hne : ¬SameName a c) : named c.firstName c.lastName a = .ok false := by
  obtain ⟨s, t, hs, ht, -, -⟩ := hr.names a ha
  unfold SameName at hne
  unfold named
  rw [hs, ht] at hne
  rw [hs]
  simp only [ht]
  split
  next he => simpa using fun hl => hne ⟨he, hl⟩
  next => rfl

theorem read_movies (hb : Consistent fold b) (hr : Readable b) {done todo : List Movie}
    (he : b.movies = done ++ todo) :
    proceed fold (todo.flatMap (saveMovie sys) ++ rest) ⟨done.map bareMovie, []⟩ =
      proceed fold rest ⟨b.movies.map bareMovie, []⟩ := by
  induction todo generalizing done with
  | nil => simp [he]
  | cons m todo ih =>
    obtain ⟨t, ht, hline⟩ := hr.titles m (by simp [he])
    have htext : (m :: todo).flatMap (saveMovie sys) ++ rest =
        println sys movieMark ++ (println sys t ++ (todo.flatMap (saveMovie sys) ++ rest)) := by
      simp [saveMovie, ht, text]
    have hno : ∀ n ∈ done.map bareMovie, titled fold m.name n = .ok false := by
      intro n hn
      obtain ⟨k, hk, rfl⟩ := List.mem_map.mp hn
      have hpair := hb.titles
      rw [he] at hpair
      exact hr.titled_of_ne (m := k) (by simp [he, hk])
        ((List.pairwise_append.mp hpair).2.2 k hk m List.mem_cons_self)
    have hlen : (done.map bareMovie).length < 100 := by
      have hcap := hb.movieCapacity
      rw [he, List.length_append, List.length_cons] at hcap
      rw [List.length_map]
      omega
    rw [htext, proceed_movie hline, ← ht]
    rw [Action.bind_of_ok (addMovie_ok (b := ⟨done.map bareMovie, []⟩) hno hlen)]
    have hnext := @ih (done ++ [m]) (by simp [he])
    simpa [bareMovie] using hnext

theorem read_actors (hb : Consistent fold b) (hr : Readable b) {ms : List Movie}
    {done todo : List Actor} (he : b.actors = done ++ todo) :
    loop fold [] (todo.flatMap (saveActor sys) ++ rest) ⟨ms, done.map bareActor⟩ =
      loop fold [] rest ⟨ms, b.actors.map bareActor⟩ := by
  induction todo generalizing done with
  | nil => simp [he]
  | cons a todo ih =>
    obtain ⟨s, t, hs, ht, hsn, htn⟩ := hr.names a (by simp [he])
    have htext : (a :: todo).flatMap (saveActor sys) ++ rest = println sys actorMark ++
        (println sys (s ++ 32 :: t) ++ (todo.flatMap (saveActor sys) ++ rest)) := by
      simp [saveActor, hs, ht, text]
    have hno : ∀ c ∈ done.map bareActor, named a.firstName a.lastName c = .ok false := by
      intro c hc
      obtain ⟨k, hk, rfl⟩ := List.mem_map.mp hc
      have hpair := hb.names
      rw [he] at hpair
      exact hr.named_of_ne (a := k) (by simp [he, hk])
        ((List.pairwise_append.mp hpair).2.2 k hk a List.mem_cons_self)
    have hlen : (done.map bareActor).length < 100 := by
      have hcap := hb.actorCapacity
      rw [he, List.length_append, List.length_cons] at hcap
      rw [List.length_map]
      omega
    rw [htext, loop_empty println_ne, proceed_actor hsn htn, ← hs, ← ht]
    rw [Action.bind_of_ok (addActor_ok (b := ⟨ms, done.map bareActor⟩) hno hlen)]
    have hnext := @ih (done ++ [a]) (by simp [he])
    simpa [bareActor] using hnext

def bare (b : MovieBase) : MovieBase := ⟨b.movies.map bareMovie, b.actors.map bareActor⟩

/-- The titles and the names are read back, if there are names behind the titles. -/
theorem proceed_save (hb : Consistent fold b) (hr : Readable b)
    (named : b.movies = [] ∨ b.actors ≠ []) :
    proceed fold (saveText sys b) new =
      loop fold [] (b.movies.flatMap (saveCast sys b)) b.bare := by
  have hactors := @read_actors fold sys b (b.movies.flatMap (saveCast sys b)) hb hr
    (b.movies.map bareMovie) [] b.actors rfl
  have hmovies := @read_movies fold sys b
    (b.actors.flatMap (saveActor sys) ++ b.movies.flatMap (saveCast sys b)) hb hr [] b.movies rfl
  unfold saveText
  rw [proceed_println (by decide)]
  unfold bare new
  rw [← hactors]
  by_cases hm : b.movies = []
  · simp [hm]
  · have htext : b.actors.flatMap (saveActor sys) ++ b.movies.flatMap (saveCast sys b) ≠ [] := by
      obtain ⟨a, as, ha⟩ := List.exists_cons_of_ne_nil (named.resolve_left hm)
      intro hnil
      rw [ha] at hnil
      simp [saveActor, println, actorMark, ofChars] at hnil
    have htext' : b.movies.flatMap (saveMovie sys) ++ (b.actors.flatMap (saveActor sys) ++
        b.movies.flatMap (saveCast sys b)) ≠ [] := fun hnil => htext (List.append_eq_nil_iff.mp hnil).2
    simp only [List.map_nil] at hmovies ⊢
    rw [loop_empty htext', hmovies, loop_empty htext]

/-- There is no line for the field that is read behind the last title. -/
theorem proceed_save_unnamed (hb : Consistent fold b) (hr : Readable b) (titles : b.movies ≠ [])
    (nameless : b.actors = []) :
    (proceed fold (saveText sys b) new).1 = .error .noSuchElement := by
  have hcasts : b.movies.flatMap (saveCast sys b) = [] := by
    refine List.flatMap_eq_nil_iff.mpr fun m hm => ?_
    obtain ⟨i, hi⟩ := List.mem_iff_getElem?.mp hm
    have hnil : m.actors = [] := by
      refine List.eq_nil_iff_forall_not_mem.mpr fun a ha => ?_
      have hl := (hb.linked i a).mp (by simpa [cast, hi] using ha)
      simp [filmography, nameless] at hl
    simp [saveCast, hnil]
  have hmovies := @read_movies fold sys b [] hb hr [] b.movies rfl
  have htext : b.movies.flatMap (saveMovie sys) ≠ [] := by
    obtain ⟨m, ms, hm⟩ := List.exists_cons_of_ne_nil titles
    intro hnil
    rw [hm] at hnil
    simp [saveMovie, println, movieMark, ofChars] at hnil
  unfold saveText
  rw [proceed_println (by decide), nameless, hcasts]
  simp only [List.flatMap_nil, List.append_nil, List.map_nil] at hmovies ⊢
  unfold new
  rw [loop_empty htext, hmovies]
  rfl

end MovieBase

end TcpAndParallel
