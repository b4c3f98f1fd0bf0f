import Mathlib.Logic.Relation
import TcpAndParallel.Charset

namespace TcpAndParallel

open Scanner

/-- A string that may be null is an option. The objects of the cast are named by their places in the
array of the actors. -/
structure Movie where
  name : Option Text
  actors : List Nat
  deriving DecidableEq

structure Actor where
  firstName : Option Text
  lastName : Option Text
  movies : List Nat
  deriving DecidableEq

structure MovieBase where
  movies : List Movie
  actors : List Actor
  deriving DecidableEq

inductive Throwable
  | nullPointer
  | arrayIndexOutOfBounds
  | noSuchElement
  | fileNotFound
  deriving DecidableEq

/-- A method; what it did before it throws is done. -/
def Action (α : Type) := MovieBase → Except Throwable α × MovieBase

namespace Action

variable {α β : Type}

instance : Monad Action where
  pure x := fun b => (.ok x, b)
  bind a f := fun b =>
    match a b with
    | (.ok x, b) => f x b
    | (.error e, b) => (.error e, b)

theorem pure_run (x : α) (b : MovieBase) : (pure x : Action α) b = (.ok x, b) := rfl

theorem bind_run (a : Action α) (f : α → Action β) (b : MovieBase) :
    (a >>= f) b =
      match a b with
      | (.ok x, b) => f x b
      | (.error e, b) => (.error e, b) := rfl

theorem bind_of_ok {a : Action α} {f : α → Action β} {b b' : MovieBase} {x : α}
    (h : a b = (.ok x, b')) : (a >>= f) b = f x b' := by
  rw [bind_run, h]

theorem bind_assoc {γ : Type} (a : Action α) (f : α → Action β) (g : β → Action γ) :
    (a >>= f) >>= g = a >>= fun x => f x >>= g := by
  funext b
  simp only [bind_run]
  cases a b with
  | mk result b' => cases result <;> rfl

theorem bind_ok {a : Action α} {f : α → Action β} {b b' : MovieBase} {y : β}
    (h : (a >>= f) b = (.ok y, b')) :
    ∃ x b₁, a b = (.ok x, b₁) ∧ f x b₁ = (.ok y, b') := by
  rw [bind_run] at h
  split at h
  next x b₁ ha => exact ⟨x, b₁, ha, h⟩
  next => simp at h

/-- An invariant that holds after the method too, whether it returns or throws. -/
def Keeps (I : MovieBase → Prop) (a : Action α) : Prop := ∀ b, I b → I (a b).2

theorem keeps_pure {I : MovieBase → Prop} (x : α) : Keeps I (pure x : Action α) := fun _ h => h

theorem Keeps.bind {I : MovieBase → Prop} {a : Action α} {f : α → Action β} (ha : Keeps I a)
    (hf : ∀ x b b₁, a b = (.ok x, b₁) → Keeps I (f x)) : Keeps I (a >>= f) := by
  intro b hb
  have hab := ha b hb
  rw [bind_run]
  split
  next x b₁ he => exact hf x b b₁ he b₁ (by simpa [he] using hab)
  next e b₁ he => simpa [he] using hab

end Action

namespace MovieBase

variable (fold : Text → Text)

def new : MovieBase := ⟨[], []⟩

/-- A string as it is printed or joined to others. -/
def text : Option Text → Text
  | some s => s
  | none => ofChars ['n', 'u', 'l', 'l']

/-- Two strings are the same in this comparison if the library folds them to the same one. -/
def equalsIgnoreCase (s t : Text) : Bool := fold s = fold t

/-- A loop through an array that returns at the first element for which the test holds. -/
def search {α : Type} (test : α → Except Throwable Bool) : List α → Except Throwable (Option Nat)
  | [] => .ok none
  | x :: xs =>
    match test x with
    | .error e => .error e
    | .ok true => .ok (some 0)
    | .ok false => (search test xs).map (Option.map (· + 1))

def named (firstName lastName : Option Text) (actor : Actor) : Except Throwable Bool :=
  match actor.firstName with
  | none => .error .nullPointer
  | some first =>
    if some first = firstName then
      match actor.lastName with
      | none => .error .nullPointer
      | some last => .ok (some last = lastName)
    else .ok false

def titled (name : Option Text) (movie : Movie) : Except Throwable Bool :=
  match movie.name with
  | none => .error .nullPointer
  | some title => .ok (name.any fun name => equalsIgnoreCase fold title name)

def findActor (firstName lastName : Option Text) : Action (Option Nat) := fun b =>
  (search (named firstName lastName) b.actors, b)

def findMovie (name : Option Text) : Action (Option Nat) := fun b =>
  (search (titled fold name) b.movies, b)

def getFullName (firstName lastName : Option Text) : Text := text firstName ++ 32 :: text lastName

def containsActor (b : MovieBase) (cast : List Nat) (firstName lastName : Option Text) : Bool :=
  cast.any fun i => (b.actors[i]?).any fun actor =>
    equalsIgnoreCase fold (getFullName firstName lastName)
      (getFullName actor.firstName actor.lastName)

def isInCast (movieName firstName lastName : Option Text) : Action Bool := do
  match ← findMovie fold movieName with
  | some film => fun b => (.ok ((b.movies[film]?).any fun film =>
      containsActor fold b film.actors firstName lastName), b)
  | none => pure true

def addMovie (movie : Option Text) : Action Unit := do
  match ← findMovie fold movie with
  | some _ => pure ()
  | none => fun b =>
    if b.movies.length < 100 then (.ok (), { b with movies := b.movies ++ [⟨movie, []⟩] })
    else (.error .arrayIndexOutOfBounds, b)

def addActor (firstName lastName : Option Text) : Action Unit := do
  match ← findActor firstName lastName with
  | some _ => pure ()
  | none => fun b =>
    if b.actors.length < 100 then
      (.ok (), { b with actors := b.actors ++ [⟨firstName, lastName, []⟩] })
    else (.error .arrayIndexOutOfBounds, b)

def movieAddActor (movie actor : Nat) : Action Unit := fun b =>
  match b.movies[movie]? with
  | none => (.error .nullPointer, b)
  | some m =>
    if m.actors.length < 10 then
      (.ok (), { b with
        movies := b.movies.modify movie fun m => { m with actors := m.actors ++ [actor] } })
    else (.error .arrayIndexOutOfBounds, b)

def actorAddMovie (actor movie : Nat) : Action Unit := fun b =>
  match b.actors[actor]? with
  | none => (.error .nullPointer, b)
  | some a =>
    if a.movies.length < 100 then
      (.ok (), { b with
        actors := b.actors.modify actor fun a => { a with movies := a.movies ++ [movie] } })
    else (.error .arrayIndexOutOfBounds, b)

def addActorToMovie (movieName firstName lastName : Option Text) : Action Bool := do
  match ← findActor firstName lastName with
  | none => pure false
  | some actor =>
    match ← findMovie fold movieName with
    | none => pure false
    | some movie =>
      if ← isInCast fold movieName firstName lastName then pure false
      else
        movieAddActor movie actor
        actorAddMovie actor movie
        pure true

def scanLine (text : Text) : Action (Text × Text) := fun b =>
  match nextLine text with
  | some r => (.ok r, b)
  | none => (.error .noSuchElement, b)

def scanToken (text : Text) : Action (Text × Text) := fun b =>
  match next text with
  | some r => (.ok r, b)
  | none => (.error .noSuchElement, b)

def movieMark : Text := ofChars ['M', 'o', 'v', 'i', 'e']

def actorMark : Text := ofChars ['A', 'c', 't', 'o', 'r']

def castMark : Text := ofChars ['C', 'a', 's', 't', 'O', 'f', 'M', 'o', 'v', 'i', 'e']

/-- One round of the loop of `load`: from the field and the rest of the file to the next ones. -/
def record (field text : Text) : Action (Text × Text) :=
  if field = movieMark then do
    let (field, text) ← scanLine text
    addMovie fold (some field)
    scanLine text
  else if field = actorMark then do
    let (field1, text) ← scanToken text
    let (field2, text) ← scanToken text
    addActor (some field1) (some field2)
    scanLine text
  else if field = castMark then do
    let (field1, text) ← scanLine text
    let (field2, text) ← scanToken text
    let (field3, text) ← scanToken text
    let _ ← addActorToMovie fold (some field1) (some field2) (some field3)
    scanLine text
  else scanLine text

theorem scanLine_ok {text : Text} {r : Text × Text} {b b' : MovieBase}
    (h : scanLine text b = (.ok r, b')) : nextLine text = some r ∧ b' = b := by
  unfold scanLine at h
  split at h
  next r' hr => exact ⟨by rw [hr, Except.ok.inj (Prod.mk.inj h).1], (Prod.mk.inj h).2.symm⟩
  next => simp at h

theorem scanToken_ok {text : Text} {r : Text × Text} {b b' : MovieBase}
    (h : scanToken text b = (.ok r, b')) : next text = some r ∧ b' = b := by
  unfold scanToken at h
  split at h
  next r' hr => exact ⟨by rw [hr, Except.ok.inj (Prod.mk.inj h).1], (Prod.mk.inj h).2.symm⟩
  next => simp at h

theorem scanLine_keeps {I : MovieBase → Prop} (text : Text) : Action.Keeps I (scanLine text) := by
  intro b hb
  unfold scanLine
  split
  next => exact hb
  next => exact hb

theorem scanToken_keeps {I : MovieBase → Prop} (text : Text) : Action.Keeps I (scanToken text) := by
  intro b hb
  unfold scanToken
  split
  next => exact hb
  next => exact hb

theorem record_reads {field text field' rest : Text} {b b' : MovieBase}
    (h : record fold field text b = (.ok (field', rest), b')) :
    Relation.TransGen (fun text rest => ∃ piece, Reads text piece rest) text rest := by
  unfold record at h
  split at h
  next =>
    obtain ⟨r, b₁, h₁, h⟩ := Action.bind_ok h
    obtain ⟨-, b₂, -, h⟩ := Action.bind_ok h
    exact .tail (.single ⟨_, .inl (scanLine_ok h₁).1⟩) ⟨_, .inl (scanLine_ok h).1⟩
  next =>
    split at h
    next =>
      obtain ⟨r, b₁, h₁, h⟩ := Action.bind_ok h
      obtain ⟨q, b₂, h₂, h⟩ := Action.bind_ok h
      obtain ⟨-, b₃, -, h⟩ := Action.bind_ok h
      exact .tail (.tail (.single ⟨_, .inr (scanToken_ok h₁).1⟩) ⟨_, .inr (scanToken_ok h₂).1⟩)
        ⟨_, .inl (scanLine_ok h).1⟩
    next =>
      split at h
      next =>
        obtain ⟨r, b₁, h₁, h⟩ := Action.bind_ok h
        obtain ⟨q, b₂, h₂, h⟩ := Action.bind_ok h
        obtain ⟨p, b₃, h₃, h⟩ := Action.bind_ok h
        obtain ⟨-, b₄, -, h⟩ := Action.bind_ok h
        exact .tail (.tail (.tail (.single ⟨_, .inl (scanLine_ok h₁).1⟩)
          ⟨_, .inr (scanToken_ok h₂).1⟩) ⟨_, .inr (scanToken_ok h₃).1⟩) ⟨_, .inl (scanLine_ok h).1⟩
      next => exact .single ⟨_, .inl (scanLine_ok h).1⟩

theorem record_length {field text field' rest : Text} {b b' : MovieBase}
    (h : record fold field text b = (.ok (field', rest), b')) : rest.length < text.length := by
  have hreads := record_reads fold h
  clear h
  induction hreads with
  | single hr =>
    obtain ⟨piece, hr⟩ := hr
    exact hr.length_lt
  | tail _ hr ih =>
    obtain ⟨piece, hr⟩ := hr
    exact lt_trans hr.length_lt ih

/-- `while (scan.hasNextLine())`. -/
def loop (field text : Text) : Action Unit := fun b =>
  if text = [] then (.ok (), b)
  else
    match _h : record fold field text b with
    | (.error e, b) => (.error e, b)
    | (.ok (field, rest), b) => loop field rest b
termination_by text.length
decreasing_by exact record_length fold _h

/-- The file is what its name stands for, if there is one. -/
def load (cs : Charset) (file : Option (List UInt8)) : Action Unit :=
  match file with
  | none => fun b => (.error .fileNotFound, b)
  | some bytes => do
    let (field, text) ← scanLine (cs.decode bytes)
    loop fold field text

section Keeps

variable {fold} {I : MovieBase → Prop} {T : Text → Prop}
  (reads : ∀ {text piece rest}, Reads text piece rest → T text → T piece ∧ T rest)
  (addsMovie : ∀ t, Line t → T t → Action.Keeps I (addMovie fold (some t)))
  (addsActor : ∀ s t, Token s → Token t → T s → T t →
    Action.Keeps I (addActor (some s) (some t)))
  (addsCast : ∀ r s t, Action.Keeps I (addActorToMovie fold (some r) (some s) (some t)))

include reads addsMovie addsActor addsCast

/-- What holds of a text holds of each piece that is read of it. -/
theorem record_keeps (field : Text) {text : Text} (ht : T text) :
    Action.Keeps I (record fold field text) := by
  unfold record
  split
  next =>
    refine (scanLine_keeps text).bind fun r b b₁ h₁ => ?_
    have hr := (scanLine_ok h₁).1
    refine (addsMovie r.1 (nextLine_line hr) (reads (.inl hr) ht).1).bind fun _ _ _ _ => ?_
    exact scanLine_keeps _
  next =>
    split
    next =>
      refine (scanToken_keeps text).bind fun r b b₁ h₁ => ?_
      refine (scanToken_keeps r.2).bind fun q b' b₂ h₂ => ?_
      have hr := (scanToken_ok h₁).1
      have hq := (scanToken_ok h₂).1
      obtain ⟨htr, hrest⟩ := reads (.inr hr) ht
      refine (addsActor r.1 q.1 (next_token hr) (next_token hq) htr (reads (.inr hq) hrest).1).bind
        fun _ _ _ _ => ?_
      exact scanLine_keeps _
    next =>
      split
      next =>
        refine (scanLine_keeps text).bind fun r _ _ _ => ?_
        refine (scanToken_keeps r.2).bind fun q _ _ _ => ?_
        refine (scanToken_keeps q.2).bind fun p _ _ _ => ?_
        refine (addsCast r.1 q.1 p.1).bind fun _ _ _ _ => ?_
        exact scanLine_keeps _
      next => exact scanLine_keeps text

theorem loop_keeps (field : Text) {text : Text} (ht : T text) :
    Action.Keeps I (loop fold field text) := by
  intro b hb
  have keeps : ∀ field {text}, T text → Action.Keeps I (record fold field text) :=
    fun field {_} ht => record_keeps reads addsMovie addsActor addsCast field ht
  induction field, text, b using loop.induct fold with
  | case1 field b =>
    rw [loop]
    simpa using hb
  | case2 field text b hne e b₁ hr =>
    have hk := keeps field ht b hb
    rw [hr] at hk
    rw [loop, if_neg hne]
    split
    next e' b₂ hr' =>
      obtain ⟨-, rfl⟩ := Prod.mk.inj (hr.symm.trans hr')
      exact hk
    next hr' => simp [hr] at hr'
  | case3 field text b hne field' rest b₁ hr ih =>
    have hk := keeps field ht b hb
    rw [hr] at hk
    have hrest : T rest := by
      have hreads := record_reads fold hr
      clear hr hk ih
      induction hreads with
      | single hr =>
        obtain ⟨piece, hr⟩ := hr
        exact (reads hr ht).2
      | tail _ hr ih =>
        obtain ⟨piece, hr⟩ := hr
        exact (reads hr ih).2
    rw [loop, if_neg hne]
    split
    next hr' => simp [hr] at hr'
    next field₂ rest₂ b₂ hr' =>
      obtain ⟨he, rfl⟩ := Prod.mk.inj (hr.symm.trans hr')
      obtain ⟨rfl, rfl⟩ := Prod.mk.inj (Except.ok.inj he)
      exact ih hrest hk

/-- What a file brings in comes through the methods that add. -/
theorem load_keeps (cs : Charset) (file : Option (List UInt8))
    (ht : ∀ bytes, file = some bytes → T (cs.decode bytes)) :
    Action.Keeps I (load fold cs file) := by
  unfold load
  split
  next => exact fun b hb => hb
  next bytes =>
    refine (scanLine_keeps _).bind fun r _ _ h => ?_
    exact loop_keeps reads addsMovie addsActor addsCast r.1
      (reads (.inl (scanLine_ok h).1) (ht bytes rfl)).2

end Keeps

end MovieBase

end TcpAndParallel
