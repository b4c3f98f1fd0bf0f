import TcpAndParallel.CStrings

namespace TcpAndParallel

namespace ConfigLines

open CStrings

/-- A record, its name as far as the NUL. -/
structure UserID where
  uname : List UInt8
  ukey : Int
  deriving DecidableEq

def maxLength : Nat := 40

/-- The length of `uname_text` and `ukey_text`. -/
def textSize : Nat := 64

/-- The number of values of `size_t`. -/
def sizeModulus : Nat := 18446744073709551616

/-- What a node of the list takes, its link behind the key and the name. -/
def nodeSize : Nat := 24

def pointerSize : Nat := 8

/-- The buffers that `read_conf` does not clear between lines. -/
structure Texts where
  unameText : List UInt8
  ukeyText : List UInt8

def store (buffer : List UInt8) (i : Nat) (c : UInt8) : Option (List UInt8) :=
  if i < buffer.length then some (buffer.set i c) else none

/-- The name is copied to where `malloc` was asked for the size of a pointer, which has `room`. -/
def initUserID (room : Nat) (name : List UInt8) (key : Int) : Option UserID :=
  if name.length < room then some ⟨name, key⟩ else none

/-- The body of the loop of `read_conf`, on the string in `text_read`. -/
def readRecord (room : Nat) (textRead : List UInt8) (b : Texts) :
    Option (Texts × Option UserID) := do
  let unameText ← store b.unameText 0 0
  let ukeyText ← store b.ukeyText 0 0
  match textRead.findIdx? (· = 58) with
  | none => some (⟨unameText, ukeyText⟩, none)
  | some unameLength =>
    let p := textRead.drop (unameLength + 1)
    let ukeyText ← strncpy ukeyText p ((unameLength + (sizeModulus - 1)) % sizeModulus)
    let value ← atoi ukeyText
    let unameText ← strncpy unameText textRead unameLength
    let unameText ← store unameText unameLength 0
    let ptr ← initUserID room (text unameText) value
    some (⟨unameText, ukeyText⟩, some ptr)

/-- `while (fgets (text_read, MAX_LENGTH, my_file)!=NULL)`; the records in the order in which they
are appended. -/
def readLines (room : Nat) : Nat → List UInt8 → Texts → Option (List UserID)
  | _, [], _ => some []
  | 0, _ :: _, _ => none
  | fuel + 1, c :: file, b => do
    let line := firstLine (maxLength - 1) (c :: file)
    let (b, ptr) ← readRecord room (text line) b
    let ptrs ← readLines room fuel ((c :: file).drop line.length) b
    some (ptr.toList ++ ptrs)

/-- The records that the loop of `read_conf` appends; the buffers are as they are found. -/
def appended (room : Nat) (uname ukey : Fin textSize → UInt8) (file : List UInt8) :
    Option (List UserID) :=
  readLines room file.length file ⟨List.ofFn uname, List.ofFn ukey⟩

/-- The blocks have room for what is written to them: those of the first nodes, which are allocated
with the size of a pointer, for the link, and that of the name of the file for its NUL. -/
def Roomy (room : Nat → Nat) (filename : List UInt8) : Prop :=
  nodeSize ≤ room pointerSize ∧ filename.length < room filename.length

instance (room : Nat → Nat) (filename : List UInt8) : Decidable (Roomy room filename) :=
  instDecidableAnd

/-- `read_conf`, with the room that a block of so many bytes has, and the file if it can be opened.
It leaves the records that it has not freed, or none where it returns `EXIT_FAILURE`. -/
def readConf (room : Nat → Nat) (filename : List UInt8) (uname ukey : Fin textSize → UInt8)
    (file : Option (List UInt8)) : Option (Option (List UserID)) :=
  if Roomy room filename then
    match file with
    | none => some none
    | some file => do
      let users ← appended (room pointerSize) uname ukey file
      -- `free (new)`: the record of the last line, or the first node where there is none
      some (some users.dropLast)
  else none

/-- A line of the form `name:key` that is shorter than `MAX_LENGTH`. -/
structure ConfLine where
  name : List UInt8
  key : List UInt8
  noColon : 58 ∉ name
  noNewline : 10 ∉ name
  noNul : 0 ∉ name
  digits : ∀ c ∈ key, isDigit c = true
  decimal : key ≠ []
  short : name.length + 1 + key.length < maxLength

namespace ConfLine

def text (l : ConfLine) : List UInt8 := l.name ++ 58 :: l.key

def user (l : ConfLine) : UserID := ⟨l.name, number l.key⟩

/-- How many bytes of the key are copied. -/
def copied (l : ConfLine) : Nat := l.name.length - 1

end ConfLine

/-- The file of some lines; the last newline may be missing. -/
def fileText (final : Bool) : List ConfLine → List UInt8
  | [] => []
  | l :: ls => l.text ++ (if ls.isEmpty && !final then [] else [10]) ++ fileText final ls

/-- What is in `ukey_text` when the key has been copied from `p`. -/
def copiedFrom (ukeyText p : List UInt8) (l : ConfLine) : List UInt8 :=
  p.take l.copied ++ List.replicate (l.copied - p.length) 0 ++ (ukeyText.set 0 0).drop l.copied

/-- What a line leaves in `ukey_text`; a line that fills `text_read` is read without its newline. -/
def after (ukeyText : List UInt8) (l : ConfLine) : List UInt8 :=
  copiedFrom ukeyText (if l.text.length < maxLength - 1 then l.key ++ [10] else l.key) l

/-- The name is not empty, and has the room; the number fits; and the name is by two bytes longer
than the key, or the digits that are left from the lines before go on with those that are copied
to the same number. -/
def Copies (room : Nat) (ukeyText : List UInt8) (l : ConfLine) : Prop :=
  l.name ≠ [] ∧ l.name.length < room ∧ number l.key ≤ intMax ∧
    (l.key.length < l.copied ∨
      ((ukeyText.set 0 0).drop l.copied).dropWhile isDigit ≠ [] ∧
        number (l.key.take l.copied ++ ((ukeyText.set 0 0).drop l.copied).takeWhile isDigit) =
          number l.key)

/-- Each line in turn, with what the lines before it left. -/
def AllCopied (room : Nat) : List UInt8 → List ConfLine → Prop
  | _, [] => True
  | ukeyText, l :: ls => Copies room ukeyText l ∧ AllCopied room (after ukeyText l) ls

section Line

variable {room : Nat} {ukeyText : List UInt8} {l : ConfLine} {p : List UInt8}

def found (ukeyText : List UInt8) (l : ConfLine) : List UInt8 :=
  if l.key.length < l.copied then l.key
  else l.key.take l.copied ++ ((ukeyText.set 0 0).drop l.copied).takeWhile isDigit

theorem takeWhile_key (rest : List UInt8) :
    (l.key ++ rest).takeWhile isDigit = l.key ++ rest.takeWhile isDigit :=
  List.takeWhile_append_of_pos l.digits

theorem dropWhile_key (rest : List UInt8) :
    (l.key ++ rest).dropWhile isDigit = rest.dropWhile isDigit :=
  List.dropWhile_append_of_pos l.digits

theorem isDigit_newline : isDigit 10 = false := by decide

theorem isDigit_nul : isDigit 0 = false := by decide

theorem copiedFrom_whole (ukeyText : List UInt8) (hp : p = l.key ∨ p = l.key ++ [10])
    (whole : l.key.length < l.copied) :
    ∃ c rest, isDigit c = false ∧ copiedFrom ukeyText p l = l.key ++ c :: rest := by
  unfold copiedFrom
  rcases hp with rfl | rfl
  · obtain ⟨k, hk⟩ : ∃ k, l.copied - l.key.length = k + 1 :=
      ⟨l.copied - l.key.length - 1, by omega⟩
    refine ⟨0, List.replicate k 0 ++ (ukeyText.set 0 0).drop l.copied, isDigit_nul, ?_⟩
    rw [List.take_of_length_le (by omega), hk, List.replicate_succ, List.append_assoc,
      List.cons_append]
  · refine ⟨10, List.replicate (l.copied - (l.key ++ [10]).length) 0 ++
      (ukeyText.set 0 0).drop l.copied, isDigit_newline, ?_⟩
    rw [List.take_of_length_le (by simp; omega), List.append_assoc, List.append_assoc,
      List.singleton_append]

theorem copiedFrom_cut (ukeyText : List UInt8) (hp : p = l.key ∨ p = l.key ++ [10])
    (cut : ¬l.key.length < l.copied) :
    copiedFrom ukeyText p l = l.key.take l.copied ++ (ukeyText.set 0 0).drop l.copied := by
  unfold copiedFrom
  rcases hp with rfl | rfl
  · rw [Nat.sub_eq_zero_of_le (by omega), List.replicate_zero, List.append_nil]
  · rw [List.take_append_of_le_length (by omega), Nat.sub_eq_zero_of_le (by simp; omega),
      List.replicate_zero, List.append_nil]

theorem copiedFrom_digits (ukeyText : List UInt8) (hp : p = l.key ∨ p = l.key ++ [10]) :
    (copiedFrom ukeyText p l).takeWhile isDigit = found ukeyText l ∧
      ((copiedFrom ukeyText p l).dropWhile isDigit = [] ↔ ¬l.key.length < l.copied ∧
        ((ukeyText.set 0 0).drop l.copied).dropWhile isDigit = []) := by
  by_cases hlen : l.key.length < l.copied
  · obtain ⟨c, rest, hc, he⟩ := copiedFrom_whole ukeyText hp hlen
    rw [he, takeWhile_key, dropWhile_key, found, if_pos hlen]
    simp [hc, hlen]
  · have hdigits : ∀ c ∈ l.key.take l.copied, isDigit c = true :=
      fun c hc => l.digits c (List.mem_of_mem_take hc)
    rw [copiedFrom_cut ukeyText hp hlen, List.takeWhile_append_of_pos hdigits,
      List.dropWhile_append_of_pos hdigits, found, if_neg hlen]
    simp [hlen]

theorem copies_iff (hname : l.name ≠ []) :
    Copies room ukeyText l ↔ l.name.length < room ∧ number l.key ≤ intMax ∧
      ¬(¬l.key.length < l.copied ∧ ((ukeyText.set 0 0).drop l.copied).dropWhile isDigit = []) ∧
      number (found ukeyText l) = number l.key := by
  unfold Copies found
  by_cases hlen : l.key.length < l.copied
  · simp [hname, hlen]
  · simp [hname, hlen]

theorem set_zero_cons (size : ukeyText.length = textSize) :
    ∃ rest, ukeyText.set 0 0 = 0 :: rest := by
  cases ukeyText with
  | nil => simp [textSize] at size
  | cons c rest => exact ⟨rest, rfl⟩

theorem copiedFrom_cons (size : ukeyText.length = textSize) (hp : p = l.key ∨ p = l.key ++ [10]) :
    ∃ c rest, (isDigit c = true ∨ c = 0) ∧ copiedFrom ukeyText p l = c :: rest := by
  obtain ⟨d, ds, hkey⟩ := List.exists_cons_of_ne_nil l.decimal
  have hd : isDigit d = true := l.digits d (by simp [hkey])
  obtain ⟨ds', hp'⟩ : ∃ ds', p = d :: ds' := by
    rcases hp with rfl | rfl
    · exact ⟨ds, hkey⟩
    · exact ⟨ds ++ [10], by rw [hkey]; rfl⟩
  unfold copiedFrom
  cases l.copied with
  | zero =>
    obtain ⟨rest, hrest⟩ := set_zero_cons size
    exact ⟨0, rest, .inr rfl, by simp [hrest]⟩
  | succ n =>
    rw [hp', List.take_succ_cons, List.append_assoc, List.cons_append]
    exact ⟨d, _, .inl hd, rfl⟩

theorem atoi_line (size : ukeyText.length = textSize) (hp : p = l.key ∨ p = l.key ++ [10]) :
    atoi (copiedFrom ukeyText p l) =
      if ¬l.key.length < l.copied ∧ ((ukeyText.set 0 0).drop l.copied).dropWhile isDigit = [] then
        none
      else if number (found ukeyText l) ≤ intMax then some (number (found ukeyText l) : Int)
      else none := by
  obtain ⟨htake, hdrop⟩ := copiedFrom_digits ukeyText hp
  obtain ⟨c, rest, hc, he⟩ := copiedFrom_cons size hp
  rw [he] at htake hdrop ⊢
  rw [atoi_cons hc, htake]
  simp only [hdrop]

theorem store_zero {buffer : List UInt8} (size : buffer.length = textSize) :
    store buffer 0 0 = some (buffer.set 0 0) := by
  apply if_pos
  rw [size]
  decide

theorem findIdx_text (nl : List UInt8) :
    (l.text ++ nl).findIdx? (· = 58) = some l.name.length := by
  have hname : l.name.findIdx? (· = 58) = none := by
    rw [List.findIdx?_eq_none_iff]
    intro c hc
    simpa using fun he : c = 58 => l.noColon (he ▸ hc)
  rw [ConfLine.text, List.append_assoc, List.findIdx?_append, hname]
  simp [List.findIdx?_cons]

/-- An empty name makes a length of nearly all the memory. -/
theorem readRecord_empty (nl : List UInt8) {b : Texts} (size : b.ukeyText.length = textSize)
    (hname : l.name = []) : readRecord room (l.text ++ nl) b = none := by
  unfold readRecord
  rw [findIdx_text, hname]
  simp only [Option.bind_eq_bind]
  cases store b.unameText 0 0 with
  | none => rfl
  | some unameText =>
    have hlarge : ¬(0 + (sizeModulus - 1)) % sizeModulus ≤ (b.ukeyText.set 0 0).length := by
      rw [List.length_set, size]
      decide
    simp only [Option.bind_some, store_zero size, List.length_nil, strncpy, if_neg hlarge,
      Option.bind_none]

theorem copied_size :
    (l.name ≠ [] → (l.name.length + (sizeModulus - 1)) % sizeModulus = l.copied) ∧
      l.name.length < textSize := by
  have hshort := l.short
  simp only [maxLength] at hshort
  refine ⟨fun hname => ?_, by simp only [textSize]; omega⟩
  have hpos : 0 < l.name.length := List.length_pos_iff.mpr hname
  simp only [sizeModulus, ConfLine.copied]
  omega

theorem copy_name {unameText : List UInt8} (size : unameText.length = textSize)
    (more : List UInt8) :
    ∃ u v, strncpy unameText (l.name ++ more) l.name.length = some u ∧
      store u l.name.length 0 = some v ∧ v.length = textSize ∧ CStrings.text v = l.name := by
  have hlt := (copied_size (l := l)).2
  have hcopy : strncpy unameText (l.name ++ more) l.name.length =
      some (l.name ++ unameText.drop l.name.length) := by
    unfold strncpy
    rw [if_pos (by omega), List.take_left' rfl,
      Nat.sub_eq_zero_of_le (by simp), List.replicate_zero, List.append_nil]
  have hlen := length_strncpy hcopy
  obtain ⟨c, rest, hrest⟩ := List.exists_cons_of_length_pos
    (show 0 < (unameText.drop l.name.length).length by rw [List.length_drop]; omega)
  rw [hrest] at hcopy hlen
  refine ⟨_, (l.name ++ c :: rest).set l.name.length 0, hcopy, ?_, ?_, ?_⟩
  · unfold store
    rw [if_pos (by omega)]
  · rw [List.length_set]
    omega
  · rw [List.set_append_right _ _ le_rfl, Nat.sub_self]
    exact text_append rest l.noNul

theorem readRecord_line (nl : List UInt8) {b : Texts} (size : b.ukeyText.length = textSize)
    (size' : b.unameText.length = textSize) (hname : l.name ≠ []) :
    ∃ unameText, unameText.length = textSize ∧ readRecord room (l.text ++ nl) b =
      (atoi (copiedFrom b.ukeyText (l.key ++ nl) l)).bind fun value =>
          if l.name.length < room then
            some (⟨unameText, copiedFrom b.ukeyText (l.key ++ nl) l⟩, some ⟨l.name, value⟩)
          else none := by
  obtain ⟨hmod, hlt⟩ := copied_size (l := l)
  have hcopy : strncpy (b.ukeyText.set 0 0) (l.key ++ nl) l.copied =
      some (copiedFrom b.ukeyText (l.key ++ nl) l) := by
    apply if_pos
    rw [List.length_set, size, ConfLine.copied]
    omega
  have hdrop : (l.text ++ nl).drop (l.name.length + 1) = l.key ++ nl := by
    rw [ConfLine.text, List.append_assoc, ← List.drop_drop, List.drop_left' rfl]
    rfl
  have hsize : (b.unameText.set 0 0).length = textSize := by rw [List.length_set, size']
  obtain ⟨u, v, hu, hv, hvl, hvt⟩ := copy_name (l := l) hsize (58 :: l.key ++ nl)
  have htext : l.text ++ nl = l.name ++ (58 :: l.key ++ nl) := by
    rw [ConfLine.text, List.append_assoc]
  refine ⟨v, hvl, ?_⟩
  unfold readRecord
  simp only [Option.bind_eq_bind, store_zero size, store_zero size', Option.bind_some, findIdx_text,
    hmod hname, hdrop, hcopy]
  cases atoi (copiedFrom b.ukeyText (l.key ++ nl) l) with
  | none => rfl
  | some value =>
    rw [Option.bind_some, Option.bind_some, htext, hu, Option.bind_some, hv, Option.bind_some, hvt]
    unfold initUserID
    split
    next => rfl
    next => rfl

theorem readRecord_cases (nl : List UInt8) (hnl : nl = [] ∨ nl = [10]) {b : Texts}
    (size : b.ukeyText.length = textSize) (size' : b.unameText.length = textSize) :
    (readRecord room (l.text ++ nl) b = none ∧ ¬Copies room b.ukeyText l) ∨
    ∃ unameText u, unameText.length = textSize ∧
      readRecord room (l.text ++ nl) b =
        some (⟨unameText, copiedFrom b.ukeyText (l.key ++ nl) l⟩, some u) ∧
      (u = l.user ↔ Copies room b.ukeyText l) := by
  by_cases hname : l.name = []
  · exact .inl ⟨readRecord_empty nl size hname, fun h => h.1 hname⟩
  · obtain ⟨unameText, hlen, hrun⟩ := readRecord_line nl size size' hname
    have hp : l.key ++ nl = l.key ∨ l.key ++ nl = l.key ++ [10] := by
      rcases hnl with rfl | rfl
      · exact .inl (List.append_nil _)
      · exact .inr rfl
    rw [atoi_line size hp] at hrun
    rw [copies_iff hname]
    by_cases hend : ¬l.key.length < l.copied ∧
        ((b.ukeyText.set 0 0).drop l.copied).dropWhile isDigit = []
    · rw [if_pos hend] at hrun
      exact .inl ⟨hrun, fun h => h.2.2.1 hend⟩
    · rw [if_neg hend] at hrun
      by_cases hfit : number (found b.ukeyText l) ≤ intMax
      · rw [if_pos hfit, Option.bind_some] at hrun
        by_cases hroom : l.name.length < room
        · rw [if_pos hroom] at hrun
          refine .inr ⟨unameText, _, hlen, hrun, ?_⟩
          constructor
          · intro he
            have hkey : number (found b.ukeyText l) = number l.key := by
              have hint := congrArg UserID.ukey he
              simp only [ConfLine.user] at hint
              omega
            exact ⟨hroom, hkey ▸ hfit, hend, hkey⟩
          · rintro ⟨-, -, -, hkey⟩
            rw [hkey]
            rfl
        · rw [if_neg hroom] at hrun
          exact .inl ⟨hrun, fun h => hroom h.1⟩
      · rw [if_neg hfit] at hrun
        refine .inl ⟨hrun, fun h => hfit ?_⟩
        rw [h.2.2.2]
        exact h.2.1

/-- The newline that a full line leaves behind is read as a line without a colon. -/
theorem readRecord_newline {b : Texts} (size : b.ukeyText.length = textSize)
    (size' : b.unameText.length = textSize) :
    readRecord room [10] b = some (⟨b.unameText.set 0 0, b.ukeyText.set 0 0⟩, none) := by
  unfold readRecord
  simp only [Option.bind_eq_bind, store, size, size']
  rfl

end Line

section File

variable {room : Nat} {l : ConfLine} {ls : List ConfLine}

theorem readLines_step {line rest : List UInt8} (b : Texts) {fuel : Nat} (hne : line ≠ [])
    (hline : firstLine (maxLength - 1) (line ++ rest) = line) (noNul : 0 ∉ line)
    (fueled : (line ++ rest).length ≤ fuel) :
    ∃ fuel', rest.length ≤ fuel' ∧ readLines room fuel (line ++ rest) b =
      (readRecord room line b).bind fun r =>
        (readLines room fuel' rest r.1).map (r.2.toList ++ ·) := by
  obtain ⟨c, cs, rfl⟩ := List.exists_cons_of_ne_nil hne
  obtain ⟨fuel, rfl⟩ : ∃ m, fuel = m + 1 := ⟨fuel - 1, by simp at fueled; omega⟩
  refine ⟨fuel, by simp at fueled; omega, ?_⟩
  have hdrop : (c :: cs ++ rest).drop (c :: cs).length = rest := List.drop_left' rfl
  rw [List.cons_append] at hline hdrop ⊢
  rw [readLines]
  simp only [hline, hdrop, text_eq_self noNul, Option.bind_eq_bind, Option.map_eq_bind]
  rfl

theorem readLines_newline (room : Nat) {rest unameText ukeyText : List UInt8} {fuel : Nat}
    (size : ukeyText.length = textSize) (size' : unameText.length = textSize)
    (fueled : ([10] ++ rest).length ≤ fuel) :
    ∃ fuel', rest.length ≤ fuel' ∧ readLines room fuel ([10] ++ rest) ⟨unameText, ukeyText⟩ =
      readLines room fuel' rest ⟨unameText.set 0 0, ukeyText.set 0 0⟩ := by
  have hline : firstLine (maxLength - 1) ([10] ++ rest) = [10] :=
    firstLine_append rest List.not_mem_nil (by decide)
  obtain ⟨fuel', hfuel, hstep⟩ := readLines_step ⟨unameText, ukeyText⟩
    (List.cons_ne_nil 10 []) hline (by decide) fueled
  refine ⟨fuel', hfuel, ?_⟩
  rw [hstep, readRecord_newline size size', Option.bind_some]
  simp

theorem ConfLine.noNewline_text (l : ConfLine) : 10 ∉ l.text := by
  intro hm
  rcases List.mem_append.mp hm with hm | hm
  · exact l.noNewline hm
  · rcases List.mem_cons.mp hm with he | hm
    · exact absurd he (by decide)
    · exact absurd (l.digits 10 hm) (by decide)

theorem ConfLine.noNul_text (l : ConfLine) : 0 ∉ l.text := by
  intro hm
  rcases List.mem_append.mp hm with hm | hm
  · exact l.noNul hm
  · rcases List.mem_cons.mp hm with he | hm
    · exact absurd he (by decide)
    · exact absurd (l.digits 0 hm) (by decide)

theorem ConfLine.length_text (l : ConfLine) : l.text.length ≤ maxLength - 1 := by
  have hshort := l.short
  simp only [ConfLine.text, List.length_append, List.length_cons]
  omega

theorem ConfLine.text_ne_nil (l : ConfLine) : l.text ≠ [] := by
  simp [ConfLine.text]

/-- The first byte of the buffer is cleared for every line. -/
theorem allCopied_set (ukeyText : List UInt8) (ls : List ConfLine) :
    AllCopied room (ukeyText.set 0 0) ls ↔ AllCopied room ukeyText ls := by
  cases ls with
  | nil => exact Iff.rfl
  | cons l ls =>
    unfold AllCopied Copies after copiedFrom
    rw [List.set_set]

theorem readLines_line (room : Nat) {nl rest : List UInt8} (hnl : nl = [] ∨ nl = [10]) {b : Texts}
    {fuel : Nat}
    (size : b.ukeyText.length = textSize) (size' : b.unameText.length = textSize)
    (hline : firstLine (maxLength - 1) (l.text ++ nl ++ rest) = l.text ++ nl)
    (fueled : (l.text ++ nl ++ rest).length ≤ fuel) :
    (readLines room fuel (l.text ++ nl ++ rest) b = none ∧ ¬Copies room b.ukeyText l) ∨
    ∃ unameText u fuel', unameText.length = textSize ∧ rest.length ≤ fuel' ∧
      (u = l.user ↔ Copies room b.ukeyText l) ∧
      readLines room fuel (l.text ++ nl ++ rest) b =
        (readLines room fuel' rest ⟨unameText, copiedFrom b.ukeyText (l.key ++ nl) l⟩).map
          (u :: ·) := by
  have hne : l.text ++ nl ≠ [] := by simp [l.text_ne_nil]
  have hnul : 0 ∉ l.text ++ nl := by
    intro hm
    rcases List.mem_append.mp hm with hm | hm
    · exact l.noNul_text hm
    · rcases hnl with rfl | rfl <;> simp at hm
  obtain ⟨fuel', hfuel, hstep⟩ := readLines_step b hne hline hnul fueled
  rw [hstep]
  rcases readRecord_cases nl hnl size size' with ⟨hnone, hno⟩ | ⟨unameText, u, hlen, hrun, hu⟩
  · exact .inl ⟨by rw [hnone, Option.bind_none], hno⟩
  · exact .inr ⟨unameText, u, fuel', hlen, hfuel, hu, by rw [hrun, Option.bind_some]; rfl⟩

theorem length_copiedFrom {ukeyText : List UInt8} (size : ukeyText.length = textSize)
    (nl : List UInt8) :
    (copiedFrom ukeyText (l.key ++ nl) l).length = textSize := by
  have hlt := (copied_size (l := l)).2
  unfold copiedFrom
  simp only [List.length_append, List.length_take, List.length_replicate, List.length_drop,
    List.length_set, size, ConfLine.copied]
  omega

theorem readLines_cons (room : Nat) (final : Bool) {b : Texts} {fuel : Nat}
    (size : b.ukeyText.length = textSize) (size' : b.unameText.length = textSize)
    (fueled : (fileText final (l :: ls)).length ≤ fuel) :
    (readLines room fuel (fileText final (l :: ls)) b = none ∧ ¬Copies room b.ukeyText l) ∨
    ∃ b' u fuel', b'.ukeyText.length = textSize ∧ b'.unameText.length = textSize ∧
      (fileText final ls).length ≤ fuel' ∧
      (AllCopied room b'.ukeyText ls ↔ AllCopied room (after b.ukeyText l) ls) ∧
      (u = l.user ↔ Copies room b.ukeyText l) ∧
      readLines room fuel (fileText final (l :: ls)) b =
        (readLines room fuel' (fileText final ls) b').map (u :: ·) := by
  rw [fileText] at fueled ⊢
  by_cases hlast : ls.isEmpty && !final
  · -- the last line, without a newline
    rw [if_pos hlast] at fueled ⊢
    obtain rfl : ls = [] := List.isEmpty_iff.mp ((Bool.and_eq_true _ _).mp hlast).1
    have hline : firstLine (maxLength - 1) (l.text ++ [] ++ fileText final []) = l.text ++ [] := by
      simpa [fileText] using firstLine_last l.noNewline_text l.length_text
    obtain hnone | ⟨unameText, u, fuel', hlen, hfuel, hu, hrun⟩ :=
      readLines_line room (.inl rfl) size size' hline fueled
    · exact .inl hnone
    · exact .inr ⟨_, u, fuel', length_copiedFrom size [], hlen, hfuel, Iff.rfl, hu, hrun⟩
  · rw [if_neg hlast] at fueled ⊢
    by_cases hfull : l.text.length < maxLength - 1
    · have hafter : after b.ukeyText l = copiedFrom b.ukeyText (l.key ++ [10]) l := by
        unfold after
        rw [if_pos hfull]
      have hline : firstLine (maxLength - 1) (l.text ++ [10] ++ fileText final ls) =
          l.text ++ [10] := by
        rw [List.append_assoc, List.singleton_append]
        exact firstLine_append _ l.noNewline_text hfull
      obtain hnone | ⟨unameText, u, fuel', hlen, hfuel, hu, hrun⟩ :=
        readLines_line room (.inr rfl) size size' hline fueled
      · exact .inl hnone
      · exact .inr ⟨_, u, fuel', length_copiedFrom size [10], hlen, hfuel, by rw [hafter], hu, hrun⟩
    · -- the line fills the buffer, and its newline is read by itself
      have hafter : after b.ukeyText l = copiedFrom b.ukeyText (l.key ++ []) l := by
        unfold after
        rw [if_neg hfull, List.append_nil]
      have hlen : l.text.length = maxLength - 1 := by
        have hle := l.length_text
        omega
      have hcut : l.text ++ [10] ++ fileText final ls =
          l.text ++ [] ++ ([10] ++ fileText final ls) := by simp
      rw [hcut] at fueled ⊢
      have hline : firstLine (maxLength - 1) (l.text ++ [] ++ ([10] ++ fileText final ls)) =
          l.text ++ [] := by
        rw [List.append_nil, ← hlen]
        exact firstLine_full _ l.noNewline_text
      obtain hnone | ⟨unameText, u, fuel', hlen', hfuel, hu, hrun⟩ :=
        readLines_line room (.inl rfl) size size' hline fueled
      · exact .inl hnone
      · have hsize := length_copiedFrom (l := l) size []
        obtain ⟨fuel'', hfuel'', hnewline⟩ := readLines_newline room hsize hlen' hfuel
        rw [hnewline] at hrun
        refine .inr ⟨_, u, fuel'', by rw [List.length_set, hsize], by rw [List.length_set, hlen'],
          hfuel'', ?_, hu, hrun⟩
        rw [hafter]
        exact allCopied_set _ ls

theorem readLines_iff (final : Bool) {b : Texts} {fuel : Nat}
    (size : b.ukeyText.length = textSize) (size' : b.unameText.length = textSize)
    (fueled : (fileText final ls).length ≤ fuel) :
    readLines room fuel (fileText final ls) b = some (ls.map ConfLine.user) ↔
      AllCopied room b.ukeyText ls := by
  induction ls generalizing b fuel with
  | nil => cases fuel <;> simp [fileText, readLines, AllCopied]
  | cons l ls ih =>
    rw [List.map_cons, AllCopied]
    obtain ⟨hnone, hno⟩ | ⟨b', u, fuel', hsize, hsize', hfuel, hafter, hu, hrun⟩ :=
      readLines_cons room final size size' fueled
    · simp [hnone, hno]
    · rw [hrun, Option.map_eq_some_iff, ← hu, ← hafter, ← ih hsize hsize' hfuel]
      constructor
      · rintro ⟨us, hus, he⟩
        obtain ⟨rfl, rfl⟩ := List.cons.inj he
        exact ⟨rfl, hus⟩
      · rintro ⟨rfl, hus⟩
        exact ⟨_, hus, rfl⟩

theorem readLines_length (final : Bool) {b : Texts} {fuel : Nat} {us : List UserID}
    (size : b.ukeyText.length = textSize) (size' : b.unameText.length = textSize)
    (fueled : (fileText final ls).length ≤ fuel)
    (h : readLines room fuel (fileText final ls) b = some us) : us.length = ls.length := by
  induction ls generalizing b fuel us with
  | nil =>
    obtain rfl : [] = us := by cases fuel <;> simpa [fileText, readLines] using h
    rfl
  | cons l ls ih =>
    obtain ⟨hnone, -⟩ | ⟨b', u, fuel', hsize, hsize', hfuel, -, -, hrun⟩ :=
      readLines_cons room final size size' fueled
    · simp [hnone] at h
    · rw [hrun, Option.map_eq_some_iff] at h
      obtain ⟨us, hus, rfl⟩ := h
      rw [List.length_cons, List.length_cons, ih hsize hsize' hfuel hus]

theorem appended_iff (room : Nat) (uname ukey : Fin textSize → UInt8) (final : Bool)
    (ls : List ConfLine) :
    appended room uname ukey (fileText final ls) = some (ls.map ConfLine.user) ↔
      AllCopied room (List.ofFn ukey) ls := by
  unfold appended
  rw [readLines_iff final (by simp) (by simp) le_rfl]

/-- The records of the lines are left exactly where there is no line, as that of the last one is
freed; and they are appended exactly where each line's key is copied as far as it goes, or goes on
with what was left there. -/
theorem readConf_iff (room : Nat → Nat) (filename : List UInt8) (uname ukey : Fin textSize → UInt8)
    (final : Bool) (ls : List ConfLine) :
    (readConf room filename uname ukey (some (fileText final ls)) =
        some (some (ls.map ConfLine.user)) ↔ Roomy room filename ∧ ls = []) ∧
    (appended (room pointerSize) uname ukey (fileText final ls) = some (ls.map ConfLine.user) ↔
      AllCopied (room pointerSize) (List.ofFn ukey) ls) := by
  refine ⟨?_, appended_iff _ uname ukey final ls⟩
  unfold readConf
  by_cases hroom : Roomy room filename
  · rw [if_pos hroom]
    simp only [Option.bind_eq_bind, hroom, true_and]
    constructor
    · intro h
      obtain ⟨us, hus, hleft⟩ := Option.bind_eq_some_iff.mp h
      have hlen := readLines_length final (by simp) (by simp) le_rfl hus
      have hdrop := congrArg List.length (Option.some.inj (Option.some.inj hleft))
      rw [List.length_dropLast, List.length_map] at hdrop
      exact List.length_eq_zero_iff.mp (by omega)
    · rintro rfl
      rw [(appended_iff _ uname ukey final []).mpr trivial]
      rfl
  · simp [hroom]

def twelve : ConfLine where
  name := [97, 98]
  key := [49, 50]
  noColon := by decide
  noNewline := by decide
  noNul := by decide
  digits := by
    intro c hc
    rcases List.mem_pair.mp hc with rfl | rfl
    · rfl
    · rfl
  decimal := by decide
  short := by decide

/-- One byte of the key is copied for a name of two, and the record gets the key 1; then it is
freed. -/
theorem readConf_cuts_key :
    appended nodeSize (fun _ => 0) (fun _ => 0) (fileText true [twelve]) = some [⟨[97, 98], 1⟩] ∧
      readConf (fun _ => nodeSize) [100] (fun _ => 0) (fun _ => 0) (some (fileText true [twelve])) ≠
        some (some ([twelve].map ConfLine.user)) := by
  decide

end File

end ConfigLines

end TcpAndParallel
