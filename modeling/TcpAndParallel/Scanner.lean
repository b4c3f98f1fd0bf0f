import Mathlib.Data.List.TakeWhile

namespace TcpAndParallel

namespace Scanner

/-- A string, a list of code units; a surrogate need not have its pair. -/
abbrev Text := List UInt16

def ofChars (s : List Char) : Text := s.map fun c => UInt16.ofNat c.toNat

/-- The code units at which `nextLine` ends a line. -/
def isLineSeparator (c : UInt16) : Bool :=
  c.toNat ∈ [0x0A, 0x0D, 0x85, 0x2028, 0x2029]

/-- `Character.isWhitespace`, at which `next` ends a token. -/
def isWhitespace (c : UInt16) : Bool :=
  c.toNat ∈ [0x09, 0x0A, 0x0B, 0x0C, 0x0D, 0x1C, 0x1D, 0x1E, 0x1F, 0x20, 0x1680, 0x2000, 0x2001,
    0x2002, 0x2003, 0x2004, 0x2005, 0x2006, 0x2008, 0x2009, 0x200A, 0x2028, 0x2029, 0x205F, 0x3000]

/-- What is left behind the separator of a line; a carriage return takes a line feed with it. -/
def dropSeparator : Text → Text
  | 13 :: 10 :: rest => rest
  | _ :: rest => rest
  | [] => []

/-- The rest of the current line, and the text behind its separator. -/
def nextLine (text : Text) : Option (Text × Text) :=
  if text = [] then none
  else some (text.takeWhile (fun c => !isLineSeparator c),
    dropSeparator (text.dropWhile fun c => !isLineSeparator c))

/-- The next token, and the text behind it. -/
def next (text : Text) : Option (Text × Text) :=
  match text.dropWhile isWhitespace with
  | [] => none
  | c :: rest => some ((c :: rest).takeWhile (fun c => !isWhitespace c),
      (c :: rest).dropWhile fun c => !isWhitespace c)

/-- A piece of a text that has been read, and what is left behind it. -/
def Reads (text piece rest : Text) : Prop :=
  nextLine text = some (piece, rest) ∨ next text = some (piece, rest)

def Line (line : Text) : Prop := ∀ c ∈ line, isLineSeparator c = false

def Token (token : Text) : Prop := token ≠ [] ∧ ∀ c ∈ token, isWhitespace c = false

instance (line : Text) : Decidable (Line line) :=
  List.decidableBAll (fun c => isLineSeparator c = false) line

instance (token : Text) : Decidable (Token token) :=
  have := List.decidableBAll (fun c => isWhitespace c = false) token
  instDecidableAnd

/-- The system says how `println` ends a line. -/
inductive Platform
  | unix
  | windows

def lineSeparator : Platform → Text
  | .unix => [10]
  | .windows => [13, 10]

variable {text line token rest : Text} {c : UInt16}

theorem dropWhile_length_le (p : UInt16 → Bool) (text : Text) :
    (text.dropWhile p).length ≤ text.length :=
  (text.dropWhile_sublist p).length_le

theorem dropSeparator_length (c : UInt16) (text : Text) :
    (dropSeparator (c :: text)).length ≤ text.length := by
  unfold dropSeparator
  split
  next he =>
    obtain ⟨rfl, rfl⟩ := List.cons.inj he
    simp
  next he =>
    obtain ⟨rfl, rfl⟩ := List.cons.inj he
    exact le_refl _
  next he => simp at he

theorem nextLine_length (h : nextLine text = some (line, rest)) : rest.length < text.length := by
  unfold nextLine at h
  split at h
  next => simp at h
  next hne =>
    obtain ⟨-, rfl⟩ := Prod.mk.inj (Option.some.inj h)
    have hle := dropWhile_length_le (fun c => !isLineSeparator c) text
    have hpos := List.length_pos_iff.mpr hne
    cases hd : text.dropWhile fun c => !isLineSeparator c with
    | nil => simpa [dropSeparator] using hpos
    | cons c tail =>
      have htail := dropSeparator_length c tail
      rw [hd, List.length_cons] at hle
      omega

theorem nextLine_line (h : nextLine text = some (line, rest)) : Line line := by
  unfold nextLine at h
  split at h
  next => simp at h
  next =>
    obtain ⟨rfl, -⟩ := Prod.mk.inj (Option.some.inj h)
    intro c hc
    simpa using List.mem_takeWhile_imp hc

theorem next_cases (h : next text = some (token, rest)) :
    ∃ c tail, text.dropWhile isWhitespace = c :: tail ∧ isWhitespace c = false ∧
      token = c :: tail.takeWhile (fun c => !isWhitespace c) ∧
      rest = tail.dropWhile fun c => !isWhitespace c := by
  unfold next at h
  split at h
  next => simp at h
  next c tail hd =>
    have hc : isWhitespace c = false := by
      have hhead := List.head_dropWhile_not isWhitespace (l := text) (by simp [hd])
      simpa [hd] using hhead
    obtain ⟨rfl, rfl⟩ := Prod.mk.inj (Option.some.inj h)
    exact ⟨c, tail, hd, hc, by simp [hc], by simp [hc]⟩

theorem next_token (h : next text = some (token, rest)) : Token token := by
  obtain ⟨c, tail, -, hc, rfl, -⟩ := next_cases h
  refine ⟨by simp, fun d hd => ?_⟩
  rcases List.mem_cons.mp hd with rfl | hd
  · exact hc
  · simpa using List.mem_takeWhile_imp hd

theorem next_length (h : next text = some (token, rest)) : rest.length < text.length := by
  obtain ⟨c, tail, hd, -, -, rfl⟩ := next_cases h
  have hle := dropWhile_length_le isWhitespace text
  have htail := dropWhile_length_le (fun c => !isWhitespace c) tail
  rw [hd, List.length_cons] at hle
  omega

theorem Reads.length_lt {piece : Text} (h : Reads text piece rest) : rest.length < text.length := by
  obtain hline | htoken := h
  · exact nextLine_length hline
  · exact next_length htoken

/-- A line is read back up to its separator. -/
theorem nextLine_append (sys : Platform) (h : Line line) (rest : Text) :
    nextLine (line ++ (lineSeparator sys ++ rest)) = some (line, rest) := by
  have hline : ∀ c ∈ line, (!isLineSeparator c) = true := fun c hc => by simp [h c hc]
  unfold nextLine
  rw [List.takeWhile_append_of_pos hline, List.dropWhile_append_of_pos hline]
  cases sys with
  | unix => simp [lineSeparator, dropSeparator, isLineSeparator]
  | windows => simp [lineSeparator, dropSeparator, isLineSeparator]

theorem next_append (h : Token token) (hc : isWhitespace c = true) (rest : Text) :
    next (token ++ c :: rest) = some (token, c :: rest) := by
  obtain ⟨d, tail, rfl⟩ := List.exists_cons_of_ne_nil h.1
  have hd := h.2 d (by simp)
  have htoken : ∀ e ∈ d :: tail, (!isWhitespace e) = true := fun e he => by simp [h.2 e he]
  have hdrop : (d :: tail ++ c :: rest).dropWhile isWhitespace = d :: (tail ++ c :: rest) := by
    simp [hd]
  unfold next
  rw [hdrop]
  have hback : (d :: tail ++ c :: rest).takeWhile (fun e => !isWhitespace e) =
      d :: tail ++ (c :: rest).takeWhile fun e => !isWhitespace e :=
    List.takeWhile_append_of_pos htoken
  have hbehind : (d :: tail ++ c :: rest).dropWhile (fun e => !isWhitespace e) =
      (c :: rest).dropWhile fun e => !isWhitespace e := List.dropWhile_append_of_pos htoken
  simp only [List.cons_append] at hback hbehind
  simp [hback, hbehind, hc]

theorem next_space (hc : isWhitespace c = true) : next (c :: text) = next text := by
  unfold next
  simp [hc]

theorem nextLine_behind {tail : Text} (h : next text = some (token, rest))
    (hl : nextLine rest = some (c :: line, tail)) : isWhitespace c = true := by
  obtain ⟨-, front, -, -, -, hrest⟩ := next_cases h
  unfold nextLine at hl
  split at hl
  next => simp at hl
  next hne =>
    obtain ⟨d, behind, rfl⟩ := List.exists_cons_of_ne_nil hne
    have hd := List.head_dropWhile_not (fun c => !isWhitespace c) (l := front) (by simp [← hrest])
    have hd : isWhitespace d = true := by simpa [← hrest] using hd
    obtain ⟨hline, -⟩ := Prod.mk.inj (Option.some.inj hl)
    rw [List.takeWhile_cons] at hline
    split at hline
    next =>
      obtain ⟨rfl, -⟩ := List.cons.inj hline
      exact hd
    next => simp at hline

/-- How many lines there are to be read. -/
def lines : Text → Nat
  | [] => 0
  | c :: rest =>
    if isLineSeparator c then
      if c = 13 ∧ rest.head? = some 10 then lines rest else lines rest + 1
    else max 1 (lines rest)

theorem lines_le_cons (c : UInt16) (text : Text) : lines text ≤ lines (c :: text) := by
  rw [lines]
  split
  next =>
    split
    next => exact le_refl _
    next => omega
  next => omega

theorem lines_pos (h : text ≠ []) : 1 ≤ lines text := by
  induction text with
  | nil => exact absurd rfl h
  | cons c text ih =>
    rw [lines]
    split
    next =>
      split
      next he =>
        apply ih
        rintro rfl
        simp at he
      next => omega
    next => omega

theorem lines_le_append (front text : Text) : lines text ≤ lines (front ++ text) := by
  induction front with
  | nil => exact le_refl _
  | cons c front ih => exact le_trans ih (lines_le_cons c (front ++ text))

theorem lines_dropSeparator (hc : isLineSeparator c = true) :
    lines (dropSeparator (c :: text)) + 1 ≤ lines (c :: text) := by
  unfold dropSeparator
  split
  next he =>
    obtain ⟨rfl, rfl⟩ := List.cons.inj he
    simp [lines, isLineSeparator]
  next hne he =>
    obtain ⟨rfl, rfl⟩ := List.cons.inj he
    rw [lines, if_pos hc]
    split
    next hcr =>
      obtain ⟨rfl, hhead⟩ := hcr
      obtain ⟨tail, rfl⟩ := List.head?_eq_some_iff.mp hhead
      exact (hne tail rfl rfl).elim
    next => exact le_refl _
  next he => simp at he

theorem nextLine_lines (h : nextLine text = some (line, rest)) : lines rest + 1 ≤ lines text := by
  unfold nextLine at h
  split at h
  next => simp at h
  next hne =>
    obtain ⟨-, rfl⟩ := Prod.mk.inj (Option.some.inj h)
    have hle := lines_le_append (text.takeWhile fun c => !isLineSeparator c)
      (text.dropWhile fun c => !isLineSeparator c)
    rw [List.takeWhile_append_dropWhile] at hle
    cases hd : text.dropWhile fun c => !isLineSeparator c with
    | nil =>
      have hpos := lines_pos hne
      simpa [dropSeparator, lines] using hpos
    | cons c tail =>
      have hc : isLineSeparator c = true := by
        have hhead := List.head_dropWhile_not (fun c => !isLineSeparator c) (l := text)
          (by simp [hd])
        simpa [hd] using hhead
      have hsep : lines (dropSeparator (c :: tail)) + 1 ≤ lines (c :: tail) :=
        lines_dropSeparator hc
      rw [hd] at hle
      omega

theorem token_ne_return (hc : isWhitespace c = false) : c ≠ 13 := by
  rintro rfl
  simp [isWhitespace] at hc

theorem lines_token (h : ∀ c ∈ token, isWhitespace c = false) (rest : Text) :
    token.countP isLineSeparator + lines rest ≤ lines (token ++ rest) := by
  induction token with
  | nil => simp
  | cons c token ih =>
    have htail := ih fun d hd => h d (List.mem_cons_of_mem c hd)
    have hne := token_ne_return (h c List.mem_cons_self)
    rw [List.cons_append, lines, List.countP_cons]
    by_cases hc : isLineSeparator c = true
    · simp only [hc, hne, false_and, if_true, if_false]
      omega
    · simp only [hc, Bool.false_eq_true, if_false]
      omega

theorem next_lines (h : next text = some (token, rest)) :
    token.countP isLineSeparator + lines rest ≤ lines text := by
  obtain ⟨c, tail, hd, hc, rfl, rfl⟩ := next_cases h
  have hle := lines_le_append (text.takeWhile isWhitespace) (text.dropWhile isWhitespace)
  rw [List.takeWhile_append_dropWhile, hd] at hle
  have htoken := lines_token (next_token h).2 (tail.dropWhile fun c => !isWhitespace c)
  rw [List.cons_append, List.takeWhile_append_dropWhile] at htoken
  omega

theorem Line.countP (h : Line line) : line.countP isLineSeparator = 0 :=
  List.countP_eq_zero.mpr fun c hc => by simp [h c hc]

theorem Line.ne_return (h : Line line) : ∀ c ∈ line, c ≠ 13 := by
  rintro c hc rfl
  have hsep := h 13 hc
  simp [isLineSeparator] at hsep

theorem lines_append (sys : Platform) (h : ∀ c ∈ line, c ≠ 13) (rest : Text) :
    lines (line ++ (lineSeparator sys ++ rest)) = line.countP isLineSeparator + 1 + lines rest := by
  induction line with
  | nil =>
    cases sys with
    | unix => simp [lineSeparator, lines, isLineSeparator, Nat.add_comm]
    | windows => simp [lineSeparator, lines, isLineSeparator, Nat.add_comm]
  | cons c line ih =>
    have htail := ih fun d hd => h d (List.mem_cons_of_mem c hd)
    have hne := h c List.mem_cons_self
    rw [List.cons_append, lines, List.countP_cons]
    by_cases hc : isLineSeparator c = true
    · simp only [hc, hne, false_and, if_true, if_false]
      omega
    · simp only [hc, Bool.false_eq_true, if_false]
      omega

end Scanner

end TcpAndParallel
