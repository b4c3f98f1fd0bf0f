import TcpAndParallel.Scanner

namespace TcpAndParallel

namespace Scanner

def isHighSurrogate (c : UInt16) : Bool := 0xD800 ≤ c.toNat && c.toNat < 0xDC00

def isLowSurrogate (c : UInt16) : Bool := 0xDC00 ≤ c.toNat && c.toNat < 0xE000

def NoSurrogate (c : UInt16) : Prop := isHighSurrogate c = false ∧ isLowSurrogate c = false

instance (c : UInt16) : Decidable (NoSurrogate c) := instDecidableAnd

/-- A character is a pair of surrogates or a code unit by itself. What has no bytes is replaced. -/
def transcode (maps : Text → Bool) (replacement : UInt16) : Text → Text
  | [] => []
  | [c] => [if maps [c] then c else replacement]
  | c :: d :: rest =>
    if isHighSurrogate c && isLowSurrogate d then
      if maps [c, d] then c :: d :: transcode maps replacement rest
      else replacement :: transcode maps replacement rest
    else (if maps [c] then c else replacement) :: transcode maps replacement (d :: rest)

/-- The default charset of the platform, in which a file is written and read. -/
structure Charset where
  encode : Text → List UInt8
  decode : List UInt8 → Text

/-- What the library says of a charset: the characters that it maps are read back, ASCII among
them, and for the others there is a replacement. -/
structure Charset.Lawful (cs : Charset) (maps : Text → Bool) (replacement : UInt16) : Prop where
  reads_back : ∀ text, cs.decode (cs.encode text) = transcode maps replacement text
  ascii : ∀ c : UInt16, c.toNat < 128 → maps [c] = true
  replacement_maps : maps [replacement] = true
  replacement_single : NoSurrogate replacement

/-- Every character of the text has its bytes. -/
def Mapped (maps : Text → Bool) (replacement : UInt16) (text : Text) : Prop :=
  transcode maps replacement text = text

section Transcode

variable {maps : Text → Bool} {replacement : UInt16} {s t text piece rest : Text} {c d : UInt16}

theorem transcode_cons (h : ∀ d ∈ t.head?, (isHighSurrogate c && isLowSurrogate d) = false) :
    transcode maps replacement (c :: t) =
      (if maps [c] then c else replacement) :: transcode maps replacement t := by
  cases t with
  | nil => rfl
  | cons d t =>
    rw [transcode, if_neg]
    simpa using h d rfl

theorem transcode_single (hc : NoSurrogate c) (t : Text) : transcode maps replacement (c :: t) =
    (if maps [c] then c else replacement) :: transcode maps replacement t :=
  transcode_cons fun d _ => by simp [hc.1]

/-- A code unit that is no surrogate parts what is before it from what is behind it. -/
theorem transcode_append (hc : NoSurrogate c) (s t : Text) :
    transcode maps replacement (s ++ c :: t) = transcode maps replacement s ++
      (if maps [c] then c else replacement) :: transcode maps replacement t := by
  have hcons : transcode maps replacement (c :: t) = _ := transcode_single hc t
  induction s using transcode.induct maps with
  | case1 => exact hcons
  | case2 a =>
    rw [List.singleton_append, transcode_cons fun d hd => ?_, hcons]
    · rfl
    · obtain rfl : c = d := by simpa using hd
      simp [hc.2]
  | case3 a d rest hpair hm ih => simp [transcode, hpair, hm, ih]
  | case4 a d rest hpair hm ih => simp [transcode, hpair, hm, ih]
  | case5 a d rest hpair ih =>
    simp only [List.cons_append] at ih ⊢
    simp [transcode, hpair, ih]

theorem transcode_length (text : Text) :
    (transcode maps replacement text).length ≤ text.length := by
  induction text using transcode.induct maps with
  | case1 => exact le_refl _
  | case2 a => exact le_refl _
  | case3 a d rest hpair hm ih => simpa [transcode, hpair, hm] using ih
  | case4 a d rest hpair hm ih =>
    simp only [transcode, hpair, hm, if_true, Bool.false_eq_true, if_false, List.length_cons]
    omega
  | case5 a d rest hpair ih => simpa [transcode, hpair] using ih

theorem transcode_head (text : Text) (hd : d ∈ (transcode maps replacement text).head?) :
    d = replacement ∨ d ∈ text.head? := by
  cases text using transcode.fun_cases maps with
  | case1 => simp [transcode] at hd
  | case2 a =>
    have he : (if maps [a] then a else replacement) = d := by simpa [transcode] using hd
    split at he
    next => exact .inr (by simp [he])
    next => exact .inl he.symm
  | case3 a d' rest hpair hm => exact .inr (by simpa [transcode, hpair, hm] using hd)
  | case4 a d' rest hpair hm => exact .inl (by simpa [transcode, hpair, hm, eq_comm] using hd)
  | case5 a d' rest hpair =>
    have he : (if maps [a] then a else replacement) = d := by simpa [transcode, hpair] using hd
    split at he
    next => exact .inr (by simp [he])
    next => exact .inl he.symm

/-- What has been read back is read back again. -/
theorem transcode_mapped (hr : maps [replacement] = true) (single : NoSurrogate replacement)
    (text : Text) : Mapped maps replacement (transcode maps replacement text) := by
  unfold Mapped
  induction text using transcode.induct maps with
  | case1 => rfl
  | case2 a =>
    by_cases ha : maps [a] = true
    · simp [transcode, ha]
    · simp [transcode, ha]
  | case3 a d rest hpair hm ih => simp [transcode, hpair, hm, ih]
  | case4 a d rest hpair hm ih =>
    simp only [transcode, hpair, hm, if_true, Bool.false_eq_true, if_false]
    rw [transcode_single single, if_pos hr, ih]
  | case5 a d rest hpair ih =>
    rw [transcode, if_neg (by simpa using hpair)]
    by_cases ha : maps [a] = true
    · rw [if_pos ha, transcode_cons fun e he => ?_, if_pos ha, ih]
      obtain rfl | he := transcode_head (d :: rest) he
      · simp [single.2]
      · obtain rfl : d = e := by simpa using he
        simpa using hpair
    · rw [if_neg ha, transcode_single single, if_pos hr, ih]

theorem mapped_append (hc : NoSurrogate c) : Mapped maps replacement (s ++ c :: t) ↔
    Mapped maps replacement s ∧ (if maps [c] then c else replacement) = c ∧
      Mapped maps replacement t := by
  unfold Mapped
  rw [transcode_append hc]
  constructor
  · intro h
    have hlen := congrArg List.length h
    have hs : (transcode maps replacement s).length ≤ _ := transcode_length s
    have ht : (transcode maps replacement t).length ≤ _ := transcode_length t
    simp only [List.length_append, List.length_cons] at hlen
    obtain ⟨hs, htail⟩ := List.append_inj h (by omega)
    obtain ⟨hc, ht⟩ := List.cons.inj htail
    exact ⟨hs, hc, ht⟩
  · rintro ⟨hs, hc, ht⟩
    rw [hs, hc, ht]

theorem mapped_cons (hc : NoSurrogate c) : Mapped maps replacement (c :: t) ↔
    (if maps [c] then c else replacement) = c ∧ Mapped maps replacement t := by
  have hcut : Mapped maps replacement ([] ++ c :: t) ↔ _ := mapped_append hc
  simpa [Mapped, transcode] using hcut

theorem noSurrogate_of_mem {cs : List Nat} (h : c.toNat ∈ cs)
    (hcs : ∀ n ∈ cs, n < 0xD800) : NoSurrogate c := by
  have hlt := hcs _ h
  simp [NoSurrogate, isHighSurrogate, isLowSurrogate]
  omega

theorem noSurrogate_of_lineSeparator (h : isLineSeparator c = true) : NoSurrogate c :=
  noSurrogate_of_mem (of_decide_eq_true h) (by decide)

theorem noSurrogate_of_whitespace (h : isWhitespace c = true) : NoSurrogate c :=
  noSurrogate_of_mem (of_decide_eq_true h) (by decide)

theorem Mapped.dropWhile (h : Mapped maps replacement text) :
    Mapped maps replacement (text.dropWhile isWhitespace) := by
  induction text with
  | nil => exact h
  | cons c text ih =>
    rw [List.dropWhile_cons]
    split
    next hc => exact ih ((mapped_cons (noSurrogate_of_whitespace hc)).mp h).2
    next => exact h

theorem Mapped.nextLine (h : Mapped maps replacement text)
    (hline : nextLine text = some (piece, rest)) :
    Mapped maps replacement piece ∧ Mapped maps replacement rest := by
  unfold Scanner.nextLine at hline
  split at hline
  next => simp at hline
  next =>
    obtain ⟨rfl, rfl⟩ := Prod.mk.inj (Option.some.inj hline)
    have hcut := text.takeWhile_append_dropWhile (p := fun c => !isLineSeparator c)
    cases hd : text.dropWhile fun c => !isLineSeparator c with
    | nil =>
      rw [hd, List.append_nil] at hcut
      rw [hcut]
      exact ⟨h, rfl⟩
    | cons c tail =>
      have hc : isLineSeparator c = true := by
        have hhead := List.head_dropWhile_not (fun c => !isLineSeparator c) (l := text)
          (by simp [hd])
        simpa [hd] using hhead
      rw [hd] at hcut
      rw [← hcut] at h
      obtain ⟨hpiece, -, htail⟩ := (mapped_append (noSurrogate_of_lineSeparator hc)).mp h
      refine ⟨hpiece, ?_⟩
      unfold dropSeparator
      split
      next he =>
        obtain ⟨-, rfl⟩ := List.cons.inj he
        exact ((mapped_cons (by decide)).mp htail).2
      next he =>
        obtain ⟨-, rfl⟩ := List.cons.inj he
        exact htail
      next he => simp at he

theorem Mapped.next (h : Mapped maps replacement text) (htoken : next text = some (piece, rest)) :
    Mapped maps replacement piece ∧ Mapped maps replacement rest := by
  obtain ⟨c, tail, hdrop, hc, rfl, rfl⟩ := next_cases htoken
  have hmapped := h.dropWhile
  have hcut := tail.takeWhile_append_dropWhile (p := fun c => !isWhitespace c)
  rw [hdrop, ← hcut] at hmapped
  cases hd : tail.dropWhile fun c => !isWhitespace c with
  | nil =>
    rw [hd, List.append_nil] at hmapped
    exact ⟨hmapped, rfl⟩
  | cons w ws =>
    have hw : isWhitespace w = true := by
      have hhead := List.head_dropWhile_not (fun c => !isWhitespace c) (l := tail) (by simp [hd])
      simpa [hd] using hhead
    have hsingle := noSurrogate_of_whitespace hw
    rw [hd, ← List.cons_append] at hmapped
    obtain ⟨hpiece, hws, hrest⟩ := (mapped_append hsingle).mp hmapped
    exact ⟨hpiece, (mapped_cons hsingle).mpr ⟨hws, hrest⟩⟩

theorem Mapped.reads (h : Mapped maps replacement text) (hr : Reads text piece rest) :
    Mapped maps replacement piece ∧ Mapped maps replacement rest := by
  obtain hline | htoken := hr
  · exact h.nextLine hline
  · exact h.next htoken

end Transcode

section Latin1

/-- ISO-8859-1, in which a code unit below 256 is its own byte. -/
def latin1Maps (character : Text) : Bool :=
  match character with
  | [c] => c.toNat < 256
  | _ => false

def latin1 : Charset where
  encode text := (transcode latin1Maps 63 text).map fun c => c.toUInt8
  decode bytes := bytes.map fun c => c.toUInt16

theorem latin1_byte (text : Text) : ∀ c ∈ transcode latin1Maps 63 text, c.toNat < 256 := by
  have hsingle : ∀ a : UInt16, (if latin1Maps [a] then a else 63).toNat < 256 := by
    intro a
    split
    next ha => simpa [latin1Maps] using ha
    next => decide
  induction text using transcode.induct latin1Maps with
  | case1 => simp [transcode]
  | case2 a => simpa [transcode] using hsingle a
  | case3 a d rest hpair hm ih => simp [latin1Maps] at hm
  | case4 a d rest hpair hm ih => simpa [transcode, hpair, hm] using ih
  | case5 a d rest hpair ih =>
    rw [transcode, if_neg (by simpa using hpair)]
    exact List.forall_mem_cons.mpr ⟨hsingle a, ih⟩

theorem latin1_lawful : latin1.Lawful latin1Maps 63 where
  reads_back text := by
    change List.map UInt8.toUInt16 (List.map UInt16.toUInt8 (transcode latin1Maps 63 text)) = _
    rw [List.map_map]
    refine (List.map_congr_left fun c hc => ?_).trans (List.map_id _)
    have hlt := latin1_byte text c hc
    apply UInt16.toNat_inj.mp
    simp [Nat.mod_eq_of_lt hlt]
  ascii c hc := by simp [latin1Maps]; omega
  replacement_maps := by decide
  replacement_single := by decide

end Latin1

end Scanner

end TcpAndParallel
