import TcpAndParallel.CStrings

namespace TcpAndParallel

namespace Pipes

open CStrings

def messageSize : Nat := 256

structure Message where
  text : List UInt8
  noNul : 0 ∉ text
  short : text.length < messageSize

/-- The results of `write`: some bytes, one more than the number, as far as there are so many;
`EINTR`; or another error. -/
inductive WriteResult
  | wrote (more : Nat)
  | interrupted
  | failed
  deriving DecidableEq

/-- The loop of `writeLine` on the bytes that are left; yields what went into the pipe and the value
returned. `none` says that the results listed do not bring the loop to its end. -/
def writeLoop (n : Nat) : List WriteResult → List UInt8 → Option (List UInt8 × Int)
  | _, [] => some ([], n)
  | [], _ :: _ => none
  | .wrote more :: results, buffer =>
    (writeLoop n results (buffer.drop (more + 1))).map fun (written, ret) =>
      (buffer.take (more + 1) ++ written, ret)
  | .interrupted :: results, buffer => writeLoop n results buffer
  | .failed :: _, _ => some ([], -1)

def writeLine (results : List WriteResult) (buffer : List UInt8) : Option (List UInt8 × Int) :=
  writeLoop buffer.length results buffer

/-- A text and its NUL are written over the start of the buffer. -/
def sprintf (message : List UInt8) (m : Message) : List UInt8 :=
  m.text ++ 0 :: message.drop (m.text.length + 1)

/-- The bytes that go into the pipe when the messages are sent from one buffer, each with the results
of its writes. -/
def sendAll : List UInt8 → List (Message × List WriteResult) → Option (List UInt8)
  | _, [] => some []
  | message, (m, results) :: sends => do
    let (written, _) ← writeLine results (sprintf message m)
    let rest ← sendAll (sprintf message m) sends
    some (written ++ rest)

/-- The results of `read` for one byte, which waits for it; `EINTR`; or another error. -/
inductive ReadResult
  | delivered
  | interrupted
  | failed
  deriving DecidableEq

/-- What a call of `readLine` returns, what it has put into the buffer if it has ended it with a NUL,
and the bytes left in the pipe. -/
structure Line where
  ret : Int
  buffer : Option (List UInt8)
  rest : List UInt8
  deriving DecidableEq

/-- The `for` loop of `readLine` with so many rounds left. No byte is left in the pipe only if the
writers are gone. -/
def readLoop (maxlen : Nat) : Nat → List ReadResult → List UInt8 → List UInt8 → Line
  | 0, _, pipe, buffer => ⟨maxlen, some buffer, pipe⟩
  | left + 1, results, pipe, buffer =>
    match results.headD .delivered with
    | .delivered =>
      match pipe with
      | c :: pipe =>
        if c = 10 then ⟨maxlen - (left + 1), some (buffer ++ [c]), pipe⟩
        else readLoop maxlen left results.tail pipe (buffer ++ [c])
      | [] => if left + 2 = maxlen then ⟨0, none, []⟩ else ⟨maxlen - (left + 1), some buffer, []⟩
    | .interrupted => readLoop maxlen left results.tail pipe buffer
    | .failed => ⟨-1, none, pipe⟩

def readLine (maxlen : Nat) (results : List ReadResult) (pipe : List UInt8) : Line :=
  readLoop maxlen (maxlen - 1) results pipe []

/-- The texts that successive calls find, each call with the results of its reads. -/
def receiveAll : List (List ReadResult) → List UInt8 → List (Option (List UInt8))
  | [], _ => []
  | results :: calls, pipe =>
    (readLine messageSize results pipe).buffer.map text ::
      receiveAll calls (readLine messageSize results pipe).rest

def unread (calls : List (List ReadResult)) (pipe : List UInt8) : List UInt8 :=
  calls.foldl (fun pipe results => (readLine messageSize results pipe).rest) pipe

/-- Whatever is in the buffer at first, and in whatever pieces and with whatever interruptions the
writes and reads go, each message is received by one call. -/
def Frames (messages : List Message) : Prop :=
  ∀ message sends calls pipe, message.length = messageSize → sends.map Prod.fst = messages →
    (∀ send ∈ sends, .failed ∉ send.2) → calls.length = messages.length →
    (∀ results ∈ calls, .failed ∉ results) → sendAll message sends = some pipe →
    receiveAll calls pipe = messages.map fun m => some m.text

/-- No newline stands before the end of the text, and the interruptions leave a round of the loop for
each of its bytes. -/
def Fits (m : Message) (results : List ReadResult) : Prop :=
  10 ∉ m.text.dropLast ∧ m.text.length + (results.take (messageSize - 1)).count .interrupted ≤ messageSize - 1

def blocks : List UInt8 → List Message → List UInt8
  | _, [] => []
  | message, m :: messages => sprintf message m ++ blocks (sprintf message m) messages

theorem sprintf_length {message : List UInt8} (h : message.length = messageSize) (m : Message) :
    (sprintf message m).length = messageSize := by
  have short := m.short
  simp only [sprintf, List.length_append, List.length_cons, List.length_drop, h]
  omega

theorem blocks_length {message : List UInt8} (h : message.length = messageSize)
    (messages : List Message) : (blocks message messages).length = messageSize * messages.length := by
  induction messages generalizing message with
  | nil => rfl
  | cons m messages ih =>
    rw [blocks, List.length_append, ih (sprintf_length h m), sprintf_length h m, List.length_cons,
      Nat.mul_succ, Nat.add_comm]

theorem writeLoop_spec {n : Nat} {results : List WriteResult} {buffer written : List UInt8}
    {ret : Int} (h : writeLoop n results buffer = some (written, ret)) (ok : .failed ∉ results) :
    written = buffer ∧ ret = n := by
  induction results generalizing buffer written with
  | nil =>
    cases buffer with
    | nil => simpa [writeLoop, eq_comm] using h
    | cons b buffer => simp [writeLoop] at h
  | cons result results ih =>
    have rest : .failed ∉ results := fun hm => ok (List.mem_cons_of_mem _ hm)
    cases buffer with
    | nil => simpa [writeLoop, eq_comm] using h
    | cons b buffer =>
      cases result with
      | wrote more =>
        obtain ⟨⟨tail, r⟩, htail, he⟩ := Option.map_eq_some_iff.mp h
        obtain ⟨rfl, rfl⟩ := Prod.mk.inj he
        obtain ⟨rfl, hr⟩ := ih htail rest
        exact ⟨List.take_append_drop _ _, hr⟩
      | interrupted => exact ih h rest
      | failed => exact absurd List.mem_cons_self ok

theorem sendAll_spec {message pipe : List UInt8} {sends : List (Message × List WriteResult)}
    (h : sendAll message sends = some pipe) (ok : ∀ send ∈ sends, .failed ∉ send.2) :
    pipe = blocks message (sends.map Prod.fst) := by
  induction sends generalizing message pipe with
  | nil => exact (Option.some.inj h).symm
  | cons send sends ih =>
    obtain ⟨⟨written, ret⟩, hw, h⟩ := Option.bind_eq_some_iff.mp h
    obtain ⟨rest, hrest, h⟩ := Option.bind_eq_some_iff.mp h
    obtain rfl := Option.some.inj h
    obtain ⟨rfl, -⟩ := writeLoop_spec hw (ok send List.mem_cons_self)
    rw [ih hrest fun s hs => ok s (List.mem_cons_of_mem _ hs)]
    rfl

theorem sendAll_at_once {message : List UInt8} (h : message.length = messageSize)
    (messages : List Message) :
    sendAll message (messages.map fun m => (m, [.wrote messageSize])) =
      some (blocks message messages) := by
  induction messages generalizing message with
  | nil => rfl
  | cons m messages ih =>
    have length := sprintf_length h m
    have full : writeLine [.wrote messageSize] (sprintf message m) =
        some (sprintf message m, ((sprintf message m).length : Int)) := by
      cases hs : sprintf message m with
      | nil => simp [hs, messageSize] at length
      | cons b buffer =>
        rw [hs] at length
        simp only [writeLine, writeLoop]
        rw [List.drop_eq_nil_of_le (by omega), List.take_of_length_le (by omega)]
        simp [writeLoop]
    simp only [List.map_cons, sendAll, full]
    rw [ih length]
    rfl

theorem readLoop_interrupted (maxlen left : Nat) (pipe buffer : List UInt8) :
    readLoop maxlen left (List.replicate left .interrupted) pipe buffer =
      ⟨maxlen, some buffer, pipe⟩ := by
  induction left with
  | zero => rfl
  | succ left ih => exact ih

theorem readLoop_plain {maxlen left : Nat} {pipe : List UInt8} (buffer : List UInt8)
    (plain : 10 ∉ pipe) (enough : left ≤ pipe.length) :
    readLoop maxlen left [] pipe buffer = ⟨maxlen, some (buffer ++ pipe.take left), pipe.drop left⟩ := by
  induction left generalizing pipe buffer with
  | zero => simp [readLoop]
  | succ left ih =>
    cases pipe with
    | nil => simp at enough
    | cons c pipe =>
      have hc : c ≠ 10 := fun he => plain (he ▸ List.mem_cons_self)
      have step : readLoop maxlen (left + 1) [] (c :: pipe) buffer =
          readLoop maxlen left [] pipe (buffer ++ [c]) := if_neg hc
      rw [step, ih (buffer ++ [c]) (fun hm => plain (List.mem_cons_of_mem c hm))
        (Nat.le_of_succ_le_succ enough)]
      simp

theorem readLoop_rest_length (maxlen left : Nat) (results : List ReadResult) (pipe buffer : List UInt8) :
    pipe.length ≤ (readLoop maxlen left results pipe buffer).rest.length + left := by
  induction left generalizing results pipe buffer with
  | zero => exact le_rfl
  | succ left ih =>
    cases hr : results.headD .delivered with
    | delivered =>
      cases pipe with
      | nil => exact Nat.zero_le _
      | cons c pipe =>
        simp only [readLoop, hr, List.length_cons]
        split
        · simp only
          omega
        · have hle := ih results.tail pipe (buffer ++ [c])
          omega
    | interrupted =>
      simp only [readLoop, hr]
      have hle := ih results.tail pipe buffer
      omega
    | failed =>
      simp only [readLoop, hr]
      omega

theorem unread_length (calls : List (List ReadResult)) (pipe : List UInt8) :
    pipe.length ≤ (unread calls pipe).length + (messageSize - 1) * calls.length := by
  induction calls generalizing pipe with
  | nil => exact le_rfl
  | cons results calls ih =>
    have hline := readLoop_rest_length messageSize (messageSize - 1) results pipe []
    have hrest := ih (readLine messageSize results pipe).rest
    rw [List.length_cons, Nat.mul_succ]
    unfold unread at hrest ⊢
    rw [List.foldl_cons]
    unfold readLine at hrest ⊢
    omega

theorem headD_ne_failed {results : List ReadResult} (ok : .failed ∉ results) :
    results.headD .delivered ≠ .failed := by
  cases results with
  | nil => simp
  | cons result results =>
    intro he
    exact ok (List.mem_cons.mpr (.inl he.symm))

theorem readLoop_append {maxlen left : Nat} {results : List ReadResult} (pipe buffer : List UInt8)
    (ok : .failed ∉ results) (late : left + 2 ≤ maxlen) :
    ∃ more, (readLoop maxlen left results pipe buffer).buffer = some (buffer ++ more) := by
  induction left generalizing results pipe buffer with
  | zero => exact ⟨[], by simp [readLoop]⟩
  | succ left ih =>
    have rest : .failed ∉ results.tail := fun hm => ok (List.mem_of_mem_tail hm)
    cases hr : results.headD .delivered with
    | delivered =>
      cases pipe with
      | nil =>
        refine ⟨[], ?_⟩
        simp only [readLoop, hr]
        rw [if_neg (by omega), List.append_nil]
      | cons c pipe =>
        simp only [readLoop, hr]
        split
        next => exact ⟨[c], rfl⟩
        next =>
          obtain ⟨more, hm⟩ := ih pipe (buffer ++ [c]) rest (by omega)
          exact ⟨c :: more, by rw [hm, List.append_assoc, List.singleton_append]⟩
    | interrupted =>
      simp only [readLoop, hr]
      exact ih pipe buffer rest (by omega)
    | failed => exact absurd hr (headD_ne_failed ok)

theorem count_take_delivered {left : Nat} {results : List ReadResult}
    (read : results.headD .delivered = .delivered) :
    (results.take (left + 1)).count .interrupted = (results.tail.take left).count .interrupted := by
  cases results with
  | nil => simp
  | cons result results =>
    obtain rfl : result = .delivered := read
    simp

theorem count_take_interrupted {left : Nat} {results : List ReadResult}
    (wait : results.headD .delivered = .interrupted) :
    (results.take (left + 1)).count .interrupted = (results.tail.take left).count .interrupted + 1 := by
  cases results with
  | nil => simp at wait
  | cons result results =>
    obtain rfl : result = .interrupted := wait
    simp

/-- The text in front of a NUL is found if no newline ends the line before it and there are rounds
enough for it beside the interruptions. -/
theorem readLoop_text_iff {maxlen left : Nat} {results : List ReadResult} {line buffer : List UInt8}
    (pipe : List UInt8) (noNul : 0 ∉ line) (noNul' : 0 ∉ buffer) (ok : .failed ∉ results)
    (late : left + 1 ≤ maxlen) :
    (readLoop maxlen left results (line ++ 0 :: pipe) buffer).buffer.map text = some (buffer ++ line) ↔
      10 ∉ line.dropLast ∧ line.length + (results.take left).count .interrupted ≤ left := by
  induction left generalizing results line buffer with
  | zero =>
    simp only [readLoop, Option.map_some, text_eq_self noNul', Option.some.injEq, List.self_eq_append_right,
      List.take_zero, List.count_nil, Nat.add_zero, Nat.le_zero, List.length_eq_zero_iff]
    constructor
    · rintro rfl
      exact ⟨List.not_mem_nil, rfl⟩
    · exact fun h => h.2
  | succ left ih =>
    have rest : .failed ∉ results.tail := fun hm => ok (List.mem_of_mem_tail hm)
    have hcount := List.count_le_length (a := ReadResult.interrupted) (l := results.tail.take left)
    have htake := List.length_take_le left results.tail
    cases hr : results.headD .delivered with
    | delivered =>
      rw [count_take_delivered hr]
      cases line with
      | nil =>
        obtain ⟨more, hm⟩ := readLoop_append pipe (buffer ++ [0]) rest late
        simp only [List.nil_append, readLoop, hr]
        rw [if_neg (by decide), hm, Option.map_some, List.append_assoc, List.singleton_append,
          text_append more noNul', List.append_nil]
        simp only [List.dropLast_nil, List.length_nil, true_iff]
        exact ⟨List.not_mem_nil, by omega⟩
      | cons c line =>
        obtain ⟨hc, noNul⟩ := not_or.mp (List.mem_cons.not.mp noNul)
        have noNul'' : 0 ∉ buffer ++ [c] := by simp [noNul', hc]
        simp only [List.cons_append, readLoop, hr]
        split
        next hnl =>
          rw [Option.map_some, text_eq_self noNul'', Option.some_inj, List.append_cancel_left_eq]
          cases line with
          | nil => simp; omega
          | cons c' line => simp [hnl]
        next hnl =>
          have hline := ih noNul noNul'' rest (by omega)
          rw [List.append_assoc, List.singleton_append] at hline
          rw [hline, List.length_cons]
          have hdrop : 10 ∉ (c :: line).dropLast ↔ 10 ∉ line.dropLast := by
            cases line with
            | nil => simp
            | cons c' line => simp [Ne.symm hnl]
          rw [hdrop]
          exact and_congr_right' (by omega)
    | interrupted =>
      rw [count_take_interrupted hr]
      simp only [readLoop, hr]
      rw [ih noNul noNul' rest (by omega)]
      exact and_congr_right' (by omega)
    | failed => exact absurd hr (headD_ne_failed ok)

theorem first_received_iff (message : List UInt8) (m : Message) (messages : List Message)
    {results : List ReadResult} (ok : .failed ∉ results) :
    (readLine messageSize results (blocks message (m :: messages))).buffer.map text = some m.text ↔
      Fits m results := by
  have hpipe : blocks message (m :: messages) = m.text ++ 0 ::
      (message.drop (m.text.length + 1) ++ blocks (sprintf message m) messages) := by
    rw [blocks]
    simp [sprintf]
  rw [hpipe]
  exact readLoop_text_iff _ m.noNul List.not_mem_nil ok (by decide)

/-- Where each byte is read and none ends a line, a call takes one byte less than was sent, so that
the calls fall behind the messages by a byte each. -/
theorem receiveAll_plain {pipe : List UInt8} (k : Nat) (plain : 10 ∉ pipe)
    (enough : messageSize * k ≤ pipe.length) :
    receiveAll (List.replicate k []) pipe = (List.range k).map fun i =>
      some (text ((pipe.drop ((messageSize - 1) * i)).take (messageSize - 1))) := by
  induction k generalizing pipe with
  | zero => rfl
  | succ k ih =>
    have line : readLine messageSize [] pipe = ⟨messageSize, some (pipe.take (messageSize - 1)),
        pipe.drop (messageSize - 1)⟩ :=
      readLoop_plain [] plain (by simp only [messageSize] at *; omega)
    have short : messageSize * k ≤ (pipe.drop (messageSize - 1)).length := by
      simp only [List.length_drop, messageSize] at *
      omega
    have rest := ih (fun hm => plain (List.mem_of_mem_drop hm)) short
    rw [List.replicate_succ, receiveAll, line, rest, List.range_succ_eq_map, List.map_cons,
      List.map_map]
    simp [Function.comp_def, List.drop_drop, Nat.mul_succ, Nat.add_comm]

theorem receiveAll_interrupted (k : Nat) (pipe : List UInt8) :
    receiveAll (List.replicate k (List.replicate (messageSize - 1) .interrupted)) pipe =
      List.replicate k (some []) := by
  induction k with
  | zero => rfl
  | succ k ih =>
    have line : readLine messageSize (List.replicate (messageSize - 1) .interrupted) pipe =
        ⟨messageSize, some [], pipe⟩ := readLoop_interrupted _ _ pipe []
    rw [List.replicate_succ, receiveAll, line, ih]
    rfl

theorem Frames.receive {messages : List Message} (h : Frames messages) {message : List UInt8}
    (length : message.length = messageSize) {calls : List (List ReadResult)}
    (count : calls.length = messages.length) (ok : ∀ results ∈ calls, .failed ∉ results) :
    receiveAll calls (blocks message messages) = messages.map fun m => some m.text :=
  h message _ calls _ length (by simp [Function.comp_def]) (by simp) count ok (sendAll_at_once length messages)

theorem Frames.text_eq_nil {messages : List Message} (h : Frames messages) :
    ∀ m ∈ messages, m.text = [] := by
  have received := h.receive (List.length_replicate (n := messageSize) (a := 0))
    (List.length_replicate (n := messages.length)
      (a := List.replicate (messageSize - 1) ReadResult.interrupted))
    (by simp)
  rw [receiveAll_interrupted] at received
  intro m hm
  have : some m.text ∈ List.replicate messages.length (some ([] : List UInt8)) := by
    rw [received]
    exact List.mem_map_of_mem hm
  simpa using (List.mem_replicate.mp this).2

theorem mem_blocks {message : List UInt8} {messages : List Message}
    (empty : ∀ m ∈ messages, m.text = []) {b : UInt8} (hb : b ∈ blocks message messages) :
    b = 0 ∨ b ∈ message := by
  induction messages generalizing message with
  | nil => simp [blocks] at hb
  | cons m messages ih =>
    have block : sprintf message m = 0 :: message.drop 1 := by
      simp [sprintf, empty m List.mem_cons_self]
    have inBlock : b ∈ sprintf message m → b = 0 ∨ b ∈ message := by
      intro hm
      rw [block] at hm
      rcases List.mem_cons.mp hm with he | hd
      · exact .inl he
      · exact .inr (List.mem_of_mem_drop hd)
    rcases List.mem_append.mp hb with hm | hm
    · exact inBlock hm
    · rcases ih (fun m' hm' => empty m' (List.mem_cons_of_mem m hm')) hm with he | hm
      · exact .inl he
      · exact inBlock hm

/-- The second call begins with the last byte of the first block, which the first call left in the
pipe. -/
theorem Frames.length_le {messages : List Message} (h : Frames messages) : messages.length ≤ 1 := by
  have empty := h.text_eq_nil
  by_contra two
  obtain ⟨m, m', rest, rfl⟩ : ∃ m m' rest, messages = m :: m' :: rest := by
    cases messages with
    | nil => simp at two
    | cons m messages =>
      cases messages with
      | nil => simp at two
      | cons m' rest => exact ⟨m, m', rest, rfl⟩
  have length : (List.replicate messageSize (65 : UInt8)).length = messageSize := List.length_replicate
  have plain : 10 ∉ blocks (List.replicate messageSize 65) (m :: m' :: rest) := by
    intro hm
    rcases mem_blocks empty hm with he | hr
    · exact absurd he (by decide)
    · exact absurd (List.mem_replicate.mp hr).2 (by decide)
  have count : (List.replicate (rest.length + 2) ([] : List ReadResult)).length =
      (m :: m' :: rest).length := List.length_replicate
  have received := h.receive length count (by simp)
  rw [receiveAll_plain _ plain (by rw [blocks_length length]; simp)] at received
  obtain ⟨k, hk⟩ : ∃ k, messageSize = k + 2 := ⟨254, rfl⟩
  have block : sprintf (List.replicate messageSize 65) m = (0 :: List.replicate k 65) ++ [65] := by
    rw [sprintf, empty m List.mem_cons_self, hk, List.replicate_succ, List.replicate_succ']
    rfl
  have left : (blocks (List.replicate messageSize 65) (m :: m' :: rest)).drop (messageSize - 1) =
      65 :: blocks (sprintf (List.replicate messageSize 65) m) (m' :: rest) := by
    rw [blocks, block, List.append_assoc]
    exact List.drop_left' (by simp [hk])
  have second := congrArg (fun l => l[1]?) received
  simp only [List.getElem?_map, List.getElem?_range (show 1 < rest.length + 2 by omega),
    Option.map_some, Nat.mul_one, left, List.getElem?_cons_succ, List.getElem?_cons_zero,
    empty m' (by simp)] at second
  rw [hk] at second
  simp [text] at second

theorem Fits.of_text_eq_nil {m : Message} (empty : m.text = []) (results : List ReadResult) :
    Fits m results := by
  have hcount := List.count_le_length (a := ReadResult.interrupted) (l := results.take (messageSize - 1))
  have htake := List.length_take_le (messageSize - 1) results
  unfold Fits
  rw [empty]
  refine ⟨List.not_mem_nil, ?_⟩
  simp only [List.length_nil]
  omega

/-- In any one run the first message is received if and only if it fits, and every later call begins
in front of the block of its message. -/
theorem receiveAll_run {message pipe : List UInt8} {sends : List (Message × List WriteResult)}
    {calls : List (List ReadResult)} (hsends : ∀ send ∈ sends, .failed ∉ send.2)
    (hcalls : ∀ results ∈ calls, .failed ∉ results) (hpipe : sendAll message sends = some pipe) :
    (∀ m results, (sends.map Prod.fst).head? = some m → calls.head? = some results →
      ((receiveAll calls pipe).head? = some (some m.text) ↔ Fits m results)) ∧
    ∀ k, 0 < k → pipe.length < (unread (calls.take k) pipe).length + messageSize * k := by
  constructor
  · intro m results hm hresults
    obtain ⟨messages, hmessages⟩ := List.head?_eq_some_iff.mp hm
    obtain ⟨calls, rfl⟩ := List.head?_eq_some_iff.mp hresults
    rw [sendAll_spec hpipe hsends, hmessages, receiveAll, List.head?_cons, Option.some_inj]
    exact first_received_iff message m messages (hcalls results List.mem_cons_self)
  · intro k hk
    have hle := unread_length (calls.take k) pipe
    have hlen := List.length_take_le k calls
    simp only [messageSize] at hle ⊢
    omega

/-- Only a single empty message is received however the pipe behaves: an interruption takes a round
from the call, and each call leaves a byte of its message to the next. -/
theorem frames_iff (messages : List Message) :
    (Frames messages ↔ messages.length ≤ 1 ∧ ∀ m ∈ messages, m.text = []) ∧
    ∀ message sends calls pipe, sends.map Prod.fst = messages →
      (∀ send ∈ sends, .failed ∉ send.2) → (∀ results ∈ calls, .failed ∉ results) →
      sendAll message sends = some pipe →
      (∀ m results, messages.head? = some m → calls.head? = some results →
        ((receiveAll calls pipe).head? = some (some m.text) ↔ Fits m results)) ∧
      ∀ k, 0 < k → pipe.length < (unread (calls.take k) pipe).length + messageSize * k := by
  refine ⟨⟨fun h => ⟨h.length_le, h.text_eq_nil⟩, ?_⟩, ?_⟩
  · rintro ⟨length, empty⟩
    intro message sends calls pipe _ hsends hok count hcalls hpipe
    have run := (receiveAll_run hok hcalls hpipe).1
    cases messages with
    | nil => rw [List.eq_nil_of_length_eq_zero count]; rfl
    | cons m messages =>
      obtain rfl : messages = [] := List.eq_nil_of_length_eq_zero (by simpa using length)
      obtain ⟨results, rfl⟩ := List.length_eq_one_iff.mp count
      have fits : Fits m results := .of_text_eq_nil (empty m List.mem_cons_self) results
      have first := (run m results (by rw [hsends]; rfl) rfl).mpr fits
      rw [receiveAll, receiveAll, List.head?_cons, Option.some_inj] at first
      rw [receiveAll, receiveAll, first]
      rfl
  · rintro message sends calls pipe rfl hok hcalls hpipe
    exact receiveAll_run hok hcalls hpipe

def digit (d : Fin 10) : Message where
  text := [48 + d.val.toUInt8]
  noNul := by revert d; decide
  short := by simp [messageSize]

/-- Of two descriptors that are sent from a buffer of zeros and read without an interruption the
second is received as an empty text. -/
theorem second_descriptor_lost : ¬Frames [digit 4, digit 5] := by
  intro h
  have received := h.receive (List.length_replicate (n := messageSize) (a := 0))
    (show [[], []].length = 2 from rfl) (by simp)
  exact absurd received (by decide +kernel)

end Pipes

end TcpAndParallel
