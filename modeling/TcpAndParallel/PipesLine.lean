import TcpAndParallel.CStrings
import TcpAndParallel.Pipes

namespace TcpAndParallel

namespace Pipes

open CStrings

/-- What the caller is told of a line: its length, its bytes before a NUL, and the bytes behind it
left in the pipe. -/
def Reads (maxlen : Nat) (results : List ReadResult) (pipe : List UInt8) : Prop :=
  readLine maxlen results pipe =
    ⟨(firstLine (maxlen - 1) pipe).length, some (firstLine (maxlen - 1) pipe),
      pipe.drop (firstLine (maxlen - 1) pipe).length⟩

/-- A newline is among the bytes that the buffer has room for, and no read up to it is
interrupted. -/
def EndsLine (room : Nat) (results : List ReadResult) (pipe : List UInt8) : Prop :=
  ∃ line rest, pipe = line ++ 10 :: rest ∧ 10 ∉ line ∧ line.length < room ∧
    .interrupted ∉ results.take (line.length + 1)

theorem endsLine_cons {room : Nat} {results : List ReadResult} {c : UInt8} {pipe : List UInt8}
    (hc : c ≠ 10) (read : results.headD .delivered = .delivered) :
    EndsLine (room + 1) results (c :: pipe) ↔ EndsLine room results.tail pipe := by
  have htake : ∀ k, .interrupted ∉ results.take (k + 1) ↔ .interrupted ∉ results.tail.take k := by
    intro k
    cases results with
    | nil => simp
    | cons result results =>
      obtain rfl : result = .delivered := read
      simp
  constructor
  · rintro ⟨line, rest, he, plain, short, ok⟩
    cases line with
    | nil => exact absurd (List.cons.inj he).1 hc
    | cons b line =>
      obtain ⟨rfl, rfl⟩ := List.cons.inj he
      exact ⟨line, rest, rfl, fun hm => plain (List.mem_cons_of_mem c hm), by simpa using short,
        (htake _).mp ok⟩
  · rintro ⟨line, rest, rfl, plain, short, ok⟩
    refine ⟨c :: line, rest, rfl, ?_, by simpa using short, (htake _).mpr ok⟩
    intro hm
    rcases List.mem_cons.mp hm with rfl | hm
    · exact hc rfl
    · exact plain hm

theorem readLoop_line {maxlen left : Nat} {results : List ReadResult} {pipe : List UInt8}
    (buffer : List UInt8) (ends : EndsLine left results pipe) (ok : .failed ∉ results)
    (rounds : left + buffer.length + 1 = maxlen) :
    readLoop maxlen left results pipe buffer =
      ⟨(buffer ++ firstLine left pipe).length, some (buffer ++ firstLine left pipe),
        pipe.drop (firstLine left pipe).length⟩ := by
  induction left generalizing results pipe buffer with
  | zero =>
    obtain ⟨line, rest, -, -, short, -⟩ := ends
    simp at short
  | succ left ih =>
    have rest : .failed ∉ results.tail := fun hm => ok (List.mem_of_mem_tail hm)
    obtain ⟨line, more, rfl, plain, short, quiet⟩ := id ends
    have read : results.headD .delivered = .delivered := by
      cases results with
      | nil => rfl
      | cons result results =>
        cases result with
        | delivered => rfl
        | interrupted => simp at quiet
        | failed => simp at ok
    cases line with
    | nil =>
      simp only [List.nil_append, readLoop, read, firstLine]
      simp
      omega
    | cons c line =>
      have hc : c ≠ 10 := fun he => plain (he ▸ List.mem_cons_self)
      have hends : EndsLine left results.tail (line ++ 10 :: more) :=
        (endsLine_cons hc read).mp ends
      have hlen : left + (buffer ++ [c]).length + 1 = maxlen := by
        simp only [List.length_append, List.length_singleton]
        omega
      simp only [List.cons_append, readLoop, read, firstLine, if_neg hc, ih _ hends rest hlen]
      simp

theorem endsLine_of_ret {maxlen left waits : Nat} {results : List ReadResult}
    {pipe buffer stored after : List UInt8} (ok : .failed ∉ results)
    (rounds : left + buffer.length + waits + 1 = maxlen)
    (h : readLoop maxlen left results pipe buffer = ⟨stored.length, some stored, after⟩) :
    waits = 0 ∧ EndsLine left results pipe := by
  induction left generalizing results pipe buffer waits with
  | zero =>
    obtain ⟨hret, hstored, -⟩ := Line.mk.inj h
    obtain rfl := Option.some.inj hstored
    omega
  | succ left ih =>
    have rest : .failed ∉ results.tail := fun hm => ok (List.mem_of_mem_tail hm)
    cases hr : results.headD .delivered with
    | delivered =>
      cases pipe with
      | nil =>
        simp only [readLoop, hr] at h
        split at h
        next => simp at h
        next =>
          obtain ⟨hret, hstored, -⟩ := Line.mk.inj h
          obtain rfl := Option.some.inj hstored
          omega
      | cons c pipe =>
        simp only [readLoop, hr] at h
        split at h
        next hc =>
          subst hc
          obtain ⟨hret, hstored, -⟩ := Line.mk.inj h
          obtain rfl := Option.some.inj hstored
          simp only [List.length_append, List.length_singleton] at hret
          refine ⟨by omega, [], pipe, rfl, by simp, by simp, ?_⟩
          cases results with
          | nil => simp
          | cons result results =>
            obtain rfl : result = .delivered := hr
            simp
        next hc =>
          have hlen : left + (buffer ++ [c]).length + waits + 1 = maxlen := by
            simp only [List.length_append, List.length_singleton]
            omega
          obtain ⟨hw, hends⟩ := ih rest hlen h
          exact ⟨hw, (endsLine_cons hc hr).mpr hends⟩
    | interrupted =>
      simp only [readLoop, hr] at h
      have hlen : left + buffer.length + (waits + 1) + 1 = maxlen := by omega
      obtain ⟨hw, -⟩ := ih rest hlen h
      omega
    | failed => exact absurd hr (headD_ne_failed ok)

/-- An interruption, a full buffer and the end of the stream each leave a value that is not the
length of the line. -/
theorem readLine_iff {maxlen : Nat} {results : List ReadResult} (pipe : List UInt8)
    (long : 1 < maxlen) (ok : .failed ∉ results) :
    Reads maxlen results pipe ↔ EndsLine (maxlen - 1) results pipe := by
  constructor
  · intro h
    have rounds : (maxlen - 1) + ([] : List UInt8).length + 0 + 1 = maxlen := by
      simp only [List.length_nil]
      omega
    exact (endsLine_of_ret ok rounds h).2
  · intro h
    have rounds : (maxlen - 1) + ([] : List UInt8).length + 1 = maxlen := by
      simp only [List.length_nil]
      omega
    exact readLoop_line [] h ok rounds

theorem readLine_newline : Reads 256 [] [72, 105, 10, 72] :=
  (readLine_iff [72, 105, 10, 72] (by decide) (by simp)).mpr
    ⟨[72, 105], [72], rfl, by decide, by decide, by simp⟩

/-- One interruption before a line of three bytes, and the value returned is four. -/
theorem readLine_interrupted : ¬Reads 256 [.interrupted] [72, 105, 10] := by
  unfold Reads
  decide +kernel

end Pipes

end TcpAndParallel
