import Mathlib.Data.List.TakeDrop
import TcpAndParallel.CStrings
import TcpAndParallel.Runs

namespace TcpAndParallel

namespace ResponseCoding

open CStrings

/-- `GET_MAX` of the server; `sizeof(GET_MAX)` is that of an `int`. -/
def getMax : Nat := 256

def sizeofInt : Nat := 4

def clientGetMax : Nat := 255

/-- A response string. -/
structure Response where
  text : List UInt8
  noNul : 0 ∉ text
  short : text.length < getMax

/-- `code_buf` of both programs, on what can be read from `in_buf` on and the block at `out_buf`;
`none` where it leaves one of them. -/
def codeBuf (getMax : Nat) (inBuf outBuf : List UInt8) : Option (List UInt8) :=
  (List.range' 0 getMax).foldlM (fun out x =>
    (inBuf[x]?).bind fun c => if x < outBuf.length then some (out.set x (c ^^^ 4)) else none) outBuf

/-- The memory that `respond` uses: what is behind the response and its NUL, the block that `malloc`
yields for `code_resp`, and the room in the one that `calloc` yields for `a->resp`. -/
structure Memory where
  behind : List UInt8
  codeResp : List UInt8
  room : Nat

/-- The bytes that are sent, for a `sizeof (a->resp)`. -/
def respond (pointer : Nat) (m : Memory) (response : Response) : Option (List UInt8) := do
  let codeResp ← codeBuf getMax (response.text ++ 0 :: m.behind) m.codeResp
  let resp ← strcpy (List.replicate m.room 0) codeResp
  if pointer ≤ m.room then some (resp.take pointer) else none

/-- `decode_response` of the client after `recv` of these bytes. -/
def clientMain (sent : List UInt8) : Option (List UInt8) :=
  let rawResponse := sent.take clientGetMax ++ List.replicate (clientGetMax - sent.length) 0
  codeBuf clientGetMax rawResponse (List.replicate clientGetMax 0)

/-- All the bytes that `respond` sends arrive, and the client decodes them. -/
structure Arrives (pointer : Nat) (m : Memory) (response : Response)
    (sent decoded : List UInt8) : Prop where
  respond : respond pointer m response = some sent
  received : sent.length ≤ clientGetMax
  client : clientMain sent = some decoded

/-- The bytes sent are decoded to the bytes of the response. -/
def Decodes (pointer : Nat) (m : Memory) (response : Response) : Prop :=
  ∃ sent decoded, Arrives pointer m response sent decoded ∧
    decoded.take sent.length = response.text

/-- What the client has is the response as a string. -/
def Reads (pointer : Nat) (m : Memory) (response : Response) : Prop :=
  ∃ sent decoded, Arrives pointer m response sent decoded ∧ 0 ∈ decoded ∧
    text decoded = response.text

/-- The blocks have room for all that is read and written: `strcpy` comes to an end at a byte 4,
which is coded as NUL, or at a NUL that was in the block. -/
structure Roomy (pointer : Nat) (m : Memory) (response : Response) : Prop where
  read : getMax ≤ response.text.length + 1 + m.behind.length
  written : getMax ≤ m.codeResp.length
  copied : ∃ k, k < m.room ∧ (k < getMax ∧ (response.text ++ 0 :: m.behind)[k]? = some 4 ∨
    getMax ≤ k ∧ m.codeResp[k]? = some 0)
  sent : pointer ≤ m.room

def code (bytes : List UInt8) : List UInt8 := bytes.map fun c => c ^^^ 4

section Bytes

theorem xor_xor (c : UInt8) : c ^^^ 4 ^^^ 4 = c := by
  rw [UInt8.xor_assoc, UInt8.xor_self, UInt8.xor_zero]

@[simp] theorem length_code (bytes : List UInt8) : (code bytes).length = bytes.length :=
  List.length_map ..

theorem code_append (bs cs : List UInt8) : code (bs ++ cs) = code bs ++ code cs :=
  List.map_append ..

theorem code_code (bytes : List UInt8) : code (code bytes) = bytes := by
  rw [code, code, List.map_map]
  exact List.map_id'' xor_xor bytes

theorem code_take (n : Nat) (bytes : List UInt8) : code (bytes.take n) = (code bytes).take n :=
  List.map_take ..

theorem zero_mem_code_iff {bytes : List UInt8} : 0 ∈ code bytes ↔ 4 ∈ bytes := by
  simp [code]

theorem code_replicate_zero (n : Nat) : code (List.replicate n 0) = List.replicate n 4 := by
  simp [code]

theorem codeBuf_coded {n : Nat} {inBuf outBuf : List UInt8} (hin : n ≤ inBuf.length)
    (hout : n ≤ outBuf.length) :
    codeBuf n inBuf outBuf = some (code (inBuf.take n) ++ outBuf.drop n) := by
  have hpass : ∀ (x : Fin n) out, out = code (inBuf.take x) ++ outBuf.drop x →
      ∃ out', ((inBuf[x.val]?).bind fun c =>
        if x < outBuf.length then some (out.set x (c ^^^ 4)) else none) = some out' ∧
        out' = code (inBuf.take (x + 1)) ++ outBuf.drop (x + 1) := by
    rintro x out rfl
    have hx : x.val < inBuf.length := by omega
    have hx' : x.val < outBuf.length := by omega
    have htaken : (code (inBuf.take x)).length = x := by
      rw [length_code, List.length_take]
      omega
    refine ⟨_, by rw [List.getElem?_eq_getElem hx, Option.bind_some, if_pos hx'], ?_⟩
    rw [List.set_append_right _ _ htaken.le, htaken, Nat.sub_self, List.drop_eq_getElem_cons hx',
      List.set_cons_zero, List.take_succ_eq_append_getElem hx, code_append, List.append_assoc]
    rfl
  obtain ⟨out, hrun, rfl⟩ := exists_foldlM_zero (s := outBuf)
    (fun x out => (inBuf[x]?).bind fun c =>
      if x < outBuf.length then some (out.set x (c ^^^ 4)) else none)
    (fun x out => out = code (inBuf.take x) ++ outBuf.drop x) rfl hpass
  exact hrun

theorem codeBuf_eq_some_iff {n : Nat} {inBuf outBuf coded : List UInt8} :
    codeBuf n inBuf outBuf = some coded ↔
      n ≤ inBuf.length ∧ n ≤ outBuf.length ∧ coded = code (inBuf.take n) ++ outBuf.drop n := by
  constructor
  · intro h
    have hblocks : ∀ x, x < n → x < inBuf.length ∧ x < outBuf.length := by
      intro x hx
      obtain ⟨out, out', hbody⟩ :=
        foldlM_some_of_mem h (List.mem_range'_1.mpr ⟨x.zero_le, by omega⟩)
      obtain ⟨c, hc, hwrite⟩ := Option.bind_eq_some_iff.mp hbody
      refine ⟨(List.getElem?_eq_some_iff.mp hc).1, ?_⟩
      by_contra hnot
      rw [if_neg hnot] at hwrite
      cases hwrite
    have hin : n ≤ inBuf.length := by
      by_contra hnot
      exact lt_irrefl _ (hblocks inBuf.length (by omega)).1
    have hout : n ≤ outBuf.length := by
      by_contra hnot
      exact lt_irrefl _ (hblocks outBuf.length (by omega)).2
    exact ⟨hin, hout, Option.some.inj (h.symm.trans (codeBuf_coded hin hout))⟩
  · rintro ⟨hin, hout, rfl⟩
    exact codeBuf_coded hin hout

end Bytes

section Rounds

variable {pointer : Nat} {m : Memory} {response : Response} {sent decoded : List UInt8}

/-- The block `code_resp` when it has been written. -/
def coded (m : Memory) (response : Response) : List UInt8 :=
  code ((response.text ++ 0 :: m.behind).take getMax) ++ m.codeResp.drop getMax

theorem getElem?_coded (read : getMax ≤ response.text.length + 1 + m.behind.length) (k : Nat) :
    (coded m response)[k]? = some 0 ↔
      k < getMax ∧ (response.text ++ 0 :: m.behind)[k]? = some 4 ∨
        getMax ≤ k ∧ m.codeResp[k]? = some 0 := by
  have hlength : (code ((response.text ++ 0 :: m.behind).take getMax)).length = getMax := by
    simp only [length_code, List.length_take, List.length_append, List.length_cons]
    omega
  unfold coded
  by_cases hk : k < getMax
  · rw [List.getElem?_append_left (by omega), code, List.getElem?_map,
      List.getElem?_take_of_lt hk]
    simp [hk, Nat.not_le.mpr hk]
  · rw [List.getElem?_append_right (by omega), hlength, List.getElem?_drop,
      Nat.add_sub_of_le (by omega)]
    simp [hk, Nat.not_lt.mp hk]

/-- The string of the coded bytes, and the zeros behind it. -/
def resp (m : Memory) (response : Response) : List UInt8 :=
  text (coded m response) ++ List.replicate (m.room - (text (coded m response)).length) 0

theorem strcpy_coded {copy : List UInt8} :
    strcpy (List.replicate m.room 0) (coded m response) = some copy ↔
      (0 ∈ coded m response ∧ (text (coded m response)).length < m.room) ∧
        copy = resp m response := by
  unfold strcpy resp
  rw [List.length_replicate, Option.ite_none_right_eq_some, Option.some.injEq]
  refine and_congr_right fun hroom => ?_
  have hzeros :
      0 :: (List.replicate m.room (0 : UInt8)).drop ((text (coded m response)).length + 1) =
        List.replicate (m.room - (text (coded m response)).length) 0 := by
    rw [List.drop_replicate, ← List.replicate_succ]
    congr 1
    omega
  rw [hzeros]
  exact eq_comm

theorem length_memory (m : Memory) (response : Response) :
    (response.text ++ 0 :: m.behind).length = response.text.length + 1 + m.behind.length := by
  rw [List.length_append, List.length_cons, Nat.add_right_comm, Nat.add_assoc]

theorem Roomy.string (h : Roomy pointer m response) :
    0 ∈ coded m response ∧ (text (coded m response)).length < m.room := by
  obtain ⟨k, hk, hzero⟩ := h.copied
  exact length_text_lt_iff.mpr ⟨k, hk, (getElem?_coded h.read k).mpr hzero⟩

theorem respond_eq_some_iff :
    respond pointer m response = some sent ↔
      Roomy pointer m response ∧ sent = (resp m response).take pointer := by
  constructor
  · intro h
    obtain ⟨codeResp, hcode, h⟩ := Option.bind_eq_some_iff.mp h
    obtain ⟨copy, hcopy, h⟩ := Option.bind_eq_some_iff.mp h
    obtain ⟨hread, hwritten, rfl⟩ := codeBuf_eq_some_iff.mp hcode
    obtain ⟨hstring, rfl⟩ := strcpy_coded.mp hcopy
    rw [Option.ite_none_right_eq_some, Option.some.injEq] at h
    rw [length_memory] at hread
    obtain ⟨k, hk, hzero⟩ := length_text_lt_iff.mp hstring
    exact ⟨⟨hread, hwritten, ⟨k, hk, (getElem?_coded hread k).mp hzero⟩, h.1⟩, h.2.symm⟩
  · rintro ⟨hroomy, rfl⟩
    have hread := hroomy.read
    rw [← length_memory] at hread
    have hcode := codeBuf_eq_some_iff.mpr ⟨hread, hroomy.written, rfl⟩
    have hcopy := strcpy_coded.mpr ⟨hroomy.string, rfl⟩
    rw [respond, hcode, Option.bind_eq_bind, Option.bind_some]
    exact (congrArg (Option.bind · _) hcopy).trans (if_pos hroomy.sent)

theorem Roomy.sent_le (h : Roomy pointer m response) : pointer ≤ (resp m response).length := by
  have hroom := h.string.2
  have hsent := h.sent
  rw [resp, List.length_append, List.length_replicate]
  omega

theorem Roomy.length_sent (h : Roomy pointer m response) :
    ((resp m response).take pointer).length = pointer := List.length_take_of_le h.sent_le

theorem clientMain_eq (received : sent.length ≤ clientGetMax) :
    clientMain sent =
      some (code sent ++ List.replicate (clientGetMax - sent.length) 4) := by
  have hraw : sent.take clientGetMax ++ List.replicate (clientGetMax - sent.length) 0 =
      sent ++ List.replicate (clientGetMax - sent.length) 0 := by
    rw [List.take_of_length_le received]
  have hlength : (sent ++ List.replicate (clientGetMax - sent.length) (0 : UInt8)).length =
      clientGetMax := by
    rw [List.length_append, List.length_replicate]
    omega
  unfold clientMain
  rw [hraw]
  refine codeBuf_eq_some_iff.mpr ⟨hlength.ge, by simp, ?_⟩
  rw [List.take_of_length_le hlength.le, code_append, code_replicate_zero]
  simp

theorem arrives_iff :
    Arrives pointer m response sent decoded ↔
      Roomy pointer m response ∧ pointer ≤ clientGetMax ∧
        sent = (resp m response).take pointer ∧
        decoded = code sent ++ List.replicate (clientGetMax - pointer) 4 := by
  constructor
  · rintro ⟨hrespond, hreceived, hclient⟩
    obtain ⟨hroomy, rfl⟩ := respond_eq_some_iff.mp hrespond
    rw [clientMain_eq hreceived, hroomy.length_sent] at hclient
    rw [hroomy.length_sent] at hreceived
    exact ⟨hroomy, hreceived, rfl, (Option.some.inj hclient).symm⟩
  · rintro ⟨hroomy, hreceived, rfl, rfl⟩
    have hlength := hroomy.length_sent
    refine ⟨respond_eq_some_iff.mpr ⟨hroomy, rfl⟩, hlength.trans_le hreceived, ?_⟩
    rw [clientMain_eq (hlength.trans_le hreceived), hlength]

theorem exists_coded (m : Memory) (response : Response) :
    ∃ rest, coded m response = code response.text ++ 4 :: rest := by
  have hshort := response.short
  obtain ⟨d, hd⟩ : ∃ d, getMax - response.text.length = d + 1 :=
    ⟨getMax - response.text.length - 1, by omega⟩
  have htake : (response.text ++ 0 :: m.behind).take getMax =
      response.text ++ 0 :: m.behind.take d := by
    rw [List.take_append, List.take_of_length_le hshort.le, hd, List.take_succ_cons]
  refine ⟨code (m.behind.take d) ++ m.codeResp.drop getMax, ?_⟩
  rw [coded, htake, code_append, List.append_assoc]
  rfl

theorem code_resp_whole (plain : 4 ∉ response.text) :
    ∃ rest, code (resp m response) = response.text ++ 0 :: rest := by
  obtain ⟨rest, hrest⟩ := exists_coded m response
  have hplain : ∀ c ∈ code response.text, decide (c ≠ 0) = true := by
    intro c hc
    simpa using fun he : c = 0 => plain (zero_mem_code_iff.mp (he ▸ hc))
  have htext : text (coded m response) = code response.text ++ 4 :: text rest := by
    rw [hrest, text, List.takeWhile_append_of_pos hplain,
      List.takeWhile_cons_of_pos (by decide)]
    rfl
  rw [resp, htext, List.append_assoc, code_append, code_code]
  exact ⟨_, rfl⟩

/-- The string ends at the first byte 4. -/
theorem code_resp_cut {us vs : List UInt8} (cut : response.text = us ++ 4 :: vs) (plain : 4 ∉ us) :
    code (resp m response) = us ++ List.replicate (m.room - us.length) 4 := by
  obtain ⟨rest, hrest⟩ := exists_coded m response
  have hzero : 0 ∉ code us := fun h => plain (zero_mem_code_iff.mp h)
  have htext : text (coded m response) = code us := by
    rw [hrest, cut, code_append, List.append_assoc]
    exact text_append _ hzero
  rw [resp, htext, code_append, code_code, code_replicate_zero, length_code]

end Rounds

section Results

variable {pointer : Nat} {m : Memory} {response : Response}

theorem decodes_iff_code :
    Decodes pointer m response ↔
      Roomy pointer m response ∧ pointer ≤ clientGetMax ∧
        (code (resp m response)).take pointer = response.text := by
  constructor
  · rintro ⟨sent, decoded, harrives, hdecoded⟩
    obtain ⟨hroomy, hreceived, rfl, rfl⟩ := arrives_iff.mp harrives
    rw [List.take_left' (length_code _), code_take] at hdecoded
    exact ⟨hroomy, hreceived, hdecoded⟩
  · rintro ⟨hroomy, hreceived, hcode⟩
    refine ⟨_, _, arrives_iff.mpr ⟨hroomy, hreceived, rfl, rfl⟩, ?_⟩
    rw [List.take_left' (length_code _), code_take]
    exact hcode

theorem reads_iff_code :
    Reads pointer m response ↔
      Roomy pointer m response ∧ pointer ≤ clientGetMax ∧
        0 ∈ (code (resp m response)).take pointer ∧
        text ((code (resp m response)).take pointer) = response.text := by
  have hfilled : ∀ bytes : List UInt8, ∀ n, 0 ∈ bytes ++ List.replicate n 4 ↔ 0 ∈ bytes := by
    intro bytes n
    rw [List.mem_append, or_iff_left fun h => absurd (List.eq_of_mem_replicate h) (by decide)]
  constructor
  · rintro ⟨sent, decoded, harrives, hzero, htext⟩
    obtain ⟨hroomy, hreceived, rfl, rfl⟩ := arrives_iff.mp harrives
    rw [hfilled, code_take] at hzero
    rw [code_take, text_append_of_mem _ hzero] at htext
    exact ⟨hroomy, hreceived, hzero, htext⟩
  · rintro ⟨hroomy, hreceived, hzero, htext⟩
    refine ⟨_, _, arrives_iff.mpr ⟨hroomy, hreceived, rfl, rfl⟩, ?_, ?_⟩
    · rw [hfilled, code_take]
      exact hzero
    · rw [code_take, text_append_of_mem _ hzero]
      exact htext

theorem take_whole_iff {us vs : List UInt8} {n : Nat} (h : n ≤ (us ++ vs).length) :
    (us ++ vs).take n = us ↔ us.length = n := by
  constructor
  · intro htake
    rw [← htake, List.length_take_of_le h]
  · intro hlength
    exact List.take_left' hlength

theorem take_cut_iff {us vs : List UInt8} {n k : Nat} (h : n ≤ us.length + k) :
    (us ++ List.replicate k 4).take n = us ++ 4 :: vs ↔
      (us ++ 4 :: vs).length = n ∧ ∀ c ∈ 4 :: vs, c = 4 := by
  constructor
  · intro htake
    refine ⟨?_, fun c hc => ?_⟩
    · rw [← htake, List.length_take_of_le (by simpa using h)]
    · have hbehind := congrArg (List.drop us.length) htake
      rw [List.drop_take, List.drop_left, List.drop_left] at hbehind
      rw [← hbehind] at hc
      exact List.eq_of_mem_replicate (List.mem_of_mem_take hc)
  · rintro ⟨hlength, hfours⟩
    rw [List.eq_replicate_iff.mpr ⟨rfl, hfours⟩, List.take_append,
      List.take_of_length_le (by simp at hlength; omega), List.take_replicate]
    simp only [List.length_append, List.length_cons] at hlength ⊢
    congr 2
    omega

theorem decodes_iff :
    Decodes pointer m response ↔
      Roomy pointer m response ∧ response.text.length = pointer ∧
        ∀ c ∈ response.text.dropWhile (· ≠ 4), c = 4 := by
  rw [decodes_iff_code]
  refine and_congr_right fun hroomy => ?_
  have hsent := hroomy.sent_le
  have hshort := response.short
  rw [← length_code] at hsent
  have hbytes : (code (resp m response)).take pointer = response.text ↔
      response.text.length = pointer ∧ ∀ c ∈ response.text.dropWhile (· ≠ 4), c = 4 := by
    by_cases hfour : 4 ∈ response.text
    · obtain ⟨us, vs, hcut, hus⟩ := List.eq_append_cons_of_mem hfour
      have hcode := code_resp_cut (m := m) hcut hus
      have hbehind : response.text.dropWhile (· ≠ 4) = 4 :: vs := by
        rw [hcut, List.dropWhile_append_of_pos fun c hc => ?_]
        · exact List.dropWhile_cons_of_neg (by decide)
        · simpa using fun he : c = 4 => hus (he ▸ hc)
      rw [hcode] at hsent ⊢
      rw [hbehind, hcut]
      exact take_cut_iff (by simpa using hsent)
    · obtain ⟨rest, hcode⟩ := code_resp_whole (m := m) hfour
      have hnone : response.text.dropWhile (· ≠ 4) = [] := by
        rw [List.dropWhile_eq_nil_iff]
        intro c hc
        simpa using fun he : c = 4 => hfour (he ▸ hc)
      rw [hcode] at hsent ⊢
      rw [take_whole_iff hsent, hnone]
      simp
  rw [hbytes]
  refine and_iff_right_of_imp fun h => ?_
  rw [← h.1]
  exact Nat.le_of_lt_succ hshort

theorem reads_iff :
    Reads pointer m response ↔
      Roomy pointer m response ∧ pointer ≤ clientGetMax ∧ response.text.length < pointer ∧
        4 ∉ response.text := by
  rw [reads_iff_code]
  refine and_congr_right fun hroomy => and_congr_right fun _ => ?_
  by_cases hfour : 4 ∈ response.text
  · obtain ⟨us, vs, hcut, hus⟩ := List.eq_append_cons_of_mem hfour
    have hzero : 0 ∉ code (resp m response) := by
      rw [code_resp_cut hcut hus, List.mem_append]
      rintro (hmem | hmem)
      · exact response.noNul (by rw [hcut]; exact List.mem_append_left _ hmem)
      · exact absurd (List.eq_of_mem_replicate hmem) (by decide)
    constructor
    · rintro ⟨hmem, -⟩
      exact absurd (List.mem_of_mem_take hmem) hzero
    · rintro ⟨-, hplain⟩
      exact absurd hfour hplain
  · obtain ⟨rest, hcode⟩ := code_resp_whole (m := m) hfour
    rw [hcode]
    constructor
    · rintro ⟨hmem, -⟩
      refine ⟨?_, hfour⟩
      by_contra hnot
      rw [List.take_append_of_le_length (by omega)] at hmem
      exact response.noNul (List.mem_of_mem_take hmem)
    · rintro ⟨hlt, -⟩
      obtain ⟨d, hd⟩ : ∃ d, pointer - response.text.length = d + 1 :=
        ⟨pointer - response.text.length - 1, by omega⟩
      rw [List.take_append, List.take_of_length_le hlt.le, hd, List.take_succ_cons]
      exact ⟨by simp, text_append _ response.noNul⟩

/-- With the block that is asked for, of the size of an `int`, nothing is ever sent; with blocks
that have room the client has the bytes, or the string, of some of the responses. -/
theorem response_round_trip (pointer : Nat) (m : Memory) (response : Response) :
    (m.codeResp.length = sizeofInt → ¬Decodes pointer m response ∧ ¬Reads pointer m response) ∧
      (Decodes pointer m response ↔
        Roomy pointer m response ∧ response.text.length = pointer ∧
          ∀ c ∈ response.text.dropWhile (· ≠ 4), c = 4) ∧
      (Reads pointer m response ↔
        Roomy pointer m response ∧ pointer ≤ clientGetMax ∧ response.text.length < pointer ∧
          4 ∉ response.text) := by
  refine ⟨fun hasked => ?_, decodes_iff, reads_iff⟩
  have hroom : ¬Roomy pointer m response := by
    intro h
    have hwritten := h.written
    rw [hasked] at hwritten
    exact absurd hwritten (by decide)
  exact ⟨fun h => hroom (decodes_iff.mp h).1, fun h => hroom (reads_iff.mp h).1⟩

def literal : Response := ⟨[114, 101, 115, 112, 111, 110, 115, 101], by decide, by decide⟩

/-- Nine times "a". -/
def nine : Response := ⟨List.replicate 9 97, by decide, by decide⟩

/-- Nothing is sent of the response of the source, and of nine bytes the last is lost even where the
blocks have room. -/
theorem nine_cut :
    respond 8 ⟨List.replicate 247 0, List.replicate 4 0, 8⟩ literal = none ∧
      Roomy 8 ⟨List.replicate 246 4, List.replicate 256 0, 16⟩ nine ∧
      ¬Decodes 8 ⟨List.replicate 246 4, List.replicate 256 0, 16⟩ nine ∧
      ¬Reads 8 ⟨List.replicate 246 4, List.replicate 256 0, 16⟩ nine := by
  refine ⟨?_, ⟨?_, ?_, ⟨10, by decide, .inl ⟨by decide, rfl⟩⟩, by decide⟩, ?_, ?_⟩
  · rw [Option.eq_none_iff_forall_not_mem]
    intro sent hsent
    have hwritten := (respond_eq_some_iff.mp hsent).1.written
    exact absurd hwritten (by decide)
  · rw [List.length_replicate]
    decide
  · rw [List.length_replicate]
    decide
  · intro h
    exact absurd (decodes_iff.mp h).2.1 (by decide)
  · intro h
    exact absurd (reads_iff.mp h).2.2.1 (by decide)

end Results

end ResponseCoding

end TcpAndParallel
