import Omdrop.Proto.Framing

namespace Omdrop.Proto

open Omdrop.Stream

/-!
# The decoding of a chunked body

`decode` is the chunked encoding as a function on all the bytes of a connection at once: the
payload of a body under a limit, and either what follows the body or the verdict that the bytes
are none.  A `BodyReader` sees the bytes a few at a time, in calls of any size, and comes to the
same (`BodyReader.chunked_decode`).
-/

/-- Where the decoding of a body stops: past its end, before what follows it, or where the bytes
    stop being a body. -/
inductive Decoded
  | ended (after : List UInt8)
  | refused
  deriving DecidableEq, Repr

/-- The first line, if it has at most `maxChunkLineBytes` bytes with its newline, and the rest. -/
def takeLine (bs : List UInt8) : Option (List UInt8 × List UInt8) :=
  match bs.idxOf? newline with
  | none   => none
  | some i => if i < maxChunkLineBytes then some (bs.take (i + 1), bs.drop (i + 1)) else none

/-- A line that is taken is a line in front, and not too long. -/
theorem takeLine_eq_some {bs line rest : List UInt8} :
    takeLine bs = some (line, rest) ↔
      IsLine line ∧ line.length ≤ maxChunkLineBytes ∧ bs = line ++ rest := by
  constructor
  · intro h
    unfold takeLine at h
    split at h
    · cases h
    · rename_i i hi
      split at h
      · rename_i hlt
        simp only [Option.some.injEq, Prod.mk.injEq] at h
        obtain ⟨rfl, rfl⟩ := h
        obtain ⟨hlen, hnl, hbefore⟩ := List.findIdx?_eq_some_iff_getElem.mp hi
        have htake : bs.take (i + 1) = bs.take i ++ [newline] := by
          rw [List.take_succ_eq_append_getElem hlen, beq_iff_eq.mp hnl]
        refine ⟨⟨bs.take i, htake, ?_⟩, ?_, (List.take_append_drop _ bs).symm⟩
        · intro hmem
          obtain ⟨j, hj, hget⟩ := List.mem_take_iff_getElem.mp hmem
          have hne := hbefore j (by omega)
          rw [hget] at hne
          simp at hne
        · rw [List.length_take]
          omega
      · cases h
  · rintro ⟨⟨body, rfl, hbody⟩, hlen, rfl⟩
    rw [List.length_append, List.length_singleton] at hlen
    have hidx : (body ++ [newline] ++ rest).idxOf? newline = some body.length := by
      rw [List.idxOf?, List.findIdx?_eq_some_iff_getElem]
      refine ⟨by simp, by simp, ?_⟩
      intro j hj
      have hlt : j < (body ++ [newline] ++ rest).length := by
        simp only [List.length_append]
        omega
      have hget : (body ++ [newline] ++ rest)[j] = body[j] := by
        simp [hj]
      rw [hget, beq_iff_eq]
      intro heq
      exact hbody (heq ▸ List.getElem_mem hj)
    unfold takeLine
    rw [hidx]
    simp only [if_pos (show body.length < maxChunkLineBytes by omega)]
    rw [List.take_left' (by simp), List.drop_left' (by simp)]

/-- Taking a line leaves less. -/
theorem length_takeLine {bs line rest : List UInt8} (h : takeLine bs = some (line, rest)) :
    rest.length < bs.length := by
  obtain ⟨hline, _, rfl⟩ := takeLine_eq_some.mp h
  have := List.length_pos_iff.mpr hline.ne_nil
  rw [List.length_append]
  omega

/-- What follows the trailer lines, of which `seen` bytes have gone by. -/
def takeTrailers (seen : Nat) (bs : List UInt8) : Option (List UInt8) :=
  match _h : takeLine bs with
  | none              => none
  | some (line, rest) =>
    if maxTrailerBytes < seen + line.length then none
    else if line = crlf ∨ line = [newline] then some rest
    else takeTrailers (seen + line.length) rest
termination_by bs.length
decreasing_by exact length_takeLine _h

/-- The payload of a chunked body that may come to `budget` bytes, up to where the decoding
    stops. -/
def decode (budget : Nat) (bs : List UInt8) : List UInt8 × Decoded :=
  match _h : takeLine bs with
  | none              => ([], .refused)
  | some (line, rest) =>
    match tokenSize (sizeToken line) with
    | none      => ([], .refused)
    | some size =>
      if size = 0 then
        match takeTrailers 0 rest with
        | none       => ([], .refused)
        | some after => ([], .ended after)
      else if 2 ^ 64 ≤ size ∨ budget < size then ([], .refused)
      else
        match _h' : rest.drop size with
        | 13 :: 10 :: rest' =>
          let (P, verdict) := decode (budget - size) rest'
          (rest.take size ++ P, verdict)
        | _                 => (rest.take size, .refused)
termination_by bs.length
decreasing_by
  have hrest := length_takeLine _h
  have hdrop := congrArg List.length _h'
  rw [List.length_drop, List.length_cons, List.length_cons] at hdrop
  omega

/-! ### The decoding and the grammar -/

/-- A trailer that is taken is one in front. -/
theorem takeTrailers_eq_some {seen : Nat} {bs after : List UInt8} :
    takeTrailers seen bs = some after ↔ ∃ raw, Trailers seen raw ∧ bs = raw ++ after := by
  constructor
  · intro h
    fun_induction takeTrailers seen bs with
    | case1 => cases h
    | case2 => cases h
    | case3 seen bs line rest hl hseen hlast =>
      -- a blank line ends the trailers
      simp only [Option.some.injEq] at h
      subst h
      obtain ⟨_, _, rfl⟩ := takeLine_eq_some.mp hl
      exact ⟨line, .last hlast (by omega), rfl⟩
    | case4 seen bs line rest hl hseen hmore ih =>
      -- the line is one of a trailer
      obtain ⟨hline, hlen, rfl⟩ := takeLine_eq_some.mp hl
      obtain ⟨raw, hraw, rfl⟩ := ih h
      rw [not_or] at hmore
      refine ⟨line ++ raw, .more hline hlen (by omega) hmore.1 hmore.2 hraw, ?_⟩
      rw [List.append_assoc]
  · rintro ⟨raw, hraw, rfl⟩
    induction hraw with
    | @last seen line hline hseen =>
      have hl : takeLine (line ++ after) = some (line, after) := by
        rw [takeLine_eq_some]
        rcases hline with rfl | rfl
        · exact ⟨isLine_crlf, by decide, rfl⟩
        · exact ⟨isLine_newline, by decide, rfl⟩
      unfold takeTrailers
      split
      · rename_i h
        rw [hl] at h
        cases h
      · rename_i line' rest h
        rw [hl] at h
        cases h
        rw [if_neg (by omega), if_pos hline]
    | @more seen line raw hline hlen hseen hcrlf hlf _ ih =>
      have hl : takeLine (line ++ raw ++ after) = some (line, raw ++ after) :=
        takeLine_eq_some.mpr ⟨hline, hlen, List.append_assoc line raw after⟩
      unfold takeTrailers
      split
      · rename_i h
        rw [hl] at h
        cases h
      · rename_i line' rest h
        rw [hl] at h
        cases h
        rw [if_neg (by omega), if_neg (not_or.mpr ⟨hcrlf, hlf⟩)]
        exact ih

/-- The decoding from behind the payload of a chunk. -/
def afterChunk (budget : Nat) : List UInt8 → List UInt8 × Decoded
  | 13 :: 10 :: rest => decode budget rest
  | _                => ([], .refused)

/-- After its line end the next chunk comes. -/
private theorem afterChunk_crlf (budget : Nat) (rest : List UInt8) :
    afterChunk budget (crlf ++ rest) = decode budget rest := rfl

/-- Anything but a line end is refused behind a chunk. -/
theorem afterChunk_of_ne {budget : Nat} {bs : List UInt8} (h : ∀ rest, bs ≠ crlf ++ rest) :
    afterChunk budget bs = ([], .refused) := by
  unfold afterChunk
  split
  · rename_i rest
    exact absurd rfl (h rest)
  · rfl

/-- The decoding from any place in a body. -/
def decodeFrom (budget : Nat) (bs : List UInt8) : Chunk → List UInt8 × Decoded
  | .size      => decode budget bs
  | .data left =>
    let (P, verdict) := afterChunk (budget - left) (bs.drop left)
    (bs.take left ++ P, verdict)
  | .ending    => afterChunk budget bs
  | .done      => ([], .ended bs)

/-- Bytes that begin with no size line are no body. -/
theorem decode_of_no_line {budget : Nat} {bs : List UInt8}
    (h : ∀ line size rest, IsSizeLine line size → bs ≠ line ++ rest) :
    decode budget bs = ([], .refused) := by
  unfold decode
  split
  · rfl
  · rename_i line rest hl
    obtain ⟨hline, hlen, hbs⟩ := takeLine_eq_some.mp hl
    split
    · rfl
    · rename_i size hsize
      by_cases hlt : size < 2 ^ 64
      · exact absurd hbs (h line size rest ⟨hline, hlen, hsize, hlt⟩)
      · rw [if_neg (by omega), if_pos (.inl (by omega))]

/-- A size line, decoded. -/
theorem decode_size {line : List UInt8} {size : Nat} (h : IsSizeLine line size) (budget : Nat)
    (rest : List UInt8) :
    decode budget (line ++ rest) =
      if size = 0 then
        match takeTrailers 0 rest with
        | none       => ([], .refused)
        | some after => ([], .ended after)
      else if budget < size then ([], .refused)
      else decodeFrom budget rest (.data size) := by
  have hl : takeLine (line ++ rest) = some (line, rest) :=
    takeLine_eq_some.mpr ⟨h.isLine, h.length_le, rfl⟩
  conv_lhs => unfold decode
  split
  · rename_i hl'
    rw [hl] at hl'
    cases hl'
  · rename_i line' rest' hl'
    rw [hl] at hl'
    cases hl'
    simp only [h.size_eq]
    by_cases hzero : size = 0
    · rw [if_pos hzero, if_pos hzero]
    · rw [if_neg hzero, if_neg hzero]
      have hlt := h.size_lt
      by_cases hover : budget < size
      · rw [if_pos (.inr hover), if_pos hover]
      · rw [if_neg (by omega), if_neg hover]
        show _ = (rest.take size ++ (afterChunk (budget - size) (rest.drop size)).1,
          (afterChunk (budget - size) (rest.drop size)).2)
        split
        · rename_i rest' hdrop
          rw [hdrop]
          rfl
        · rename_i hdrop
          rw [afterChunk_of_ne hdrop, List.append_nil]

/-- The closing chunk ends a body. -/
theorem decode_closing {raw : List UInt8} (h : Closing raw) (budget : Nat) (after : List UInt8) :
    decode budget (raw ++ after) = ([], .ended after) := by
  obtain ⟨line, trailers, rfl, hline, htr⟩ := h
  rw [List.append_assoc, decode_size hline, if_pos rfl,
    takeTrailers_eq_some.mpr ⟨trailers, htr, rfl⟩]

/-- Some bytes of a chunk's payload, decoded. -/
theorem decodeFrom_data {left : Nat} {bs : List UInt8} (hlen : bs.length ≤ left) (budget : Nat)
    (rest : List UInt8) :
    let st := if left - bs.length = 0 then .ending else .data (left - bs.length)
    decodeFrom budget (bs ++ rest) (.data left) =
      (bs ++ (decodeFrom (budget - bs.length) rest st).1,
        (decodeFrom (budget - bs.length) rest st).2) := by
  intro st
  have hdrop : (bs ++ rest).drop left = rest.drop (left - bs.length) := by
    rw [List.drop_append, List.drop_eq_nil_of_le hlen, List.nil_append]
  have htake : (bs ++ rest).take left = bs ++ rest.take (left - bs.length) := by
    rw [List.take_append, List.take_of_length_le hlen]
  by_cases hall : left - bs.length = 0
  · have hst : st = .ending := if_pos hall
    rw [hst]
    simp only [decodeFrom, hdrop, htake, hall, List.take_zero, List.drop_zero, List.append_nil]
    rw [show budget - left = budget - bs.length by omega]
  · have hst : st = .data (left - bs.length) := if_neg hall
    rw [hst]
    simp only [decodeFrom, hdrop, htake, List.append_assoc]
    rw [show budget - left = budget - bs.length - (left - bs.length) by omega]

/-- What the grammar gives is decoded. -/
theorem decodeFrom_of_chunkSeq {st : Chunk} {raw P : List UInt8} (h : ChunkSeq Closing st raw P)
    {budget : Nat} (hP : P.length ≤ budget) (after : List UInt8) :
    decodeFrom budget (raw ++ after) st = (P, .ended after) := by
  induction h generalizing budget with
  | close hclose => exact decode_closing hclose budget after
  | @size line left raw P hline hpos hdata ih =>
    have hleft : left ≤ P.length := by
      cases hdata with
      | data _ hd _ =>
        rw [List.length_append]
        omega
    show decode budget (line ++ raw ++ after) = _
    rw [List.append_assoc, decode_size hline, if_neg (by omega), if_neg (by omega)]
    exact ih hP
  | @data left d raw P hpos hd _ ih =>
    rw [List.length_append] at hP
    have hdata := decodeFrom_data (le_of_eq hd) budget (raw ++ after)
    simp only [if_pos (show left - d.length = 0 by omega), ih (show P.length ≤ budget - d.length by
      omega)] at hdata
    rw [List.append_assoc]
    exact hdata
  | ending _ ih =>
    rw [List.append_assoc]
    exact ih hP
  | done => rfl

/-- **The decoding follows the grammar.**  The bytes decode to a payload exactly when they begin
    with an encoding of it. -/
theorem decode_eq_ended_iff {budget : Nat} {bs P after : List UInt8} :
    decode budget bs = (P, .ended after) ↔
      P.length ≤ budget ∧ ∃ raw, ChunkSeq Closing .size raw P ∧ bs = raw ++ after := by
  constructor
  · intro h
    fun_induction decode budget bs generalizing P with
    | case1 => cases h
    | case2 => cases h
    | case3 => cases h
    | case4 budget bs line rest hl after' htr hsize =>
      -- an empty chunk, and the trailers
      cases h
      obtain ⟨hline, hlen, rfl⟩ := takeLine_eq_some.mp hl
      obtain ⟨raw, hraw, rfl⟩ := takeTrailers_eq_some.mp htr
      refine ⟨Nat.zero_le _, line ++ raw, .close ⟨line, raw, rfl, ?_, hraw⟩, ?_⟩
      · exact ⟨hline, hlen, hsize, by decide⟩
      · rw [List.append_assoc]
    | case5 => cases h
    | case6 budget bs line rest hl size hsize hzero hroom rest' hdrop P' verdict hdec ih =>
      -- a chunk, and the others behind it
      cases h
      obtain ⟨hline, hlen, rfl⟩ := takeLine_eq_some.mp hl
      rw [not_or, not_le, not_lt] at hroom
      obtain ⟨hP, raw, hraw, rfl⟩ := ih hdec
      have htake : (rest.take size).length = size := by
        have hlen' := congrArg List.length hdrop
        rw [List.length_drop, List.length_cons] at hlen'
        rw [List.length_take]
        omega
      refine ⟨?_, line ++ (rest.take size ++ (crlf ++ raw)), ?_, ?_⟩
      · rw [List.length_append, htake]
        omega
      · exact .size ⟨hline, hlen, hsize, hroom.1⟩ (Nat.pos_of_ne_zero hzero)
          (.data (Nat.pos_of_ne_zero hzero) htake (.ending hraw))
      · conv_lhs => rw [← List.take_append_drop size rest, hdrop]
        simp [crlf]
    | case7 => cases h
  · rintro ⟨hP, raw, hraw, rfl⟩
    exact decodeFrom_of_chunkSeq hraw hP after

namespace BodyReader

variable {R : Type} [BufRead Payload R]

/-! ### A reader and the decoding -/

/-- What a chunk still takes. -/
def pending : Chunk → Nat
  | .data left => left
  | _          => 0

/-- What was delivered, and what the current chunk still takes, is within the limit. -/
structure Within (b : BodyReader R) (st : Chunk) : Prop where
  room : b.total + pending st ≤ b.limit
  pos : ∀ left, st = .data left → 0 < left

/-- What the bytes of the connection still decode to. -/
def expects (b : BodyReader R) (st : Chunk) : List UInt8 × Decoded :=
  decodeFrom (b.limit - b.total) (ByteStream.bytes b.r) st

/-- A reader in a body, as it is seen from the decoding: `b'` follows after `bs`. -/
structure Step (b b' : BodyReader R) (st : Chunk) (bs : List UInt8) (st' : Chunk) : Prop where
  onward : Onward b b'
  chunk_eq : b'.chunk = some st'
  total_eq : b'.total = b.total + bs.length
  within : Within b st → Within b' st'
  expects_eq : b.expects st = (bs ++ (b'.expects st').1, (b'.expects st').2)

/-- Two steps make one. -/
theorem Step.trans {b b₁ b' : BodyReader R} {st st₁ st' : Chunk} {bs bs' : List UInt8}
    (h : Step b b₁ st bs st₁) (h' : Step b₁ b' st₁ bs' st') : Step b b' st (bs ++ bs') st' where
  onward := h.onward.trans h'.onward
  chunk_eq := h'.chunk_eq
  total_eq := by rw [h'.total_eq, h.total_eq, List.length_append, Nat.add_assoc]
  within hw := h'.within (h.within hw)
  expects_eq := by rw [h.expects_eq, h'.expects_eq, List.append_assoc]

/-- Why a read of a calm connection fails: the deadline has passed, or the bytes are no body. -/
def Fails (b : BodyReader R) (st : Chunk) (e : IoErr) : Prop :=
  ByteStream.calm b.r → e = tooSlow ∨ b.expects st = ([], .refused)

/-- A fault is a failure in any state. -/
theorem Fails.of_fault {b : BodyReader R} {e : IoErr} (h : Fault b e) (st : Chunk) :
    Fails b st e :=
  fun hc => .inl (h.of_calm hc).1

/-- A failure after a step without payload. -/
theorem Fails.of_step {b b' : BodyReader R} {st st' : Chunk} {e : IoErr} (h : Fails b' st' e)
    (hs : Step b b' st [] st') : Fails b st e := by
  intro hc
  rcases h (hs.onward.calm hc) with hslow | hrefused
  · exact .inl hslow
  · refine .inr ?_
    rw [hs.expects_eq, hrefused]
    rfl

/-- What is left to expect past a size line, a payload or the end of a chunk. -/
theorem expects_of {b b' : BodyReader R} {bs : List UInt8} (ho : Onward b b')
    (ht : b'.total = b.total + bs.length) (st : Chunk) :
    b'.expects st = decodeFrom (b.limit - b.total - bs.length) (ByteStream.bytes b'.r) st := by
  rw [expects, ho.limit_eq, ht]
  congr 1
  omega

/-- What a size line's step comes to. -/
theorem sizeStep_decodes {whole : Bool} {b b' : BodyReader R} {res : Except IoErr (Option Nat)}
    (h : b.sizeStep whole = (res, b')) :
    (∃ size, res = .ok (some size) ∧ 0 < size ∧ Step b b' .size [] (.data size)) ∨
      (res = .ok none ∧ Step b b' .size [] .done) ∨
      ∃ e, res = .error e ∧ Fails b .size e := by
  obtain ⟨ho, ht, ⟨size, line, rfl, hst', hline, hpos, hle, hb⟩ | ⟨rfl, hst', raw, hclose, hb⟩ |
    ⟨e, rfl, hf⟩ | ⟨rfl, _, _, _, hcalm⟩ | ⟨e, rfl, _, hno⟩⟩ := sizeStep_cases h
  · refine .inl ⟨size, rfl, hpos, ho, hst', ht, ?_, ?_⟩
    · intro hw
      have hroom : b.total + 0 ≤ b.limit := hw.room
      refine ⟨?_, ?_⟩
      · show b'.total + size ≤ b'.limit
        rw [ht, ho.limit_eq]
        omega
      · intro left hleft
        cases hleft
        exact hpos
    · have hexp := @expects_of _ _ b b' [] ho ht (.data size)
      show decode _ (ByteStream.bytes b.r) = _
      rw [hb, decode_size hline, if_neg (by omega), if_neg (by omega), hexp]
      rfl
  · refine .inr (.inl ⟨rfl, ho, hst', ht, ?_, ?_⟩)
    · intro hw
      refine ⟨?_, fun left hleft => by cases hleft⟩
      rw [ht, ho.limit_eq]
      exact hw.room
    · show decode _ (ByteStream.bytes b.r) = _
      rw [hb]
      exact decode_closing hclose _ _
  · exact .inr (.inr ⟨e, rfl, .of_fault hf _⟩)
  · exact .inr (.inr ⟨_, rfl, fun hc => absurd hc hcalm⟩)
  · refine .inr (.inr ⟨e, rfl, fun _ => .inr ?_⟩)
    show decode _ (ByteStream.bytes b.r) = _
    by_cases hbegins : ∃ line size rest, IsSizeLine line size ∧
        ByteStream.bytes b.r = line ++ rest
    · -- the line is one, but announces too much, or is followed by no trailers
      obtain ⟨line, size, rest, hline, hb⟩ := hbegins
      rw [hb, decode_size hline]
      by_cases hzero : size = 0
      · obtain ⟨_, htr⟩ := hno line size rest hline hb (by omega)
        have hnone : takeTrailers 0 rest = none := by
          rw [Option.eq_none_iff_forall_ne_some]
          intro after hafter
          obtain ⟨raw, hraw, hrest⟩ := takeTrailers_eq_some.mp hafter
          exact htr raw after hraw hrest
        rw [if_pos hzero, hnone]
      · have hover : b.limit - b.total < size := by
          by_contra hfits
          exact hzero (hno line size rest hline hb (not_lt.mp hfits)).1
        rw [if_neg hzero, if_pos hover]
    · apply decode_of_no_line
      intro line size rest hline hb
      exact hbegins ⟨line, size, rest, hline, hb⟩

/-- What a call comes to, in a body: some payload, the end, or a failure. -/
def Decodes (b b' : BodyReader R) (st : Chunk) (res : Except IoErr (List UInt8)) : Prop :=
  (∃ bs st', res = .ok bs ∧ (bs = [] → st' = .done) ∧ Step b b' st bs st') ∨
    ∃ e, res = .error e ∧ Fails b st e

/-- What is decoded after a step is decoded. -/
theorem Decodes.of_step {b b₁ b' : BodyReader R} {st st₁ : Chunk}
    {res : Except IoErr (List UInt8)} (h : Decodes b₁ b' st₁ res) (hs : Step b b₁ st [] st₁) :
    Decodes b b' st res := by
  rcases h with ⟨bs, st', rfl, hend, hs'⟩ | ⟨e, rfl, hf⟩
  · exact .inl ⟨bs, st', rfl, hend, hs.trans hs'⟩
  · exact .inr ⟨e, rfl, hf.of_step hs⟩

/-- What a step through a payload comes to. -/
theorem dataStep_decodes {n left : Nat} {b b' : BodyReader R} {res : Except IoErr (List UInt8)}
    (h : b.dataStep n left = (res, b')) (hn : 0 < n) (hleft : 0 < left) :
    Decodes b b' (.data left) res := by
  obtain ⟨ho, ⟨bs, rfl, hne, _, hlen, hb, ht, _, hst'⟩ | ⟨e, rfl, hf⟩ | ⟨e, rfl, _, hnil⟩⟩ :=
    dataStep_cases h hn
  · refine .inl ⟨bs, _, rfl, fun hnil => absurd hnil hne, ho, hst', ht, ?_, ?_⟩
    · intro hw
      have hroom : b.total + left ≤ b.limit := hw.room
      by_cases hall : left - bs.length = 0
      · rw [if_pos hall]
        refine ⟨?_, fun left hleft => by cases hleft⟩
        show b'.total + 0 ≤ b'.limit
        rw [ht, ho.limit_eq]
        omega
      · rw [if_neg hall]
        refine ⟨?_, ?_⟩
        · show b'.total + (left - bs.length) ≤ b'.limit
          rw [ht, ho.limit_eq]
          omega
        · intro left' hleft'
          cases hleft'
          omega
    · show decodeFrom _ (ByteStream.bytes b.r) _ = _
      rw [hb, expects_of ho ht]
      exact decodeFrom_data hlen _ _
  · exact .inr ⟨e, rfl, .of_fault hf _⟩
  · refine .inr ⟨e, rfl, fun _ => .inr ?_⟩
    -- the connection ended inside the payload
    show decodeFrom _ (ByteStream.bytes b.r) _ = _
    rw [hnil hleft]
    simp [decodeFrom, afterChunk]

/-- What the step over the end of a chunk comes to. -/
theorem endingStep_decodes {b b' : BodyReader R} {res : Except IoErr Unit}
    (h : b.endingStep = (res, b')) :
    (res = .ok () ∧ Step b b' .ending [] .size) ∨ ∃ e, res = .error e ∧ Fails b .ending e := by
  obtain ⟨ho, ht, ⟨rfl, hst', hb⟩ | ⟨e, rfl, hf⟩ | ⟨e, rfl, _, hno⟩⟩ := endingStep_cases h
  · refine .inl ⟨rfl, ho, hst', ht, ?_, ?_⟩
    · intro hw
      refine ⟨?_, fun left hleft => by cases hleft⟩
      rw [ht, ho.limit_eq]
      exact hw.room
    · have hexp := @expects_of _ _ b b' [] ho ht .size
      show afterChunk _ (ByteStream.bytes b.r) = _
      rw [hb, afterChunk_crlf, hexp]
      rfl
  · exact .inr ⟨e, rfl, .of_fault hf _⟩
  · refine .inr ⟨e, rfl, fun _ => .inr ?_⟩
    exact afterChunk_of_ne hno

/-- The next chunk is decoded. -/
theorem nextChunk_decodes {whole : Bool} {n : Nat} {b b' : BodyReader R}
    {res : Except IoErr (List UInt8)} (h : b.nextChunk whole n = (res, b')) (hn : 0 < n) :
    Decodes b b' .size res := by
  unfold nextChunk at h
  split at h
  · rename_i e b₁ hs
    cases h
    obtain ⟨_, hres, _⟩ | ⟨hres, _⟩ | ⟨e', hres, hf⟩ := sizeStep_decodes hs
    · cases hres
    · cases hres
    · cases hres
      exact .inr ⟨e, rfl, hf⟩
  · rename_i b₁ hs
    cases h
    obtain ⟨_, hres, _⟩ | ⟨_, hstep⟩ | ⟨e', hres, _⟩ := sizeStep_decodes hs
    · cases hres
    · exact .inl ⟨[], .done, rfl, fun _ => rfl, hstep⟩
    · cases hres
  · rename_i left b₁ hs
    obtain ⟨size, hres, hpos, hstep⟩ | ⟨hres, _⟩ | ⟨e', hres, _⟩ := sizeStep_decodes hs
    · cases hres
      exact (dataStep_decodes h hn hpos).of_step hstep
    · cases hres
    · cases hres

/-- **One read, decoded.** -/
theorem read_decodes {whole : Bool} {n : Nat} {b b' : BodyReader R} {st : Chunk}
    {res : Except IoErr (List UInt8)} (h : b.read whole n = (res, b')) (hn : 0 < n)
    (hst : b.chunk = some st) (hw : Within b st) : Decodes b b' st res := by
  rw [read, if_neg (by omega), hst, Option.isSome_some, if_pos rfl, chunked, hst] at h
  cases st with
  | done =>
    cases h
    exact .inl ⟨[], .done, rfl, fun _ => rfl, ⟨le_rfl, le_rfl, rfl, rfl, rfl, id⟩, rfl, rfl,
      fun hw => ⟨hw.room, hw.pos⟩, rfl⟩
  | size => exact nextChunk_decodes h hn
  | data left => exact dataStep_decodes h hn (hw.pos left rfl)
  | ending =>
    simp only at h
    split at h
    · rename_i e b₁ he
      cases h
      obtain ⟨hres, _⟩ | ⟨e', hres, hf⟩ := endingStep_decodes he
      · cases hres
      · cases hres
        exact .inr ⟨e, rfl, hf⟩
    · rename_i b₁ he
      obtain ⟨_, hstep⟩ | ⟨e', hres, _⟩ := endingStep_decodes he
      · exact (nextChunk_decodes h hn).of_step hstep
      · cases hres

/-! ### Any calls -/

/-- A reader of a chunked body, before its first call. -/
def start (r : R) (limit : Nat) (deadline : ReadDeadline) (patience : Option Patience) :
    BodyReader R :=
  { new r .chunked limit deadline with patience }

/-- What some calls delivered is decoded. -/
private theorem delivers_decodes {b b' : BodyReader R} {P : List UInt8} (h : Delivers b P b')
    {st : Chunk}
    (hst : b.chunk = some st) (hw : Within b st) :
    ∃ st', Within b' st' ∧ Step b b' st P st' := by
  induction h generalizing st with
  | refl b => exact ⟨st, hw, .refl b, hst, rfl, id, rfl⟩
  | @ok whole n b b₁ b' bs P hr hs ih =>
    rcases Nat.eq_zero_or_pos n with rfl | hn
    · obtain ⟨rfl, rfl⟩ : bs = [] ∧ b₁ = b := by cases hr; exact ⟨rfl, rfl⟩
      exact ih hst hw
    · obtain ⟨bs', st₁, hres, _, hstep⟩ | ⟨e, hres, _⟩ := read_decodes hr hn hst hw
      · cases hres
        obtain ⟨st', hw', hstep'⟩ := ih hstep.chunk_eq (hstep.within hw)
        exact ⟨st', hw', hstep.trans hstep'⟩
      · cases hres
  | @interrupted whole n b b₁ b' e P hr hi _ _ =>
    -- a body reader passes no interruption on
    rcases Nat.eq_zero_or_pos n with rfl | hn
    · cases hr
    · cases read_outcome hr hn with
      | failed _ hf =>
        rw [hf.notInterrupted] at hi
        cases hi

/-- **A chunked body, however it comes.**  Whatever the cuts of the connection and the sizes of
    the calls, what a reader delivers is the front of the decoded payload, and never over the
    limit.  At the clean end it is all of it, and exactly the bytes of the body were taken off the
    connection; a failure on a calm connection, where the deadline is not to blame, is where the
    decoding stops. -/
theorem chunked_decode (r : R) (limit : Nat) (deadline : ReadDeadline)
    (patience : Option Patience) {P : List UInt8} {b : BodyReader R}
    (h : Delivers (start r limit deadline patience) P b) :
    P <+: (decode limit (ByteStream.bytes r)).1 ∧ b.limit = limit ∧ b.total = P.length ∧
      b.total ≤ limit ∧
      ∀ whole n res b', 0 < n → b.read whole n = (res, b') →
        (∀ bs, res = .ok bs → b'.total ≤ limit) ∧
        (res = .ok [] → decode limit (ByteStream.bytes r) = (P, .ended (ByteStream.bytes b'.r))) ∧
        ∀ e, res = .error e → ByteStream.calm r →
          e = tooSlow ∨ decode limit (ByteStream.bytes r) = (P, .refused) := by
  have hstart : Within (start r limit deadline patience) .size :=
    ⟨Nat.zero_le _, fun left hleft => by cases hleft⟩
  -- what was delivered is a step of the decoder's, from the first size line
  obtain ⟨st, hw, hstep⟩ := delivers_decodes h rfl hstart
  have hdecode : decode limit (ByteStream.bytes r) =
      (P ++ (b.expects st).1, (b.expects st).2) := hstep.expects_eq
  have hlimit : b.limit = limit := hstep.onward.limit_eq
  have htotal : b.total = P.length := hstep.total_eq.trans (Nat.zero_add _)
  refine ⟨?_, hlimit, htotal, ?_, ?_⟩
  · rw [hdecode]
    exact List.prefix_append _ _
  · rw [← hlimit]
    exact (Nat.le_add_right _ _).trans hw.room
  · -- the next read goes on from there, ends the body or fails
    intro whole n res b' hn hr
    rcases read_decodes hr hn hstep.chunk_eq hw with ⟨bs, st', rfl, hend, hstep'⟩ | ⟨e, rfl, hf⟩
    · have hw' := hstep'.within hw
      refine ⟨?_, ?_, ?_⟩
      · intro _ _
        rw [← hlimit, ← hstep'.onward.limit_eq]
        exact (Nat.le_add_right _ _).trans hw'.room
      · intro hnil
        cases hnil
        rw [hdecode, hstep'.expects_eq, hend rfl, List.nil_append]
        simp [expects, decodeFrom]
      · intro e he
        cases he
    · refine ⟨nofun, nofun, ?_⟩
      intro e' he hcalm
      cases he
      rcases hf (hstep.onward.calm hcalm) with hslow | hrefused
      · exact .inl hslow
      · refine .inr ?_
        rw [hdecode, hrefused, List.append_nil]

/-- A body of three bytes, a byte at a time, from a connection that is interrupted once and goes
    on with another byte. -/
theorem chunked_decode_small :
    let socket : Socket Payload :=
      ⟨[.data 51 [13], .failure .interrupted "", .data 10 [1, 2, 3, 13, 10, 48], .data 13 [10, 13],
        .data 10 [7]]⟩
    let r := BufReader.withCapacity 4 socket
    ∃ b, Delivers (start r 3 (.new fun _ => 0) none) [1, 2, 3] b ∧ b.total = 3 ∧
      decode 3 (ByteStream.bytes r) = ([1, 2, 3], .ended [7]) := by
  intro socket r
  have hline : IsSizeLine [51, 13, 10] 3 := by
    refine ⟨⟨[51, 13], rfl, ?_⟩, ?_, ?_, ?_⟩ <;> decide
  have howes : Owes (fun _ => 0) [7] (start r 3 (.new fun _ => 0) none) [1, 2, 3] := by
    refine ⟨?_, rfl, by decide, [51, 13, 10, 1, 2, 3, 13, 10] ++ lastChunk, rfl, ?_⟩
    · simp [ByteStream.calm, Socket.Calm, socket, r, start, new, BufReader.withCapacity]
    · exact @ChunkSeq.chunk Closing [51, 13, 10] [1, 2, 3] lastChunk [] hline (by decide)
        (.close closing_lastChunk)
  rcases drain_owes howes false (fun _ => 1) with ⟨b', hdrain, hrest⟩ | ⟨_, _, i, hi⟩
  · obtain ⟨got, b, hgot, hdel, n, hn, hend⟩ := drain_trace hdrain
    rw [List.nil_append] at hgot
    subst hgot
    obtain ⟨_, _, htotal, _, hread⟩ := chunked_decode r 3 (.new fun _ => 0) none hdel
    refine ⟨b, hdel, htotal, ?_⟩
    rw [(hread false n _ b' hn hend).2.1 rfl, hrest]
  · exact absurd hi (Nat.not_lt_zero _)

end BodyReader

end Omdrop.Proto
