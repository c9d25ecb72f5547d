import Omdrop.Proto.ChunkDecode

namespace Omdrop.Proto

open Omdrop.Stream

/-!
# Ends that are none

A read that answers no bytes says that the body has ended.  It is to be believed as long as the
reader has its place in the body (`BodyReader.end_iff`).  A chunked reader takes its place out
while it makes a step, and puts it back when the step has succeeded, or when it only waited in
vain for a size line; after any other failure it has none, and takes the next call for one past
the end.
-/

/-- A whole body, as its plan frames it. -/
def Framed : BodyPlan → List UInt8 → Prop
  | .chunked, raw  => ∃ P, ChunkSeq Closing .size raw P
  | .length n, raw => raw.length = n

namespace BodyReader

variable {R : Type} [BufRead Payload R]

/-- Some calls, each for any number of bytes, whatever they come to; `ok` is asked about every
    call beforehand. -/
inductive Calls (ok : Nat → BodyReader R → Prop) : BodyReader R → BodyReader R → Prop
  | refl (b : BodyReader R) : Calls ok b b
  | call {b b₁ b' : BodyReader R} {whole : Bool} {n : Nat} {res : Except IoErr (List UInt8)}
      (h : Calls ok b b₁) (hok : ok n b₁) (hr : b₁.read whole n = (res, b')) : Calls ok b b'

/-- The whole body, as `plan` frames it, was taken off the connection that was `r` before. -/
def Received (plan : BodyPlan) (r : R) (b : BodyReader R) : Prop :=
  ∃ raw more, Framed plan raw ∧ ByteStream.bytes r = raw ++ more ++ ByteStream.bytes b.r

/-- A reader that a call for `n` bytes may be made of: it has its place in the body, or needs
    none any more. -/
def Placed (plan : BodyPlan) (r : R) (n : Nat) (b : BodyReader R) : Prop :=
  n = 0 ∨ (plan = .chunked → b.chunk = none → Received plan r b)

/-! ### What a call leaves of a reader's place -/

omit [BufRead Payload R] in
/-- Noting a size leaves the count. -/
theorem lengthLeft_note {size : Nat} {b b' : BodyReader R} {res : Except IoErr Unit}
    (h : b.note size = (res, b')) : b'.lengthLeft = b.lengthLeft := by
  obtain ⟨d, rfl, _⟩ := note_cases h
  rfl

/-- A line leaves the count. -/
theorem lengthLeft_line {b b' : BodyReader R} {res : Except IoErr (List UInt8)}
    (h : b.line = (res, b')) : b'.lengthLeft = b.lengthLeft := by
  unfold line at h
  split at h
  · cases h
    rfl
  · split at h
    · rename_i hn
      cases h
      exact (lengthLeft_note hn :)
    · rename_i hn
      cases h
      exact (lengthLeft_note hn :)

/-- A trailer leaves the count. -/
theorem lengthLeft_trailers {seen : Nat} {b b' : BodyReader R} {res : Except IoErr Unit}
    (h : b.trailers seen = (res, b')) : b'.lengthLeft = b.lengthLeft := by
  fun_induction trailers seen b with
  | case1 seen b e b₁ hl => cases h; exact lengthLeft_line hl
  | case2 seen b l b₁ hl hbad => cases h; exact lengthLeft_line hl
  | case3 seen b l b₁ hl hok hlast => cases h; exact lengthLeft_line hl
  | case4 seen b l b₁ hl hok hmore ih => exact (ih h).trans (lengthLeft_line hl)

/-- The end of a chunk leaves the count. -/
theorem lengthLeft_boundary {whole : Bool} {b b' : BodyReader R} {res : Except IoErr Unit}
    (h : b.boundary whole = (res, b')) : b'.lengthLeft = b.lengthLeft := by
  unfold boundary at h
  split at h
  · cases h
    rfl
  · cases h
    rfl

/-- A step from a size line that fails has lost its place, unless it only waited. -/
theorem sizeStep_place {whole : Bool} {b b' : BodyReader R} {res : Except IoErr (Option Nat)}
    (h : b.sizeStep whole = (res, b')) :
    b'.lengthLeft = b.lengthLeft ∧
      ∀ e, res = .error e → b'.chunk = none ∨
        b'.chunk = some .size ∧ ByteStream.bytes b'.r = ByteStream.bytes b.r := by
  unfold sizeStep at h
  split at h
  · rename_i e b₁ hb
    cases h
    obtain ⟨_, _, _, hbytes, _⟩ := boundary_cases hb
    exact ⟨(lengthLeft_boundary hb :), fun _ _ => .inr ⟨rfl, hbytes⟩⟩
  · rename_i b₁ hb
    have hb₁ : b₁.lengthLeft = b.lengthLeft := lengthLeft_boundary hb
    split at h
    · rename_i e b₂ hl
      cases h
      have hlost : b'.chunk = none := (line_cases hl).2.1
      exact ⟨(lengthLeft_line hl).trans hb₁, fun _ _ => .inl hlost⟩
    · rename_i line b₂ hl
      have hlost : b₂.chunk = none := (line_cases hl).2.1
      have hb₂ : b₂.lengthLeft = b.lengthLeft := (lengthLeft_line hl).trans hb₁
      split at h
      · cases h
        exact ⟨hb₂, fun _ _ => .inl hlost⟩
      · split at h
        · cases h
          exact ⟨hb₂, fun _ _ => .inl hlost⟩
        · split at h
          · split at h
            · rename_i htr
              cases h
              exact ⟨(lengthLeft_trailers htr).trans hb₂,
                fun _ _ => .inl ((trailers_cases htr).2.1.trans hlost)⟩
            · rename_i htr
              cases h
              exact ⟨(lengthLeft_trailers htr).trans hb₂, by simp⟩
          · split at h
            · cases h
              exact ⟨hb₂, fun _ _ => .inl hlost⟩
            · cases h
              exact ⟨hb₂, by simp⟩

/-- A read of data that fails is at no chunk afterwards. -/
theorem dataStep_place {n left : Nat} {b b' : BodyReader R} {res : Except IoErr (List UInt8)}
    (h : b.dataStep n left = (res, b')) (hn : 0 < n) :
    b'.lengthLeft = b.lengthLeft ∧ ∀ e, res = .error e → b'.chunk = none := by
  unfold dataStep at h
  split at h
  · rename_i e b₁ hd
    cases h
    obtain ⟨_, hlost, hl, _⟩ := data_cases hd hn
    exact ⟨hl, fun _ _ => hlost⟩
  · rename_i bs b₁ hd
    cases h
    exact ⟨(data_cases hd hn).2.2.1, by simp⟩

omit [BufRead Payload R] in
/-- Noting a size leaves the chunk. -/
theorem chunk_note {size : Nat} {b b' : BodyReader R} {res : Except IoErr Unit}
    (h : b.note size = (res, b')) : b'.chunk = b.chunk := by
  obtain ⟨d, rfl, _⟩ := note_cases h
  rfl

/-- An end of a chunk that fails is at no chunk afterwards. -/
theorem endingStep_place {b b' : BodyReader R} {res : Except IoErr Unit}
    (h : b.endingStep = (res, b')) :
    b'.lengthLeft = b.lengthLeft ∧ ∀ e, res = .error e → b'.chunk = none := by
  unfold endingStep at h
  split at h
  · cases h
    exact ⟨rfl, fun _ _ => rfl⟩
  · split at h
    · rename_i hn
      cases h
      exact ⟨(lengthLeft_note hn :), fun _ _ => (chunk_note hn :)⟩
    · rename_i hn
      split at h
      · cases h
        exact ⟨(lengthLeft_note hn :), fun _ _ => (chunk_note hn :)⟩
      · cases h
        exact ⟨(lengthLeft_note hn :), by simp⟩

/-- A reader further along, that has its place: what is still due, put behind what was taken, was
    due before. -/
def Along (b b' : BodyReader R) : Prop :=
  ∃ raw, ByteStream.bytes b.r = raw ++ ByteStream.bytes b'.r ∧
    ∀ raw' P, Due Closing b' raw' P → ∃ P', Due Closing b (raw ++ raw') P'

/-- A reader goes along itself. -/
theorem Along.refl (b : BodyReader R) : Along b b := ⟨[], rfl, fun _ P h => ⟨P, h⟩⟩

/-- Two ways along make one. -/
theorem Along.trans {b₁ b₂ b₃ : BodyReader R} (h : Along b₁ b₂) (h' : Along b₂ b₃) :
    Along b₁ b₃ := by
  obtain ⟨raw, hb, hdue⟩ := h
  obtain ⟨raw', hb', hdue'⟩ := h'
  refine ⟨raw ++ raw', by rw [hb, hb', List.append_assoc], ?_⟩
  intro raw₂ P h₂
  obtain ⟨P', hP'⟩ := hdue' raw₂ P h₂
  rw [List.append_assoc]
  exact hdue _ P' hP'

/-- A move goes along the stream. -/
theorem Move.along {b b' : BodyReader R} {bs : List UInt8} (h : Move b b' bs) : Along b b' := by
  obtain ⟨raw, hb, hdue⟩ := h.back
  exact ⟨raw, hb, fun raw' P h' => ⟨bs ++ P, hdue Closing raw' P h'⟩⟩

/-- An end goes along the stream. -/
theorem Ends.along {b b' : BodyReader R} (h : Ends b b') : Along b b' := by
  obtain ⟨raw, hb, hdue⟩ := h.back
  refine ⟨raw, hb, fun raw' _ h' => ⟨[], ?_⟩⟩
  -- nothing is due any more
  have hnil : raw' = [] := by
    rcases h.finished with hst | ⟨hst, hl⟩
    · rw [due_some hst] at h'
      cases h'
      rfl
    · obtain ⟨rfl, hP⟩ := (due_none hst).mp h'
      exact List.length_eq_zero_iff.mp (hP.trans hl)
  rw [hnil, List.append_nil]
  exact hdue

/-- A reader that has its place, past the end: nothing is due any more. -/
theorem Along.due_nil {b b' : BodyReader R} (h : Along b b') (hfin : Finished b') :
    ∃ raw P, ByteStream.bytes b.r = raw ++ ByteStream.bytes b'.r ∧ Due Closing b raw P := by
  obtain ⟨raw, hb, hdue⟩ := h
  have hnil : Due Closing b' [] [] := by
    rcases hfin with hst | ⟨hst, hl⟩
    · exact (due_some hst).mpr .done
    · exact (due_none hst).mpr ⟨rfl, hl.symm⟩
  obtain ⟨P, hP⟩ := hdue [] [] hnil
  rw [List.append_nil] at hP
  exact ⟨raw, P, hb, hP⟩

/-- A next chunk that fails is at no chunk afterwards. -/
theorem nextChunk_place {whole : Bool} {n : Nat} {b b' : BodyReader R}
    {res : Except IoErr (List UInt8)} (h : b.nextChunk whole n = (res, b')) (hn : 0 < n)
    (hst : b.chunk = some .size) :
    b'.lengthLeft = b.lengthLeft ∧ ∀ e, res = .error e → b'.chunk = none ∨ Along b b' := by
  unfold nextChunk at h
  split at h
  · rename_i e b₁ hs
    cases h
    obtain ⟨hl, hplace⟩ := sizeStep_place hs
    refine ⟨hl, fun _ _ => ?_⟩
    rcases hplace e rfl with hlost | ⟨hst', hbytes⟩
    · exact .inl hlost
    · refine .inr ⟨[], hbytes.symm, fun raw' P hdue => ⟨P, ?_⟩⟩
      rw [due_some hst'] at hdue
      exact (due_some hst).mpr hdue
  · rename_i b₁ hs
    cases h
    exact ⟨(sizeStep_place hs).1, by simp⟩
  · rename_i left b₁ hs
    obtain ⟨hl, hlost⟩ := dataStep_place h hn
    exact ⟨hl.trans (sizeStep_place hs).1, fun e he => .inl (hlost e he)⟩

/-- **What a failure leaves.**  A call on a chunked body that fails has lost its place, unless it
    failed in waiting for a size line. -/
theorem read_place {whole : Bool} {n : Nat} {b b' : BodyReader R} {st : Chunk}
    {res : Except IoErr (List UInt8)} (h : b.read whole n = (res, b')) (hn : 0 < n)
    (hst : b.chunk = some st) :
    b'.lengthLeft = b.lengthLeft ∧ ∀ e, res = .error e → b'.chunk = none ∨ Along b b' := by
  rw [read, if_neg (by omega), hst, Option.isSome_some, if_pos rfl, chunked, hst] at h
  cases st with
  | done =>
    cases h
    exact ⟨rfl, by simp⟩
  | size => exact nextChunk_place h hn hst
  | data left =>
    obtain ⟨hl, hlost⟩ := dataStep_place h hn
    exact ⟨hl, fun e he => .inl (hlost e he)⟩
  | ending =>
    simp only at h
    split at h
    · rename_i e b₁ he
      cases h
      obtain ⟨hl, hlost⟩ := endingStep_place he
      exact ⟨hl, fun _ _ => .inl (hlost e rfl)⟩
    · rename_i b₁ he
      obtain ⟨ho, ht, ⟨_, hst', hb⟩ | ⟨_, hres, _⟩ | ⟨_, hres, _⟩⟩ := endingStep_cases he
      · have hover : Along b b₁ := (move_endingStep hst ho ht hst' hb).along
        obtain ⟨hl, hplace⟩ := nextChunk_place h hn hst'
        refine ⟨hl.trans (endingStep_place he).1, fun e he' => ?_⟩
        exact (hplace e he').imp id hover.trans
      · cases hres
      · cases hres

/-! ### Whole runs of calls -/

/-- A reader without a place, after calls on a chunked body, answers that the body has ended. -/
theorem read_lost {b : BodyReader R} (hst : b.chunk = none) (hl : b.lengthLeft = 0) (whole : Bool)
    (n : Nat) : b.read whole n = (.ok [], b) := by
  rw [read, hst, Option.isSome_none, hl]
  by_cases hn : n = 0
  · rw [if_pos hn]
  · rw [if_neg hn, if_neg (by simp), if_pos rfl]

/-- Calls on a chunked body: the reader has its place, or has lost it. -/
private theorem calls_chunked {r : R} {limit : Nat} {deadline : ReadDeadline}
    {patience : Option Patience}
    {ok : Nat → BodyReader R → Prop} {b : BodyReader R}
    (h : Calls ok (start r limit deadline patience) b) :
    b.lengthLeft = 0 ∧ (b.chunk = none ∨ Along (start r limit deadline patience) b) := by
  induction h with
  | refl => exact ⟨rfl, .inr (.refl _)⟩
  | @call b₁ b' whole n res _ _ hr ih =>
    obtain ⟨hl, hplace⟩ := ih
    cases hst : b₁.chunk with
    | none =>
      rw [read_lost hst hl] at hr
      cases hr
      exact ⟨hl, hplace⟩
    | some st =>
      have halong : Along (start r limit deadline patience) b₁ := by
        rcases hplace with hlost | halong
        · rw [hlost] at hst
          cases hst
        · exact halong
      rcases Nat.eq_zero_or_pos n with rfl | hn
      · cases hr
        exact ⟨hl, hplace⟩
      · obtain ⟨hl', hfail⟩ := read_place hr hn hst
        refine ⟨hl'.trans hl, ?_⟩
        cases read_outcome hr hn with
        | payload _ _ hmove _ => exact .inr (halong.trans hmove.along)
        | ended hends => exact .inr (halong.trans hends.along)
        | failed _ _ => exact (hfail _ rfl).imp id halong.trans

/-- Bytes that are taken for a body of known length are gone from the connection. -/
theorem data_taken {n left : Nat} {m : Text} {b b' : BodyReader R}
    {res : Except IoErr (List UInt8)} (h : b.data n left m = (res, b')) :
    ∃ got, ByteStream.bytes b.r = got ++ ByteStream.bytes b'.r ∧
      ∀ bs, res = .ok bs → got = bs := by
  unfold data at h
  split at h
  · rename_i e r hr
    cases h
    obtain ⟨r₁, hd, hread, _⟩ := retry_trace hr
    refine ⟨[], ?_, nofun⟩
    rw [ByteStream.bytes_delivers hd, ← ByteStream.bytes_error hread]
  · rename_i r hr
    cases h
    obtain ⟨r₁, hd, hread, _⟩ := retry_trace hr
    refine ⟨[], ?_, nofun⟩
    rw [ByteStream.bytes_delivers hd, ByteStream.bytes_ok hread]
    rfl
  · rename_i bs r _ hr
    obtain ⟨r₁, hd, hread, _⟩ := retry_trace hr
    have hbytes : ByteStream.bytes b.r = bs ++ ByteStream.bytes r := by
      rw [ByteStream.bytes_delivers hd, ByteStream.bytes_ok hread]
      rfl
    split at h
    · rename_i hnote
      cases h
      obtain ⟨d, rfl, _⟩ := note_cases hnote
      exact ⟨bs, hbytes, fun bs' hbs => by cases hbs; rfl⟩
    · rename_i hnote
      cases h
      obtain ⟨d, rfl, _⟩ := note_cases hnote
      exact ⟨bs, hbytes, nofun⟩

/-- Calls on a body of known length: what is still to come is at least what has not come yet. -/
private theorem calls_length {r : R} {size limit : Nat} {deadline : ReadDeadline}
    {patience : Option Patience} {ok : Nat → BodyReader R → Prop} {b : BodyReader R}
    (h : Calls ok { new r (.length size) limit deadline with patience } b) :
    b.chunk = none ∧ ∃ got, ByteStream.bytes r = got ++ ByteStream.bytes b.r ∧
      size ≤ got.length + b.lengthLeft := by
  induction h with
  | refl => exact ⟨rfl, [], rfl, by simp [new]⟩
  | @call b₁ b' whole n res _ _ hr ih =>
    obtain ⟨hst, got, hgot, hsize⟩ := ih
    rw [read, hst, Option.isSome_none] at hr
    split at hr
    · cases hr
      exact ⟨hst, got, hgot, hsize⟩
    · rename_i hn
      rw [if_neg (by simp)] at hr
      split at hr
      · cases hr
        exact ⟨hst, got, hgot, hsize⟩
      · split at hr
        · rename_i e b₂ hd
          cases hr
          obtain ⟨_, hst', hl, _⟩ := data_cases hd (Nat.pos_of_ne_zero hn)
          obtain ⟨more, hmore, _⟩ := data_taken hd
          refine ⟨hst'.trans hst, got ++ more, ?_, ?_⟩
          · rw [hgot, hmore, List.append_assoc]
          · rw [hl, List.length_append]
            omega
        · rename_i bs b₂ hd
          cases hr
          obtain ⟨_, hst', hl, _⟩ := data_cases hd (Nat.pos_of_ne_zero hn)
          obtain ⟨more, hmore, heq⟩ := data_taken hd
          obtain rfl := heq bs rfl
          refine ⟨hst'.trans hst, got ++ more, ?_, ?_⟩
          · show ByteStream.bytes r = _ ++ ByteStream.bytes b₂.r
            rw [hgot, hmore, List.append_assoc]
          · show size ≤ _ + (b₂.lengthLeft - more.length)
            rw [hl, List.length_append]
            omega

/-- **When an end is to be believed.**  After any calls that found the reader in its place, and
    for any call with room for some bytes: the answer that the body has ended is right, whatever
    the connection does, exactly when the reader has its place, or had taken the whole body off
    the connection before it lost it. -/
theorem end_iff (r : R) (plan : BodyPlan) (limit : Nat) (deadline : ReadDeadline)
    (patience : Option Patience) {b : BodyReader R} {n : Nat}
    (h : Calls (Placed plan r) { new r plan limit deadline with patience } b) (hn : 0 < n) :
    (∀ whole b', b.read whole n = (.ok [], b') → Received plan r b') ↔ Placed plan r n b := by
  cases plan with
  | chunked =>
    obtain ⟨hl, hplace⟩ := calls_chunked h
    constructor
    · intro hends
      refine .inr fun _ hlost => ?_
      exact hends false b (read_lost hlost hl false n)
    · intro hplaced whole b' hr
      cases hst : b.chunk with
      | none =>
        rw [read_lost hst hl] at hr
        cases hr
        rcases hplaced with hzero | hrec
        · omega
        · exact hrec rfl hst
      | some st =>
        have halong : Along (start r limit deadline patience) b := by
          rcases hplace with hlost | halong
          · rw [hlost] at hst
            cases hst
          · exact halong
        cases read_outcome hr hn with
        | payload hne _ _ _ => exact absurd rfl hne
        | ended hends =>
          obtain ⟨raw, P, hb, hdue⟩ := (halong.trans hends.along).due_nil hends.finished
          refine ⟨raw, [], ⟨P, hdue⟩, ?_⟩
          rw [List.append_nil]
          exact hb
  | length size =>
    obtain ⟨hst, got, hgot, hsize⟩ := calls_length h
    constructor
    · intro _
      exact .inr nofun
    · intro _ whole b' hr
      cases read_outcome hr hn with
      | payload hne _ _ _ => exact absurd rfl hne
      | ended hends =>
        -- the length has gone down to nothing, so all of it was taken
        have hlast : b.lengthLeft = 0 ∧ b' = b := by
          rw [read, if_neg (by omega), hst, Option.isSome_none, if_neg (by simp)] at hr
          split at hr
          · rename_i hzero
            cases hr
            exact ⟨hzero, rfl⟩
          · split at hr
            · cases hr
            · rename_i bs b₂ hd
              cases hr
              obtain ⟨_, _, _, ⟨_, hres, hne, _⟩ | ⟨_, hres, _⟩ | ⟨_, hres, _⟩⟩ := data_cases hd hn
              · cases hres
                exact absurd rfl hne
              · cases hres
              · cases hres
        obtain ⟨hzero, rfl⟩ := hlast
        refine ⟨got.take size, got.drop size, ?_, ?_⟩
        · show (got.take size).length = size
          rw [List.length_take]
          omega
        · rw [List.take_append_drop]
          exact hgot

/-- A connection that times out before the first size line, and then ends. -/
def quietConnection : BufReader (Socket Payload) :=
  BufReader.withCapacity 4 ⟨[.failure .timedOut "timed out"]⟩

/-- The first call times out, and the reader has lost its place. -/
theorem quiet_call : ∃ e b,
    (start quietConnection 3 (.new fun _ => 0) none).read false 1 = (.error e, b) ∧
      b.chunk = none ∧ b.lengthLeft = 0 := by
  have hline : ∃ e r, readLine (maxChunkLineBytes + 1) [] quietConnection = (.error e, r) := by
    unfold readLine
    exact ⟨_, _, rfl⟩
  obtain ⟨e, r, hline⟩ := hline
  refine ⟨e, ?_⟩
  simp [read, start, new, chunked, nextChunk, sizeStep, boundary, line, hline]

/-- The call after a timeout answers that the body has ended, when nothing of it has come. -/
theorem false_end :
    ∃ e b b', (start quietConnection 3 (.new fun _ => 0) none).read false 1 = (.error e, b) ∧
      b.read false 1 = (.ok [], b') ∧ ¬ Received .chunked quietConnection b' := by
  obtain ⟨e, b, hread, hst, hl⟩ := quiet_call
  refine ⟨e, b, b, hread, read_lost hst hl false 1, ?_⟩
  rintro ⟨raw, more, ⟨P, hseq⟩, hb⟩
  -- no byte was on the connection, and a body has some
  have hnone : ByteStream.bytes quietConnection = [] := rfl
  rw [hnone] at hb
  have hraw : raw = [] := by
    have hlen := congrArg List.length hb
    simp only [List.length_nil, List.length_append] at hlen
    exact List.length_eq_zero_iff.mp (by omega)
  rw [hraw] at hseq
  have hdecode := decodeFrom_of_chunkSeq hseq (le_refl P.length) []
  rw [show decodeFrom P.length ([] ++ []) .size = ([], .refused) by
    show decode _ [] = _
    exact decode_of_no_line fun line size rest hline hnil =>
      hline.isLine.ne_nil (List.append_eq_nil_iff.mp hnil.symm).1] at hdecode
  cases hdecode

/-- After the timeout, the next call is to be believed exactly when the body had come by then. -/
theorem end_iff_quiet : ∃ b,
    Calls (Placed .chunked quietConnection) (start quietConnection 3 (.new fun _ => 0) none) b ∧
      b.chunk = none ∧
      ((∀ whole b', b.read whole 1 = (.ok [], b') → Received .chunked quietConnection b') ↔
        Placed .chunked quietConnection 1 b) := by
  obtain ⟨e, b, hread, hst, _⟩ := quiet_call
  have hcalls : Calls (Placed .chunked quietConnection)
      (start quietConnection 3 (.new fun _ => 0) none) b :=
    .call (.refl _) (.inr nofun) hread
  exact ⟨b, hcalls, hst, end_iff quietConnection .chunked 3 _ none hcalls (by omega)⟩

end BodyReader

end Omdrop.Proto
