import Omdrop.Proto.Body

namespace Omdrop.Proto

open Omdrop.Stream

/-!
# What a body reader makes of its connection

`Due K b raw P` says what the reader `b` has yet to take off the connection and to deliver: the
encoding `raw` of the payload `P`, whatever the framing.  Every read is either a `Move`, which
delivers the front of what is due, or an `Ends`, which takes the rest of the framing:

* `read_ok`, `read_error` — which of them a read was, and what a failed read means;
* `delivers_due` — what a reader delivered is the payload of what it took off the connection;
* `steady` — a reader before a well-formed body delivers its payload, and takes no byte more.
-/

namespace BodyReader

variable {R : Type} [BufRead Payload R]

/-- What a reader has yet to take off the connection, and the payload it brings. -/
def Due (K : List UInt8 → Prop) (b : BodyReader R) (raw P : List UInt8) : Prop :=
  match b.chunk with
  | some st => ChunkSeq K st raw P
  | none    => raw = P ∧ P.length = b.lengthLeft

/-- The reader is past the end of its body. -/
def Finished (b : BodyReader R) : Prop :=
  b.chunk = some .done ∨ b.chunk = none ∧ b.lengthLeft = 0

/-- From `b` to `b'`, the front `bs` of the payload was delivered. -/
structure Move (b b' : BodyReader R) (bs : List UInt8) : Prop where
  onward : Onward b b'
  total_eq : b'.total = b.total + bs.length
  back : ∃ raw, ByteStream.bytes b.r = raw ++ ByteStream.bytes b'.r ∧
    ∀ K raw' P, Due K b' raw' P → Due K b (raw ++ raw') (bs ++ P)
  forth : ∀ raw P after, Due Closing b raw P → ByteStream.bytes b.r = raw ++ after →
    ∃ raw' P', P = bs ++ P' ∧ ByteStream.bytes b'.r = raw' ++ after ∧ Due Closing b' raw' P'

/-- From `b` to `b'`, the rest of the framing was taken. -/
structure Ends (b b' : BodyReader R) : Prop where
  onward : Onward b b'
  total_eq : b'.total = b.total
  finished : Finished b'
  back : ∃ raw, ByteStream.bytes b.r = raw ++ ByteStream.bytes b'.r ∧ Due Closing b raw []
  forth : ∀ raw P after, Due Closing b raw P → ByteStream.bytes b.r = raw ++ after →
    P = [] ∧ ByteStream.bytes b'.r = after

/-- Not to move is to deliver nothing. -/
theorem Move.refl (b : BodyReader R) : Move b b [] where
  onward := .refl b
  total_eq := rfl
  back := ⟨[], rfl, fun _ _ _ h => h⟩
  forth raw P _ h hb := ⟨raw, P, rfl, hb, h⟩

/-- Two moves deliver what the one and the other do. -/
theorem Move.trans {b₁ b₂ b₃ : BodyReader R} {bs bs' : List UInt8} (h : Move b₁ b₂ bs)
    (h' : Move b₂ b₃ bs') : Move b₁ b₃ (bs ++ bs') where
  onward := h.onward.trans h'.onward
  total_eq := by rw [h'.total_eq, h.total_eq, List.length_append, Nat.add_assoc]
  back := by
    obtain ⟨raw, hb, hdue⟩ := h.back
    obtain ⟨raw', hb', hdue'⟩ := h'.back
    refine ⟨raw ++ raw', by rw [hb, hb', List.append_assoc], fun K raw₃ P h₃ => ?_⟩
    rw [List.append_assoc, List.append_assoc]
    exact hdue K _ _ (hdue' K _ _ h₃)
  forth raw P after hdue hb := by
    obtain ⟨raw₂, P₂, rfl, hb₂, hdue₂⟩ := h.forth raw P after hdue hb
    obtain ⟨raw₃, P₃, rfl, hb₃, hdue₃⟩ := h'.forth raw₂ P₂ after hdue₂ hb₂
    exact ⟨raw₃, P₃, by rw [List.append_assoc], hb₃, hdue₃⟩

/-- What ends after a move ends. -/
theorem Move.ends {b₁ b₂ b₃ : BodyReader R} (h : Move b₁ b₂ []) (h' : Ends b₂ b₃) :
    Ends b₁ b₃ where
  onward := h.onward.trans h'.onward
  total_eq := by rw [h'.total_eq, h.total_eq, List.length_nil, Nat.add_zero]
  finished := h'.finished
  back := by
    obtain ⟨raw, hb, hdue⟩ := h.back
    obtain ⟨raw', hb', hdue'⟩ := h'.back
    exact ⟨raw ++ raw', by rw [hb, hb', List.append_assoc], hdue Closing _ _ hdue'⟩
  forth raw P after hdue hb := by
    obtain ⟨raw₂, _, rfl, hb₂, hdue₂⟩ := h.forth raw P after hdue hb
    exact h'.forth raw₂ _ after hdue₂ hb₂

/-! ### The steps as moves -/

omit [BufRead Payload R] in
/-- In a chunked body, what is due is decided by the state of the chunk. -/
theorem due_some {K : List UInt8 → Prop} {b : BodyReader R} {st : Chunk} {raw P : List UInt8}
    (h : b.chunk = some st) : Due K b raw P ↔ ChunkSeq K st raw P := by
  rw [Due, h]

omit [BufRead Payload R] in
/-- In a counted body, the next bytes are due. -/
theorem due_none {K : List UInt8 → Prop} {b : BodyReader R} {raw P : List UInt8}
    (h : b.chunk = none) : Due K b raw P ↔ raw = P ∧ P.length = b.lengthLeft := by
  rw [Due, h]

/-- The line that begins what may come before a size line. -/
theorem chunkSeq_size {raw P line after rest : List UInt8} {size : Nat}
    (h : ChunkSeq Closing .size raw P) (hline : IsSizeLine line size)
    (heq : raw ++ after = line ++ rest) :
    (size = 0 ∧ P = [] ∧ ∃ trailers, Trailers 0 trailers ∧ rest = trailers ++ after) ∨
    (0 < size ∧ ∃ raw', ChunkSeq Closing (.data size) raw' P ∧ rest = raw' ++ after) := by
  cases h with
  | close hclose =>
    obtain ⟨line', trailers, rfl, hline', htr⟩ := hclose
    rw [List.append_assoc] at heq
    obtain ⟨rfl, rfl⟩ := hline'.isLine.eq_of_append_eq hline.isLine heq
    have h0 : size = 0 := by simpa using hline.size_eq.symm.trans hline'.size_eq
    exact .inl ⟨h0, rfl, trailers, htr, rfl⟩
  | size hline' hpos hdata =>
    rw [List.append_assoc] at heq
    obtain ⟨rfl, rfl⟩ := hline'.isLine.eq_of_append_eq hline.isLine heq
    obtain rfl : size = _ := by simpa using hline.size_eq.symm.trans hline'.size_eq
    exact .inr ⟨hpos, _, hdata, rfl⟩

/-- A size line that announces a chunk is a move. -/
private theorem move_sizeStep {b b' : BodyReader R} {size : Nat} {line : List UInt8}
    (hst : b.chunk = some .size) (ho : Onward b b') (ht : b'.total = b.total)
    (hst' : b'.chunk = some (.data size)) (hline : IsSizeLine line size) (hpos : 0 < size)
    (hb : ByteStream.bytes b.r = line ++ ByteStream.bytes b'.r) : Move b b' [] where
  onward := ho
  total_eq := ht
  back := by
    refine ⟨line, hb, fun K raw P h => ?_⟩
    rw [due_some hst'] at h
    rw [due_some hst]
    exact .size hline hpos h
  forth raw P after h heq := by
    rw [due_some hst] at h
    rcases chunkSeq_size h hline (heq.symm.trans hb) with ⟨h0, _⟩ | ⟨_, raw', hdata, hrest⟩
    · omega
    · exact ⟨raw', P, rfl, hrest, (due_some hst').mpr hdata⟩

/-- A closing chunk ends the body. -/
private theorem ends_sizeStep {b b' : BodyReader R} {raw₀ : List UInt8} (hst : b.chunk = some .size)
    (ho : Onward b b') (ht : b'.total = b.total) (hst' : b'.chunk = some .done)
    (hclose : Closing raw₀) (hb : ByteStream.bytes b.r = raw₀ ++ ByteStream.bytes b'.r) :
    Ends b b' where
  onward := ho
  total_eq := ht
  finished := .inl hst'
  back := ⟨raw₀, hb, (due_some hst).mpr (.close hclose)⟩
  forth raw P after h heq := by
    rw [due_some hst] at h
    obtain ⟨line, trailers, rfl, hline, htr⟩ := hclose
    rw [List.append_assoc] at hb
    rcases chunkSeq_size h hline (heq.symm.trans hb) with ⟨_, hP, tr, htr', hrest⟩ | ⟨h0, _⟩
    · exact ⟨hP, (htr.eq_of_append_eq htr' hrest).2⟩
    · omega

/-- Bytes that came, when enough was due, are the front of what was due. -/
theorem append_eq_front {due after bs rest : List UInt8} (h : due ++ after = bs ++ rest)
    (hlen : bs.length ≤ due.length) :
    due = bs ++ due.drop bs.length ∧ rest = due.drop bs.length ++ after := by
  have hpre : due.take bs.length = bs := by
    have := congrArg (List.take bs.length) h
    rwa [List.take_left, List.take_append_of_le_length hlen] at this
  have hdue : due = bs ++ due.drop bs.length := by
    conv_lhs => rw [← List.take_append_drop bs.length due, hpre]
  refine ⟨hdue, ?_⟩
  rw [hdue, List.append_assoc, List.append_cancel_left_eq] at h
  exact h.symm

/-- Payload is a move. -/
private theorem move_dataStep {b b' : BodyReader R} {left : Nat} {bs : List UInt8}
    (hst : b.chunk = some (.data left)) (ho : Onward b b')
    (ht : b'.total = b.total + bs.length) (hleft : 0 < left) (hlen : bs.length ≤ left)
    (hst' : b'.chunk = some (if left - bs.length = 0 then .ending else .data (left - bs.length)))
    (hb : ByteStream.bytes b.r = bs ++ ByteStream.bytes b'.r) : Move b b' bs where
  onward := ho
  total_eq := ht
  back := by
    refine ⟨bs, hb, fun K raw P h => ?_⟩
    rw [due_some hst'] at h
    rw [due_some hst]
    split at h
    · exact .data hleft (by omega) h
    · cases h with
      | data _ hd h =>
        rw [← List.append_assoc, ← List.append_assoc]
        exact .data hleft (by rw [List.length_append]; omega) h
  forth raw P after h heq := by
    rw [due_some hst] at h
    cases h with
    | @data _ d raw' P' _ hd h =>
      rw [List.append_assoc] at heq
      obtain ⟨hd', hrest⟩ := append_eq_front (heq.symm.trans hb) (by omega)
      refine ⟨d.drop bs.length ++ raw', d.drop bs.length ++ P', ?_, ?_, ?_⟩
      · rw [← List.append_assoc, ← hd']
      · rw [hrest, List.append_assoc]
      · rw [due_some hst']
        split
        · rename_i h0
          rw [List.drop_eq_nil_iff.mpr (by omega)]
          exact h
        · exact .data (by omega) (by rw [List.length_drop]; omega) h

/-- The CRLF after a chunk is a move. -/
theorem move_endingStep {b b' : BodyReader R} (hst : b.chunk = some .ending) (ho : Onward b b')
    (ht : b'.total = b.total) (hst' : b'.chunk = some .size)
    (hb : ByteStream.bytes b.r = crlf ++ ByteStream.bytes b'.r) : Move b b' [] where
  onward := ho
  total_eq := ht
  back := by
    refine ⟨crlf, hb, fun K raw P h => ?_⟩
    rw [due_some hst'] at h
    rw [due_some hst]
    exact .ending h
  forth raw P after h heq := by
    rw [due_some hst] at h
    cases h with
    | ending h =>
      rw [hb, List.append_assoc, List.append_cancel_left_eq] at heq
      exact ⟨_, P, rfl, heq, (due_some hst').mpr h⟩

/-- Bytes of a body of known length are a move. -/
private theorem move_length {b b' : BodyReader R} {bs : List UInt8} (hst : b.chunk = none)
    (ho : Onward b b') (ht : b'.total = b.total + bs.length) (hlen : bs.length ≤ b.lengthLeft)
    (hst' : b'.chunk = none) (hl : b'.lengthLeft = b.lengthLeft - bs.length)
    (hb : ByteStream.bytes b.r = bs ++ ByteStream.bytes b'.r) : Move b b' bs where
  onward := ho
  total_eq := ht
  back := by
    refine ⟨bs, hb, fun K raw P h => ?_⟩
    obtain ⟨rfl, hP⟩ := (due_none hst').mp h
    exact (due_none hst).mpr ⟨rfl, by rw [List.length_append]; omega⟩
  forth raw P after h heq := by
    obtain ⟨rfl, hP⟩ := (due_none hst).mp h
    obtain ⟨hraw, hrest⟩ := append_eq_front (heq.symm.trans hb) (by omega)
    exact ⟨raw.drop bs.length, raw.drop bs.length, hraw, hrest,
      (due_none hst').mpr ⟨rfl, by rw [List.length_drop, hP, hl]⟩⟩

/-! ### One read -/

/-- Why a read failed: for no fault of the body's; because the connection went quiet before a
    size line and the caller called the body whole; or because of what came. -/
inductive Failure (whole : Bool) (b b' : BodyReader R) (e : IoErr) : Prop
  | fault (h : Fault b e)
  | quiet (he : e = BodyError.complete.intoIo) (hwhole : whole = true)
      (hcalm : ¬ ByteStream.calm b.r) (hmove : Move b b' []) (hst : b'.chunk = some .size)
  | refused (hr : Refusal e) (hbad : ∀ raw P after, Due Closing b raw P →
      ByteStream.bytes b.r = raw ++ after → ¬ P.length ≤ b.limit - b.total)

/-- A failure after a move is a failure. -/
theorem Failure.of_move {whole : Bool} {b b₁ b' : BodyReader R} {e : IoErr}
    (h : Failure whole b₁ b' e) (hm : Move b b₁ []) : Failure whole b b' e := by
  cases h with
  | fault h => exact .fault (h.of_onward hm.onward)
  | quiet he hwhole hcalm hmove hst =>
    exact .quiet he hwhole (fun h => hcalm (hm.onward.calm h)) (hm.trans hmove) hst
  | refused hr hbad =>
    refine .refused hr fun raw P after hdue hb hle => ?_
    obtain ⟨raw', _, rfl, hb', hdue'⟩ := hm.forth raw P after hdue hb
    refine hbad raw' _ after hdue' hb' ?_
    rwa [hm.onward.limit_eq, hm.total_eq]

/-- What a call comes to: a move with payload, the end of the body, or a failure. -/
inductive Outcome (whole : Bool) (n : Nat) (b b' : BodyReader R) :
    Except IoErr (List UInt8) → Prop
  | payload {bs} (hne : bs ≠ []) (hlen : bs.length ≤ n) (hmove : Move b b' bs)
      (hsize : FiniteRead.size b'.r < FiniteRead.size b.r) : Outcome whole n b b' (.ok bs)
  | ended (h : Ends b b') : Outcome whole n b b' (.ok [])
  | failed {e} (ho : Onward b b') (h : Failure whole b b' e) : Outcome whole n b b' (.error e)

/-- An outcome after a move is an outcome. -/
theorem Outcome.of_move {whole : Bool} {n : Nat} {b b₁ b' : BodyReader R}
    {res : Except IoErr (List UInt8)} (h : Outcome whole n b₁ b' res) (hm : Move b b₁ []) :
    Outcome whole n b b' res := by
  cases h with
  | payload hne hlen hmove hsize =>
    exact .payload hne hlen (hm.trans hmove) (hsize.trans_le hm.onward.size_le)
  | ended h => exact .ended (hm.ends h)
  | failed ho h => exact .failed (hm.onward.trans ho) (h.of_move hm)

/-- Reading data of a chunk has an outcome. -/
theorem dataStep_outcome {whole : Bool} {n left : Nat} {b b' : BodyReader R}
    {res : Except IoErr (List UInt8)} (h : b.dataStep n left = (res, b'))
    (hst : b.chunk = some (.data left)) (hn : 0 < n) : Outcome whole n b b' res := by
  obtain ⟨ho, ⟨bs, rfl, hne, hln, hll, hb, ht, hs, hst'⟩ | ⟨e, rfl, hf⟩ | ⟨e, rfl, hr, hnil⟩⟩ :=
    dataStep_cases h hn
  · have hleft : 0 < left := (List.length_pos_iff.mpr hne).trans_le hll
    exact .payload hne hln (move_dataStep hst ho ht hleft hll hst' hb) hs
  · exact .failed ho (.fault hf)
  · refine .failed ho (.refused hr fun raw P after hdue hb => ?_)
    rw [due_some hst] at hdue
    cases hdue with
    | data hpos hd _ =>
      rw [hnil hpos] at hb
      have hlen := congrArg List.length hb
      simp only [List.length_nil, List.length_append] at hlen
      omega

/-- The next chunk has an outcome. -/
theorem nextChunk_outcome {whole : Bool} {n : Nat} {b b' : BodyReader R}
    {res : Except IoErr (List UInt8)} (h : b.nextChunk whole n = (res, b'))
    (hst : b.chunk = some .size) (hn : 0 < n) : Outcome whole n b b' res := by
  unfold nextChunk at h
  split at h
  · rename_i e b₁ hs
    cases h
    obtain ⟨ho, ht, ⟨_, _, hres, _⟩ | ⟨hres, _⟩ | ⟨_, hres, hf⟩ | ⟨hres, hw, hst', hb, hc⟩ |
      ⟨_, hres, hr, hno⟩⟩ := sizeStep_cases hs
    · simp at hres
    · simp at hres
    · cases hres
      exact .failed ho (.fault hf)
    · cases hres
      have hmove : Move b b' [] :=
        { onward := ho
          total_eq := ht
          back := ⟨[], hb.symm, fun K raw P h => by
            rwa [due_some hst, List.nil_append, List.nil_append, ← due_some hst']⟩
          forth := fun raw P after h heq =>
            ⟨raw, P, rfl, hb.trans heq, by rwa [due_some hst', ← due_some hst]⟩ }
      exact .failed ho (.quiet rfl hw hc hmove hst')
    · cases hres
      refine .failed ho (.refused hr fun raw P after hdue hb hle => ?_)
      rw [due_some hst] at hdue
      cases hdue with
      | close hclose =>
        obtain ⟨line, trailers, rfl, hline, htr⟩ := hclose
        rw [List.append_assoc] at hb
        exact (hno line 0 _ hline hb (Nat.zero_le _)).2 trailers after htr rfl
      | @size line left raw P hline hpos hdata =>
        have hleft : left ≤ P.length := by
          cases hdata with
          | data _ hd _ =>
            rw [List.length_append]
            omega
        rw [List.append_assoc] at hb
        have := (hno line left _ hline hb (hleft.trans hle)).1
        omega
  · rename_i b₁ hs
    cases h
    obtain ⟨ho, ht, ⟨_, _, hres, _⟩ | ⟨_, hst', raw, hclose, hb⟩ | ⟨_, hres, _⟩ | ⟨hres, _⟩ |
      ⟨_, hres, _⟩⟩ := sizeStep_cases hs
    · simp at hres
    · exact .ended (ends_sizeStep hst ho ht hst' hclose hb)
    · simp at hres
    · simp at hres
    · simp at hres
  · rename_i left b₁ hs
    obtain ⟨ho, ht, ⟨size, line, hres, hst', hline, hpos, _, hb⟩ | ⟨hres, _⟩ | ⟨_, hres, _⟩ |
      ⟨hres, _⟩ | ⟨_, hres, _⟩⟩ := sizeStep_cases hs
    · cases hres
      exact (dataStep_outcome h hst' hn).of_move
        (move_sizeStep hst ho ht hst' hline hpos hb)
    · simp at hres
    · simp at hres
    · simp at hres
    · simp at hres

/-- **One read.**  Whatever the framing, a call for some bytes moves on with payload, ends the
    body, or fails. -/
theorem read_outcome {whole : Bool} {n : Nat} {b b' : BodyReader R}
    {res : Except IoErr (List UInt8)} (h : b.read whole n = (res, b')) (hn : 0 < n) :
    Outcome whole n b b' res := by
  rw [read, if_neg (by omega)] at h
  cases hst : b.chunk with
  | some st =>
    rw [hst, Option.isSome_some, if_pos rfl, chunked, hst] at h
    cases st with
    -- a body that has ended stays so, and is due nothing
    | done =>
      cases h
      have ho : Onward b { b with chunk := some .done } := ⟨le_rfl, le_rfl, rfl, rfl, rfl, id⟩
      exact .ended
        { onward := ho
          total_eq := rfl
          finished := .inl rfl
          back := ⟨[], rfl, (due_some hst).mpr .done⟩
          forth := fun raw P after hdue hb => by
            rw [due_some hst] at hdue
            cases hdue
            exact ⟨rfl, hb⟩ }
    | size => exact nextChunk_outcome h hst hn
    | data left => exact dataStep_outcome h hst hn
    -- the line end behind a chunk, and then the next one
    | ending =>
      simp only at h
      split at h
      · rename_i e b₁ he
        cases h
        obtain ⟨ho, ht, ⟨hres, _⟩ | ⟨_, hres, hf⟩ | ⟨_, hres, hr, hno⟩⟩ := endingStep_cases he
        · simp at hres
        · cases hres
          exact .failed ho (.fault hf)
        · cases hres
          refine .failed ho (.refused hr fun raw P after hdue hb => ?_)
          rw [due_some hst] at hdue
          cases hdue with
          | ending _ =>
            rw [List.append_assoc] at hb
            exact absurd hb (hno _)
      · rename_i b₁ he
        obtain ⟨ho, ht, ⟨_, hst', hb⟩ | ⟨_, hres, _⟩ | ⟨_, hres, _⟩⟩ := endingStep_cases he
        · exact (nextChunk_outcome h hst' hn).of_move (move_endingStep hst ho ht hst' hb)
        · simp at hres
        · simp at hres
  -- without chunks the bytes are counted
  | none =>
    rw [hst, Option.isSome_none, if_neg (by simp)] at h
    by_cases hleft : b.lengthLeft = 0
    · rw [if_pos hleft] at h
      cases h
      exact .ended
        { onward := .refl b
          total_eq := rfl
          finished := .inr ⟨hst, hleft⟩
          back := ⟨[], rfl, (due_none hst).mpr ⟨rfl, hleft.symm⟩⟩
          forth := fun raw P after hdue hb => by
            obtain ⟨rfl, hP⟩ := (due_none hst).mp hdue
            obtain rfl : raw = [] := List.length_eq_zero_iff.mp (hP.trans hleft)
            exact ⟨rfl, hb⟩ }
    · rw [if_neg hleft] at h
      split at h
      · rename_i e b₁ hd
        cases h
        obtain ⟨ho, _, _, ⟨_, hres, _⟩ | ⟨_, hres, hf⟩ | ⟨_, hres, hr, hnil⟩⟩ :=
          data_cases hd hn
        · simp at hres
        · cases hres
          exact .failed ho (.fault hf)
        · cases hres
          refine .failed ho (.refused hr fun raw P after hdue hb => ?_)
          obtain ⟨rfl, hP⟩ := (due_none hst).mp hdue
          rw [hnil (Nat.pos_of_ne_zero hleft)] at hb
          -- the stream is at its end, and bytes are due
          have hraw : raw = [] := (List.append_eq_nil_iff.mp hb.symm).1
          rw [hraw] at hP
          exact absurd hP.symm hleft
      · rename_i bs b₁ hd
        cases h
        obtain ⟨ho, hst', hl, ⟨_, hres, hne, hln, hll, hb, ht, hs⟩ | ⟨_, hres, _⟩ | ⟨_, hres, _⟩⟩ :=
          data_cases hd hn
        · cases hres
          have ho' : Onward b { b₁ with lengthLeft := b₁.lengthLeft - bs.length } :=
            ⟨ho.1, ho.2, ho.3, ho.4, ho.5, ho.6⟩
          exact .payload hne hln
            (move_length hst ho' ht hll (hst'.trans hst) (congrArg (· - bs.length) hl) hb) hs
        · simp at hres
        · simp at hres

/-! ### The reader as a source -/

/-- A failure is no interruption. -/
theorem Failure.notInterrupted {whole : Bool} {b b' : BodyReader R} {e : IoErr}
    (h : Failure whole b b' e) : e.isInterrupted = false := by
  cases h with
  | fault h => exact h.notInterrupted
  | quiet he => rw [he]; rfl
  | refused hr => exact hr.notInterrupted

/-- Whatever comes of a read, the reader goes onward. -/
theorem Outcome.onward {whole : Bool} {n : Nat} {b b' : BodyReader R}
    {res : Except IoErr (List UInt8)} (h : Outcome whole n b b' res) : Onward b b' := by
  cases h with
  | payload _ _ hmove _ => exact hmove.onward
  | ended h => exact h.onward
  | failed ho _ => exact ho

/-- A read goes onward. -/
theorem onward_read {whole : Bool} {n : Nat} {b b' : BodyReader R}
    {res : Except IoErr (List UInt8)} (h : b.read whole n = (res, b')) : Onward b b' := by
  rcases Nat.eq_zero_or_pos n with rfl | hn
  · cases h
    exact .refl b
  · exact (read_outcome h hn).onward

instance : FiniteRead Bool Payload (BodyReader R) where
  read := read
  patience b := Read.patience b.r
  size b := FiniteRead.size b.r
  length_read {whole n b b' bs} h := by
    rcases Nat.eq_zero_or_pos n with rfl | hn
    · cases h
      exact le_rfl
    · cases read_outcome h hn with
      | payload _ hlen _ _ => exact hlen
      | ended _ => exact Nat.zero_le _
  patience_read h := (onward_read h).patience_le
  patience_interrupted {whole n b b' e} h hi := by
    rcases Nat.eq_zero_or_pos n with rfl | hn
    · cases h
    · cases read_outcome h hn with
      | failed _ hf => simp [hf.notInterrupted] at hi
  size_read h := (onward_read h).size_le
  size_read_lt {whole n b b' x xs} h := by
    rcases Nat.eq_zero_or_pos n with rfl | hn
    · cases h
    · cases read_outcome h hn with
      | payload _ _ _ hsize => exact hsize

/-! ### What a reader delivers -/

/-- A reader past the end takes nothing more. -/
theorem read_finished {whole : Bool} {n : Nat} {b b' : BodyReader R}
    {res : Except IoErr (List UInt8)} (h : b.read whole n = (res, b')) (hb : Finished b) :
    res = .ok [] ∧ Finished b' ∧ b'.r = b.r := by
  unfold read at h
  split at h
  · cases h
    exact ⟨rfl, hb, rfl⟩
  · rcases hb with hst | ⟨hst, hl⟩
    · rw [hst, Option.isSome_some, if_pos rfl, chunked, hst] at h
      cases h
      exact ⟨rfl, .inl rfl, rfl⟩
    · rw [hst, Option.isSome_none, if_neg (by simp), if_pos hl] at h
      cases h
      exact ⟨rfl, .inr ⟨hst, hl⟩, rfl⟩

/-- A finished body delivers nothing more. -/
private theorem delivers_finished {b b' : BodyReader R} {P : List UInt8} (h : Delivers b P b')
    (hb : Finished b) : P = [] ∧ Finished b' ∧ b'.r = b.r := by
  induction h with
  | refl => exact ⟨rfl, hb, rfl⟩
  | ok hr _ ih =>
    obtain ⟨hres, hb', hr'⟩ := read_finished hr hb
    obtain ⟨rfl, hb'', hr''⟩ := ih hb'
    cases hres
    exact ⟨rfl, hb'', hr''.trans hr'⟩
  | interrupted hr _ _ _ =>
    obtain ⟨hres, _⟩ := read_finished hr hb
    simp at hres

/-- A reader that delivers goes onward. -/
private theorem delivers_onward {b b' : BodyReader R} {P : List UInt8} (h : Delivers b P b') :
    Onward b b' := by
  induction h with
  | refl b => exact .refl b
  | ok hr _ ih => exact (onward_read hr).trans ih
  | interrupted hr _ _ ih => exact (onward_read hr).trans ih

/-- **What a reader delivered.**  As long as the body goes on, the front of the payload; once it
    has ended, the whole payload of what was taken off the connection. -/
theorem delivers_due {b b' : BodyReader R} {P : List UInt8} (h : Delivers b P b') :
    Move b b' P ∨ (Finished b' ∧ Onward b b' ∧
      ∃ raw, ByteStream.bytes b.r = raw ++ ByteStream.bytes b'.r ∧ Due Closing b raw P) := by
  induction h with
  | refl b => exact .inl (.refl b)
  | @ok whole n b b₁ b' bs P hr hs ih =>
    rcases Nat.eq_zero_or_pos n with rfl | hn
    · obtain ⟨rfl, rfl⟩ : bs = [] ∧ b₁ = b := by cases hr; exact ⟨rfl, rfl⟩
      exact ih
    · cases read_outcome hr hn with
      | payload hne hlen hmove _ =>
        rcases ih with hm | ⟨hfin, ho, raw', hb', hdue'⟩
        · exact .inl (hmove.trans hm)
        · obtain ⟨raw, hb, hback⟩ := hmove.back
          exact .inr ⟨hfin, hmove.onward.trans ho, raw ++ raw',
            by rw [hb, hb', List.append_assoc], hback Closing _ _ hdue'⟩
      | ended hends =>
        obtain ⟨rfl, hfin, hr'⟩ := delivers_finished hs hends.finished
        obtain ⟨raw, hb, hdue⟩ := hends.back
        have ho : Onward b b' := hends.onward.trans (delivers_onward hs)
        exact .inr ⟨hfin, ho, raw, by rw [hb, hr'], hdue⟩
  | @interrupted whole n b b₁ b' e P hr hi _ _ =>
    rcases Nat.eq_zero_or_pos n with rfl | hn
    · cases hr
    · cases read_outcome hr hn with
      | failed _ hf => simp [hf.notInterrupted] at hi

/-- `b` is calm and before the body of payload `P`, after which comes `after`. -/
structure Owes (clock : Nat → Nat) (after : List UInt8) (b : BodyReader R) (P : List UInt8) :
    Prop where
  calm : ByteStream.calm b.r
  clock_eq : b.deadline.clock = clock
  length_le : P.length ≤ b.limit - b.total
  due : ∃ raw, ByteStream.bytes b.r = raw ++ after ∧ Due Closing b raw P

/-- What was owed is what is delivered and what is owed still. -/
theorem Owes.move {clock : Nat → Nat} {after P bs : List UInt8} {b b' : BodyReader R}
    (h : Owes clock after b P) (hm : Move b b' bs) :
    ∃ P', P = bs ++ P' ∧ Owes clock after b' P' := by
  obtain ⟨raw, hb, hdue⟩ := h.due
  obtain ⟨raw', P', rfl, hb', hdue'⟩ := hm.forth raw P after hdue hb
  have hlen := h.length_le
  rw [List.length_append] at hlen
  exact ⟨P', rfl, hm.onward.calm h.calm, hm.onward.clock_eq.trans h.clock_eq,
    by rw [hm.onward.limit_eq, hm.total_eq]; omega, raw', hb', hdue'⟩

/-- A reader that owes a body, and comes to its end, owed nothing more. -/
theorem Owes.ends {clock : Nat → Nat} {after P : List UInt8} {b b' : BodyReader R}
    (h : Owes clock after b P) (he : Ends b b') :
    P = [] ∧ Owes clock after b' [] ∧ ByteStream.bytes b'.r = after := by
  obtain ⟨raw, hb, hdue⟩ := h.due
  obtain ⟨hP, hb'⟩ := he.forth raw P after hdue hb
  refine ⟨hP, ⟨he.onward.calm h.calm, he.onward.clock_eq.trans h.clock_eq, Nat.zero_le _,
    [], hb', ?_⟩, hb'⟩
  rcases he.finished with hst | ⟨hst, hl⟩
  · exact (due_some hst).mpr .done
  · exact (due_none hst).mpr ⟨rfl, hl.symm⟩

/-- **A reader keeps its word.**  Before a well-formed body under the limit it delivers the
    payload; only the deadline can stop it. -/
theorem steady (clock : Nat → Nat) (after : List UInt8) :
    Steady (fun e => e = tooSlow ∧ Slow clock) (Owes clock after (R := R)) where
  ok {whole n b b' bs P} h hr := by
    rcases Nat.eq_zero_or_pos n with rfl | hn
    · cases hr
      exact ⟨P, rfl, h⟩
    · cases read_outcome hr hn with
      | payload _ _ hmove _ => exact h.move hmove
      | ended he =>
        obtain ⟨rfl, h', _⟩ := h.ends he
        exact ⟨[], rfl, h'⟩
  finished {whole n b b' P} h hn hr := by
    cases read_outcome hr hn with
    | payload hne _ _ _ => exact absurd rfl hne
    | ended he => exact (h.ends he).1
  error {whole n b b' e P} h hr := by
    rcases Nat.eq_zero_or_pos n with rfl | hn
    · cases hr
    · cases read_outcome hr hn with
      | failed _ hf =>
        refine .inr ⟨hf.notInterrupted, ?_⟩
        cases hf with
        | fault hf => exact h.clock_eq ▸ hf.of_calm h.calm
        | quiet _ _ hcalm _ _ => exact absurd h.calm hcalm
        | refused _ hbad =>
          obtain ⟨raw, hb, hdue⟩ := h.due
          exact absurd h.length_le (hbad raw P after hdue hb)

/-- **A whole body.**  Read to its end, a well-formed body under the limit comes to its payload
    and leaves what follows it on the connection, unless the deadline runs out. -/
theorem drain_owes {clock : Nat → Nat} {after P : List UInt8} {b : BodyReader R}
    (h : Owes clock after b P) (whole : Bool) (room : Nat → ℕ+) :
    (∃ b', drain whole room 0 [] b = (.ok P, b') ∧ ByteStream.bytes b'.r = after) ∨
    ∃ b', drain whole room 0 [] b = (.error tooSlow, b') ∧ Slow clock := by
  rcases (steady clock after).drain whole room 0 [] h with ⟨b', hd, _⟩ | ⟨e, b', hd, rfl, hslow⟩
  · refine .inl ⟨b', hd, ?_⟩
    obtain ⟨got, b₁, hgot, hdel, n, hn, hend⟩ := drain_trace hd
    obtain ⟨P', _, h'⟩ := (steady clock after).delivers h hdel
    cases read_outcome hend hn with
    | payload hne _ _ _ => exact absurd rfl hne
    | ended he => exact (h'.ends he).2.2
  · exact .inr ⟨b', hd, hslow⟩

end BodyReader

end Omdrop.Proto
