import Omdrop.Proto.Chunks

namespace Omdrop.Proto

open Omdrop.Stream Omdrop.Text

/-!
# The body reader

`BodyReader` streams one framed request body under a byte limit and a deadline.  A chunked body
is a state machine over `Chunk`; each of its steps takes one piece of the encoding off the
connection, and `BodyReader.read` makes the steps up to the next payload.

While it waits for a size line, and only there, a reader with `Patience` takes a quiet
connection for the end of the body, if its caller says that what has come is whole.  What the
caller says is the `Bool` that every call is made with.
-/

/-- A body must average at least this after the grace period. -/
def minReadBytesPerSecond : Nat := 64 * 1024

/-- Grace before the minimum read rate applies. -/
def initialReadSeconds : Nat := 60

/-! ### The deadline -/

/-- The budget of time of a body.  `clock i` is the time since the start, in nanoseconds, that
    the `i`-th look at the clock will show. -/
structure ReadDeadline where
  clock : Nat → Nat
  looks : Nat
  transferred : Nat

/-- Is a body of which `transferred` bytes have come behind the minimum rate after `elapsed`
    nanoseconds? -/
def late (elapsed transferred : Nat) : Prop :=
  1000000000 * (initialReadSeconds * minReadBytesPerSecond + transferred) <
    minReadBytesPerSecond * elapsed

instance (elapsed transferred : Nat) : Decidable (late elapsed transferred) :=
  inferInstanceAs (Decidable (_ < _))

/-- The clock shows, at some look, more time than the grace period. -/
def Slow (clock : Nat → Nat) : Prop := ∃ i, 1000000000 * initialReadSeconds < clock i

namespace ReadDeadline

/-- A deadline that starts now. -/
def new (clock : Nat → Nat) : ReadDeadline := ⟨clock, 0, 0⟩

/-- Count `size` received bytes; a timeout when the body is behind the minimum rate. -/
def note (size : Nat) (d : ReadDeadline) : Except BodyError Unit × ReadDeadline :=
  let d' := { d with looks := d.looks + 1, transferred := d.transferred + size }
  if late (d.clock d.looks) d'.transferred then (.error (.timeout .rate), d') else (.ok (), d')

/-- **What `note` can do.**  Count, or find the body late. -/
theorem note_cases {size : Nat} {d d' : ReadDeadline} {res : Except BodyError Unit}
    (h : d.note size = (res, d')) :
    d'.clock = d.clock ∧ (res = .ok () ∨ res = .error (.timeout .rate) ∧ Slow d.clock) := by
  by_cases hl : late (d.clock d.looks) (d.transferred + size)
  · simp only [note, if_pos hl] at h
    cases h
    refine ⟨rfl, .inr ⟨rfl, d.looks, ?_⟩⟩
    have hlate : 1000000000 * (3932160 + (d.transferred + size)) < 65536 * d.clock d.looks := hl
    change 60000000000 < d.clock d.looks
    omega
  · simp only [note, if_neg hl] at h
    cases h
    exact ⟨rfl, .inl rfl⟩

end ReadDeadline

/-! ### Patience -/

/-- How a chunked upload waits at a chunk boundary: in steps of `step`, up to `limit` of
    silence. -/
structure Patience where
  step : ℕ+
  limit : Nat

variable {R : Type} [BufRead Payload R]

/-- Wait for the next size line without taking anything, asking after each quiet step whether
    what has come is whole. -/
def awaitBoundary (whole : Bool) (p : Patience) (idle : Nat) (r : R) : Except IoErr Unit × R :=
  match _h : BufRead.fillBuf r with
  | (.ok _, r')    => (.ok (), r')
  | (.error e, r') =>
    if e.isInterrupted then awaitBoundary whole p idle r'
    else if e.isTimeout then
      if whole then (.error BodyError.complete.intoIo, r')
      else if p.limit ≤ idle + p.step then (.error e, r')
      else awaitBoundary whole p (idle + p.step) r'
    else (.error e, r')
termination_by (p.limit - idle) + Read.patience r
decreasing_by
  · have := BufRead.patience_fillBuf_interrupted _h ‹_›
    omega
  · have h1 := BufRead.patience_fillBuf _h
    have h2 := p.step.pos
    omega

/-- **What `awaitBoundary` can do.**  See bytes or the end, fail, or, when what has come is whole,
    give up waiting; it takes no byte. -/
theorem awaitBoundary_cases {whole : Bool} {p : Patience} {idle : Nat} {r r' : R}
    {res : Except IoErr Unit} (h : awaitBoundary whole p idle r = (res, r')) :
    ByteStream.bytes r' = ByteStream.bytes r ∧ FiniteRead.size r' ≤ FiniteRead.size r ∧
      Read.patience r' ≤ Read.patience r ∧ (ByteStream.calm r → ByteStream.calm r') ∧
      (res = .ok () ∨
        (∃ e, res = .error e ∧ e.isOs = true ∧ e.isInterrupted = false ∧ ¬ ByteStream.calm r) ∨
        res = .error BodyError.complete.intoIo ∧ whole = true ∧ ¬ ByteStream.calm r) := by
  fun_induction awaitBoundary whole p idle r with
  | case1 idle r _ r₁ hf =>
    -- bytes are there, or the end
    cases h
    exact ⟨(BufRead.fillBuf_ok hf).1, BufRead.size_fillBuf hf, BufRead.patience_fillBuf hf,
      fun hc => BufRead.calm_fillBuf hc hf, .inl rfl⟩
  | case2 idle r e r₁ hf hi ih =>
    -- an interrupted wait goes on
    obtain ⟨hb, hs, hp, hc, hres⟩ := ih h
    refine ⟨hb.trans (BufRead.fillBuf_error hf), hs.trans (BufRead.size_fillBuf hf),
      hp.trans (BufRead.patience_fillBuf hf), fun h => hc (BufRead.calm_fillBuf h hf), ?_⟩
    have hcalm : ¬ ByteStream.calm r₁ → ¬ ByteStream.calm r :=
      fun hn h => hn (BufRead.calm_fillBuf h hf)
    rcases hres with h | ⟨e', he, hos, hi', hn⟩ | ⟨he, hw, hn⟩
    · exact .inl h
    · exact .inr (.inl ⟨e', he, hos, hi', hcalm hn⟩)
    · exact .inr (.inr ⟨he, hw, hcalm hn⟩)
  | case3 idle r e r₁ hf hi ht hw =>
    -- when the client has sent all it has to, no more is waited for
    cases h
    have hn : ¬ ByteStream.calm r := fun hc => hi (BufRead.calm_fillBuf_error hc hf)
    exact ⟨BufRead.fillBuf_error hf, BufRead.size_fillBuf hf, BufRead.patience_fillBuf hf,
      fun hc => absurd hc hn, .inr (.inr ⟨rfl, hw, hn⟩)⟩
  | case4 idle r e r₁ hf hi ht hw hl =>
    -- the patience is used up
    cases h
    have hn : ¬ ByteStream.calm r := fun hc => hi (BufRead.calm_fillBuf_error hc hf)
    exact ⟨BufRead.fillBuf_error hf, BufRead.size_fillBuf hf, BufRead.patience_fillBuf hf,
      fun hc => absurd hc hn,
      .inr (.inl ⟨e, rfl, BufRead.os_fillBuf hf, by simpa using hi, hn⟩)⟩
  | case5 idle r e r₁ hf hi ht hw hl ih =>
    -- there is some patience left
    obtain ⟨hb, hs, hp, hc, hres⟩ := ih h
    have hn : ¬ ByteStream.calm r := fun hc => hi (BufRead.calm_fillBuf_error hc hf)
    refine ⟨hb.trans (BufRead.fillBuf_error hf), hs.trans (BufRead.size_fillBuf hf),
      hp.trans (BufRead.patience_fillBuf hf), fun h => absurd h hn, ?_⟩
    rcases hres with h | ⟨e', he, hos, hi', _⟩ | ⟨he, hw, _⟩
    · exact .inl h
    · exact .inr (.inl ⟨e', he, hos, hi', hn⟩)
    · exact .inr (.inr ⟨he, hw, hn⟩)
  | case6 idle r e r₁ hf hi ht =>
    -- the connection failed
    cases h
    have hn : ¬ ByteStream.calm r := fun hc => hi (BufRead.calm_fillBuf_error hc hf)
    exact ⟨BufRead.fillBuf_error hf, BufRead.size_fillBuf hf, BufRead.patience_fillBuf hf,
      fun hc => absurd hc hn,
      .inr (.inl ⟨e, rfl, BufRead.os_fillBuf hf, by simpa using hi, hn⟩)⟩

/-! ### The reader -/

/-- How a request body is framed. -/
inductive BodyPlan
  | chunked
  | length (n : Nat)
  deriving DecidableEq, Repr

/-- One framed body on a connection. -/
structure BodyReader (R : Type) where
  r : R
  limit : Nat
  total : Nat
  deadline : ReadDeadline
  lengthLeft : Nat
  chunk : Option Chunk
  patience : Option Patience

namespace BodyReader

/-- The body framed by `plan`. -/
def new (r : R) (plan : BodyPlan) (limit : Nat) (deadline : ReadDeadline) : BodyReader R :=
  match plan with
  | .length n => ⟨r, limit, 0, deadline, n, none, none⟩
  | .chunked  => ⟨r, limit, 0, deadline, 0, some .size, none⟩

/-- Wait at chunk boundaries. -/
def withPatience (p : Patience) (b : BodyReader R) : BodyReader R := { b with patience := some p }

/-- Count `size` bytes against the deadline. -/
def note (size : Nat) (b : BodyReader R) : Except IoErr Unit × BodyReader R :=
  match b.deadline.note size with
  | (.ok (), d)   => (.ok (), { b with deadline := d })
  | (.error e, d) => (.error e.intoIo, { b with deadline := d })

/-- One line of the encoding. -/
def line (b : BodyReader R) : Except IoErr (List UInt8) × BodyReader R :=
  match readLine (maxChunkLineBytes + 1) [] b.r with
  | (.error e, r) => (.error e, { b with r })
  | (.ok line, r) =>
    match { b with r }.note line.length with
    | (.ok (), b')   => (.ok line, b')
    | (.error e, b') => (.error e, b')

/-- Payload, at most `n` bytes of the `left` that are due. -/
def data (n left : Nat) (truncated : Text) (b : BodyReader R) :
    Except IoErr (List UInt8) × BodyReader R :=
  match retry () (min (min n ioChunkBytes) left) b.r with
  | (.error e, r) => (.error e, { b with r })
  | (.ok [], r)   => (.error (BodyError.invalid truncated).intoIo, { b with r })
  | (.ok bs, r)   =>
    match { b with r }.note bs.length with
    | (.ok (), b')   => (.ok bs, { b' with total := b'.total + bs.length })
    | (.error e, b') => (.error e, b')

/-- The trailer lines, after `seen` bytes of them. -/
def trailers (seen : Nat) (b : BodyReader R) : Except IoErr Unit × BodyReader R :=
  match b.line with
  | (.error e, b') => (.error e, b')
  | (.ok line, b') =>
    if line = [] ∨ maxChunkLineBytes < line.length ∨ maxTrailerBytes < seen + line.length then
      (.error (BodyError.invalid "invalid or overlong chunk trailers").intoIo, b')
    else if line = crlf ∨ line = [newline] then (.ok (), b')
    else trailers (seen + line.length) b'
termination_by maxTrailerBytes - seen
decreasing_by
  rename_i h _
  rw [not_or, not_or] at h
  have := List.length_pos_iff.mpr h.1
  omega

/-- Wait for the next size line, if the reader is to be patient. -/
def boundary (whole : Bool) (b : BodyReader R) : Except IoErr Unit × BodyReader R :=
  match b.patience with
  | none   => (.ok (), b)
  | some p =>
    match awaitBoundary whole p 0 b.r with
    | (res, r) => (res, { b with r })

/-- The step from a size line: to the chunk it announces, or past the trailers. -/
def sizeStep (whole : Bool) (b : BodyReader R) : Except IoErr (Option Nat) × BodyReader R :=
  match b.boundary whole with
  | (.error e, b') => (.error e, { b' with chunk := some .size })
  | (.ok (), b')   =>
    match { b' with chunk := none }.line with
    | (.error e, b') => (.error e, b')
    | (.ok line, b') =>
      if line = [] ∨ maxChunkLineBytes < line.length ∨ line.getLast? ≠ some newline then
        (.error (BodyError.invalid "invalid or overlong chunk-size line").intoIo, b')
      else match chunkSize b'.limit line with
        | .error e => (.error e.intoIo, b')
        | .ok size =>
          if size = 0 then
            match trailers 0 b' with
            | (.error e, b₂) => (.error e, b₂)
            | (.ok (), b₂)   => (.ok none, { b₂ with chunk := some .done })
          else if b'.limit - b'.total < size then (.error (tooLarge b'.limit).intoIo, b')
          else (.ok (some size), { b' with chunk := some (.data size) })

/-- The step through a chunk's payload. -/
def dataStep (n left : Nat) (b : BodyReader R) : Except IoErr (List UInt8) × BodyReader R :=
  match { b with chunk := none }.data n left "truncated chunk data" with
  | (.error e, b') => (.error e, b')
  | (.ok bs, b')   =>
    let left := left - bs.length
    (.ok bs, { b' with chunk := some (if left = 0 then .ending else .data left) })

/-- The step over the CRLF that ends a chunk. -/
def endingStep (b : BodyReader R) : Except IoErr Unit × BodyReader R :=
  match readFull () 2 [] b.r with
  | (.error e, r)    => (.error e, { b with r, chunk := none })
  | (.ok ending, r)  =>
    match { b with r, chunk := none }.note ending.length with
    | (.error e, b') => (.error e, b')
    | (.ok (), b')   =>
      if ending ≠ crlf then (.error (BodyError.invalid "chunk data missing CRLF").intoIo, b')
      else (.ok (), { b' with chunk := some .size })

/-- From a size line to the payload after it. -/
def nextChunk (whole : Bool) (n : Nat) (b : BodyReader R) :
    Except IoErr (List UInt8) × BodyReader R :=
  match b.sizeStep whole with
  | (.error e, b')         => (.error e, b')
  | (.ok none, b')         => (.ok [], b')
  | (.ok (some left), b')  => b'.dataStep n left

/-- The steps of a chunked body, up to the next payload or its end. -/
def chunked (whole : Bool) (n : Nat) (b : BodyReader R) :
    Except IoErr (List UInt8) × BodyReader R :=
  match b.chunk with
  | none | some .done => (.ok [], { b with chunk := some .done })
  | some .size        => b.nextChunk whole n
  | some (.data left) => b.dataStep n left
  | some .ending      =>
    match b.endingStep with
    | (.error e, b') => (.error e, b')
    | (.ok (), b')   => b'.nextChunk whole n

/-- One call. -/
def read (whole : Bool) (n : Nat) (b : BodyReader R) :
    Except IoErr (List UInt8) × BodyReader R :=
  if n = 0 then (.ok [], b)
  else if b.chunk.isSome then b.chunked whole n
  else if b.lengthLeft = 0 then (.ok [], b)
  else
    match b.data n b.lengthLeft "truncated request body" with
    | (.error e, b') => (.error e, b')
    | (.ok bs, b')   => (.ok bs, { b' with lengthLeft := b'.lengthLeft - bs.length })

/-! ### What every step keeps -/

/-- `b'` is `b` further along: less of the connection is left, and the rest is as it was. -/
structure Onward (b b' : BodyReader R) : Prop where
  size_le : FiniteRead.size b'.r ≤ FiniteRead.size b.r
  patience_le : Read.patience b'.r ≤ Read.patience b.r
  limit_eq : b'.limit = b.limit
  clock_eq : b'.deadline.clock = b.deadline.clock
  patient_eq : b'.patience = b.patience
  calm : ByteStream.calm b.r → ByteStream.calm b'.r

theorem Onward.refl (b : BodyReader R) : Onward b b := ⟨le_rfl, le_rfl, rfl, rfl, rfl, id⟩

theorem Onward.trans {b₁ b₂ b₃ : BodyReader R} (h : Onward b₁ b₂) (h' : Onward b₂ b₃) :
    Onward b₁ b₃ where
  size_le := h'.size_le.trans h.size_le
  patience_le := h'.patience_le.trans h.patience_le
  limit_eq := h'.limit_eq.trans h.limit_eq
  clock_eq := h'.clock_eq.trans h.clock_eq
  patient_eq := h'.patient_eq.trans h.patient_eq
  calm hc := h'.calm (h.calm hc)

/-- The failure of a body that is behind the minimum rate. -/
def tooSlow : IoErr := (BodyError.timeout .rate).intoIo

/-- A failure that no byte of the body is to blame for: the connection's, or the deadline's. -/
structure Fault (b : BodyReader R) (e : IoErr) : Prop where
  notInterrupted : e.isInterrupted = false
  notComplete : isComplete e = false
  of_calm : ByteStream.calm b.r → e = tooSlow ∧ Slow b.deadline.clock

theorem Fault.of_onward {b b' : BodyReader R} {e : IoErr} (h : Fault b' e) (ho : Onward b b') :
    Fault b e :=
  ⟨h.notInterrupted, h.notComplete, fun hc => ho.clock_eq ▸ h.of_calm (ho.calm hc)⟩

/-- A failure of the connection. -/
theorem Fault.of_os {b : BodyReader R} {e : IoErr} (hos : e.isOs = true)
    (hi : e.isInterrupted = false) (hc : ¬ ByteStream.calm b.r) : Fault b e := by
  refine ⟨hi, ?_, fun h => absurd h hc⟩
  cases e with
  | os k t => rfl
  | custom p => simp at hos

/-- A refusal of the body's bytes. -/
structure Refusal (e : IoErr) : Prop where
  notInterrupted : e.isInterrupted = false
  notComplete : isComplete e = false

theorem Refusal.invalid (m : Text) : Refusal (BodyError.invalid m).intoIo := ⟨rfl, rfl⟩

theorem Refusal.tooLarge (limit : Nat) : Refusal (tooLarge limit).intoIo := ⟨rfl, rfl⟩

/-- A size that is refused is refused as a matter of the body. -/
private theorem refusal_of_chunkSize {limit : Nat} {line : List UInt8} {e : BodyError}
    (h : chunkSize limit line = .error e) : Refusal e.intoIo := by
  simp only [chunkSize] at h
  split at h
  · cases h
    exact .invalid _
  · split at h
    · simp at h
    · cases h
      exact .tooLarge _

/-! ### What each step can do -/

omit [BufRead Payload R] in
theorem note_cases {size : Nat} {b b' : BodyReader R} {res : Except IoErr Unit}
    (h : b.note size = (res, b')) :
    ∃ d, b' = { b with deadline := d } ∧ d.clock = b.deadline.clock ∧
      (res = .ok () ∨ res = .error tooSlow ∧ Slow b.deadline.clock) := by
  unfold note at h
  split at h
  · rename_i d hd
    cases h
    exact ⟨d, rfl, (ReadDeadline.note_cases hd).1, .inl rfl⟩
  · rename_i e d hd
    cases h
    obtain ⟨hclock, hres | ⟨hres, hslow⟩⟩ := ReadDeadline.note_cases hd
    · simp at hres
    · cases hres
      exact ⟨d, rfl, hclock, .inr ⟨rfl, hslow⟩⟩

/-- **What `line` can do.**  Take the first line, or fail. -/
theorem line_cases {b b' : BodyReader R} {res : Except IoErr (List UInt8)}
    (h : b.line = (res, b')) :
    Onward b b' ∧ b'.chunk = b.chunk ∧ b'.total = b.total ∧
      ((∃ l, res = .ok l ∧ l = firstLine (maxChunkLineBytes + 1) (ByteStream.bytes b.r) ∧
          ByteStream.bytes b.r = l ++ ByteStream.bytes b'.r) ∨
        ∃ e, res = .error e ∧ Fault b e) := by
  have hsize := size_readLine (maxChunkLineBytes + 1) [] b.r
  have hpat := patience_readLine (maxChunkLineBytes + 1) [] b.r
  unfold line at h
  split at h
  · rename_i e r hl
    cases h
    rw [hl] at hsize hpat
    obtain ⟨hos, hi, hc⟩ := readLine_error hl
    exact ⟨⟨hsize, hpat, rfl, rfl, rfl, fun h => absurd h hc⟩, rfl, rfl,
      .inr ⟨e, rfl, .of_os hos hi hc⟩⟩
  · rename_i l r hl
    rw [hl] at hsize hpat
    obtain ⟨hline, hbytes⟩ := readLine_ok hl
    have hcalm : ByteStream.calm b.r → ByteStream.calm r := by
      intro hc
      obtain ⟨out, r₁, hout, hc₁⟩ := readLine_calm (maxChunkLineBytes + 1) [] hc
      rw [hl] at hout
      cases hout
      exact hc₁
    rw [List.nil_append, List.length_nil, Nat.sub_zero] at hline
    rw [List.length_nil, Nat.sub_zero, ← hline] at hbytes
    split at h
    · rename_i b₁ hn
      cases h
      obtain ⟨d, rfl, hclock, _⟩ := note_cases hn
      exact ⟨⟨hsize, hpat, rfl, hclock, rfl, hcalm⟩, rfl, rfl, .inl ⟨l, rfl, hline, hbytes⟩⟩
    · rename_i e b₁ hn
      cases h
      obtain ⟨d, rfl, hclock, hres | ⟨hres, hslow⟩⟩ := note_cases hn
      · simp at hres
      · cases hres
        exact ⟨⟨hsize, hpat, rfl, hclock, rfl, hcalm⟩, rfl, rfl,
          .inr ⟨_, rfl, rfl, rfl, fun _ => ⟨rfl, hslow⟩⟩⟩

/-- **What `data` can do.**  Take some of the bytes that are due, find the connection at its end
    before them, or fail. -/
theorem data_cases {n left : Nat} {m : Text} {b b' : BodyReader R}
    {res : Except IoErr (List UInt8)} (h : b.data n left m = (res, b')) (hn : 0 < n) :
    Onward b b' ∧ b'.chunk = b.chunk ∧ b'.lengthLeft = b.lengthLeft ∧
      ((∃ bs, res = .ok bs ∧ bs ≠ [] ∧ bs.length ≤ n ∧ bs.length ≤ left ∧
          ByteStream.bytes b.r = bs ++ ByteStream.bytes b'.r ∧
          b'.total = b.total + bs.length ∧ FiniteRead.size b'.r < FiniteRead.size b.r) ∨
        (∃ e, res = .error e ∧ Fault b e) ∨
        ∃ e, res = .error e ∧ Refusal e ∧ (0 < left → ByteStream.bytes b.r = [])) := by
  unfold data at h
  split at h
  · -- the read fails, which a calm connection does not
    rename_i e r hr
    cases h
    obtain ⟨r₁, hd, hread, hni⟩ := retry_trace hr
    obtain ⟨hos, hi, hc⟩ := ByteStream.of_failed ⟨_, hread, hni e rfl⟩
    have hc' : ¬ ByteStream.calm b.r := fun h => hc (ByteStream.calm_delivers hd h)
    exact ⟨⟨(FiniteRead.size_read hread).trans hd.size_le,
      (Read.patience_read hread).trans hd.patience_le, rfl, rfl, rfl, fun h => absurd h hc'⟩,
      rfl, rfl, .inr (.inl ⟨e, rfl, .of_os hos hi hc'⟩)⟩
  · -- the client has gone before the data came
    rename_i r hr
    cases h
    obtain ⟨r₁, hd, hread, _⟩ := retry_trace hr
    have hbytes : 0 < left → ByteStream.bytes b.r = [] := by
      intro hleft
      have hwant : 0 < min (min n ioChunkBytes) left := by simp [ioChunkBytes]; omega
      rw [ByteStream.bytes_delivers hd, ByteStream.bytes_finished hwant hread]
      rfl
    exact ⟨⟨(FiniteRead.size_read hread).trans hd.size_le,
      (Read.patience_read hread).trans hd.patience_le, rfl, rfl, rfl,
      fun h => ByteStream.calm_read (ByteStream.calm_delivers hd h) hread⟩, rfl, rfl,
      .inr (.inr ⟨_, rfl, .invalid m, hbytes⟩)⟩
  · -- some bytes come, and the pace of them is looked at
    rename_i bs r hnil hr
    obtain ⟨r₁, hd, hread, _⟩ := retry_trace hr
    have hlen := Read.length_read hread
    have hbytes := ByteStream.bytes_delivers hd
    rw [List.nil_append, ByteStream.bytes_ok hread] at hbytes
    have hsize : FiniteRead.size r < FiniteRead.size b.r := by
      obtain ⟨x, xs, rfl⟩ := List.exists_cons_of_ne_nil hnil
      exact (FiniteRead.size_read_lt hread).trans_le hd.size_le
    have hpat := (Read.patience_read hread).trans hd.patience_le
    have hcalm := fun h => ByteStream.calm_read (ByteStream.calm_delivers hd h) hread
    split at h
    · rename_i b₁ hnote
      cases h
      obtain ⟨d, rfl, hclock, _⟩ := note_cases hnote
      exact ⟨⟨hsize.le, hpat, rfl, hclock, rfl, hcalm⟩, rfl, rfl,
        .inl ⟨bs, rfl, hnil, by omega, by omega, hbytes, rfl, hsize⟩⟩
    · rename_i e b₁ hnote
      cases h
      obtain ⟨d, rfl, hclock, hres | ⟨hres, hslow⟩⟩ := note_cases hnote
      · simp at hres
      · cases hres
        exact ⟨⟨hsize.le, hpat, rfl, hclock, rfl, hcalm⟩, rfl, rfl,
          .inr (.inl ⟨_, rfl, rfl, rfl, fun _ => ⟨rfl, hslow⟩⟩)⟩

/-- A line that a reader got, against a line that its bytes begin with. -/
theorem eq_of_firstLine {l line rest bytes : List UInt8} (hline : IsLine line)
    (hlen : line.length ≤ maxChunkLineBytes)
    (hl : l = firstLine (maxChunkLineBytes + 1) bytes) (hb : bytes = line ++ rest) : l = line := by
  rw [hl, hb]
  exact hline.firstLine_append (hlen.trans (Nat.le_succ _)) rest

/-- **What `trailers` can do.**  Take trailer lines up to the last, fail, or find that the bytes
    are no trailers. -/
theorem trailers_cases {seen : Nat} {b b' : BodyReader R} {res : Except IoErr Unit}
    (h : b.trailers seen = (res, b')) :
    Onward b b' ∧ b'.chunk = b.chunk ∧ b'.total = b.total ∧
      ((res = .ok () ∧ ∃ raw, Trailers seen raw ∧
          ByteStream.bytes b.r = raw ++ ByteStream.bytes b'.r) ∨
        (∃ e, res = .error e ∧ Fault b e) ∨
        ∃ e, res = .error e ∧ Refusal e ∧
          ∀ raw rest, Trailers seen raw → ByteStream.bytes b.r ≠ raw ++ rest) := by
  fun_induction trailers seen b with
  -- no line comes
  | case1 seen b e b₁ hl =>
    cases h
    obtain ⟨ho, hc, ht, ⟨l, hres, _⟩ | ⟨e', hres, hf⟩⟩ := line_cases hl
    · simp at hres
    · cases hres
      exact ⟨ho, hc, ht, .inr (.inl ⟨e, rfl, hf⟩)⟩
  -- the line is none, or the trailers are too long with it
  | case2 seen b l b₁ hl hbad =>
    cases h
    obtain ⟨ho, hc, ht, ⟨l', hres, hfirst, hb⟩ | ⟨e', hres, hf⟩⟩ := line_cases hl
    · cases hres
      refine ⟨ho, hc, ht, .inr (.inr ⟨_, rfl, .invalid _, fun raw rest htr heq => ?_⟩)⟩
      obtain ⟨line, more, rfl, hline, hlen, hseen, _⟩ := htr.uncons
      rw [List.append_assoc] at heq
      obtain rfl := eq_of_firstLine hline hlen hfirst heq
      rcases hbad with h0 | h0 | h0
      · exact hline.ne_nil h0
      · omega
      · omega
    · simp at hres
  -- a blank line ends the trailers
  | case3 seen b l b₁ hl hok hlast =>
    cases h
    obtain ⟨ho, hc, ht, ⟨l', hres, _, hb⟩ | ⟨e', hres, hf⟩⟩ := line_cases hl
    · cases hres
      exact ⟨ho, hc, ht, .inl ⟨rfl, l, .last hlast (by omega), hb⟩⟩
    · simp at hres
  -- the line is one of a trailer, and the others follow
  | case4 seen b l b₁ hl hok hmore ih =>
    obtain ⟨ho, hc, ht, ⟨l', hres, hfirst, hb⟩ | ⟨e', hres, hf⟩⟩ := line_cases hl
    · cases hres
      rw [not_or] at hmore
      rw [not_or, not_or] at hok
      obtain ⟨ho', hc', ht', hcase⟩ := ih h
      refine ⟨ho.trans ho', hc'.trans hc, ht'.trans ht, ?_⟩
      rcases hcase with ⟨rfl, raw, htr, hb'⟩ | ⟨e, rfl, hf⟩ | ⟨e, rfl, hr, hno⟩
      · -- the trailers go on, so this line ended with a newline
        obtain ⟨line, more, rfl, hline, -, -, -⟩ := htr.uncons
        have hlast : l.getLast? = some newline := by
          by_contra hne
          have hlt : (firstLine (maxChunkLineBytes + 1) (ByteStream.bytes b.r)).length <
              maxChunkLineBytes + 1 := by
            rw [← hfirst]
            omega
          have hall := firstLine_eq_self hlt (by rwa [← hfirst])
          rw [← hfirst, hb] at hall
          have hnil : ByteStream.bytes b₁.r = [] := by simpa using hall.symm
          rw [hnil, List.append_assoc] at hb'
          exact hline.ne_nil (List.append_eq_nil_iff.mp hb'.symm).1
        refine .inl ⟨rfl, l ++ (line ++ more), .more ?_ (by omega) (by omega) hmore.1 hmore.2 htr, ?_⟩
        · rw [hfirst] at hlast ⊢
          exact isLine_firstLine hlast
        · rw [hb, hb', List.append_assoc l]
      · exact .inr (.inl ⟨e, rfl, hf.of_onward ho⟩)
      · refine .inr (.inr ⟨e, rfl, hr, fun raw rest htr heq => ?_⟩)
        obtain ⟨line, more, rfl, hline, hlen, _, hrest⟩ := htr.uncons
        rw [List.append_assoc] at heq
        obtain rfl := eq_of_firstLine hline hlen hfirst heq
        rw [hb, List.append_cancel_left_eq] at heq
        exact hno more rest (hrest hmore.1 hmore.2) heq
    · simp at hres

/-- **What `boundary` can do.**  Wait for bytes, fail, or take the quiet for the end when what has
    come is whole; it takes no byte. -/
theorem boundary_cases {whole : Bool} {b b' : BodyReader R} {res : Except IoErr Unit}
    (h : b.boundary whole = (res, b')) :
    Onward b b' ∧ b'.chunk = b.chunk ∧ b'.total = b.total ∧
      ByteStream.bytes b'.r = ByteStream.bytes b.r ∧
      (res = .ok () ∨ (∃ e, res = .error e ∧ Fault b e) ∨
        res = .error BodyError.complete.intoIo ∧ whole = true ∧ ¬ ByteStream.calm b.r) := by
  unfold boundary at h
  split at h
  · cases h
    exact ⟨.refl b, rfl, rfl, rfl, .inl rfl⟩
  · rename_i p hp
    split at h
    rename_i res' r ha
    cases h
    obtain ⟨hb, hs, hpat, hcalm, hres⟩ := awaitBoundary_cases ha
    refine ⟨⟨hs, hpat, rfl, rfl, rfl, hcalm⟩, rfl, rfl, hb, ?_⟩
    rcases hres with rfl | ⟨e, rfl, hos, hi, hc⟩ | hres
    · exact .inl rfl
    · exact .inr (.inl ⟨e, rfl, .of_os hos hi hc⟩)
    · exact .inr (.inr hres)

/-- Which first line announces a chunk: one that passes the reader's checks. -/
theorem isSizeLine_iff {l bytes : List UInt8} {limit size : Nat}
    (hfirst : l = firstLine (maxChunkLineBytes + 1) bytes) :
    IsSizeLine l size ↔ ¬ (l = [] ∨ maxChunkLineBytes < l.length ∨ l.getLast? ≠ some newline) ∧
      chunkSize limit l = .ok size := by
  rw [chunkSize_eq_ok, not_or, not_or, not_not, not_lt]
  constructor
  · intro h
    obtain ⟨body, rfl, -⟩ := h.isLine
    exact ⟨⟨by simp, h.length_le, by simp⟩, h.size_eq, h.size_lt⟩
  · rintro ⟨⟨-, hlen, hlast⟩, hsize, hlt⟩
    rw [hfirst] at hlast
    exact ⟨hfirst ▸ isLine_firstLine hlast, hlen, hsize, hlt⟩

/-- The bytes announce one chunk at most, and behind its line come the others. -/
theorem sizeLine_unique {l line bytes tail rest : List UInt8} {size size' : Nat}
    (h : IsSizeLine l size) (hfirst : l = firstLine (maxChunkLineBytes + 1) bytes)
    (hbytes : bytes = l ++ tail) (h' : IsSizeLine line size') (heq : bytes = line ++ rest) :
    size' = size ∧ rest = tail := by
  obtain rfl := eq_of_firstLine h'.isLine h'.length_le hfirst heq
  rw [hbytes, List.append_cancel_left_eq] at heq
  exact ⟨Option.some.inj (h'.size_eq.symm.trans h.size_eq), heq.symm⟩

/-- Behind the line of the last chunk come the trailers: the body ends with them, or they fail. -/
theorem closing_cases {b₂ b₃ : BodyReader R} {l bytes : List UInt8} {res : Except IoErr Unit}
    (hline : IsSizeLine l 0) (hfirst : l = firstLine (maxChunkLineBytes + 1) bytes)
    (hbytes : bytes = l ++ ByteStream.bytes b₂.r) (h : b₂.trailers 0 = (res, b₃)) :
    Onward b₂ b₃ ∧ b₃.total = b₂.total ∧
      ((res = .ok () ∧ ∃ raw, Closing raw ∧ bytes = raw ++ ByteStream.bytes b₃.r) ∨
        (∃ e, res = .error e ∧ Fault b₂ e) ∨
        ∃ e, res = .error e ∧ Refusal e ∧ ∀ line size rest, IsSizeLine line size →
          bytes = line ++ rest → size = 0 ∧ ∀ raw more, Trailers 0 raw → rest ≠ raw ++ more) := by
  obtain ⟨ho, -, ht, ⟨hres, raw, htrail, hb₃⟩ | ⟨e, hres, hf⟩ | ⟨e, hres, hr, hno⟩⟩ :=
    trailers_cases h
  · refine ⟨ho, ht, .inl ⟨hres, l ++ raw, ⟨l, raw, rfl, hline, htrail⟩, ?_⟩⟩
    rw [hbytes, hb₃, List.append_assoc]
  · exact ⟨ho, ht, .inr (.inl ⟨e, hres, hf⟩)⟩
  · refine ⟨ho, ht, .inr (.inr ⟨e, hres, hr, fun line size rest hline' heq => ?_⟩)⟩
    obtain ⟨rfl, rfl⟩ := sizeLine_unique hline hfirst hbytes hline' heq
    exact ⟨rfl, hno⟩

/-- **What `sizeStep` can do.**  Announce a chunk, pass the end of the body, fail, wait in vain
    for a body that is whole, or find that the bytes announce no chunk that may come. -/
theorem sizeStep_cases {whole : Bool} {b b' : BodyReader R} {res : Except IoErr (Option Nat)}
    (h : b.sizeStep whole = (res, b')) :
    Onward b b' ∧ b'.total = b.total ∧
      ((∃ size line, res = .ok (some size) ∧ b'.chunk = some (.data size) ∧
          IsSizeLine line size ∧ 0 < size ∧ size ≤ b.limit - b.total ∧
          ByteStream.bytes b.r = line ++ ByteStream.bytes b'.r) ∨
        (res = .ok none ∧ b'.chunk = some .done ∧
          ∃ raw, Closing raw ∧ ByteStream.bytes b.r = raw ++ ByteStream.bytes b'.r) ∨
        (∃ e, res = .error e ∧ Fault b e) ∨
        (res = .error BodyError.complete.intoIo ∧ whole = true ∧ b'.chunk = some .size ∧
          ByteStream.bytes b'.r = ByteStream.bytes b.r ∧ ¬ ByteStream.calm b.r) ∨
        ∃ e, res = .error e ∧ Refusal e ∧ ∀ line size rest, IsSizeLine line size →
          ByteStream.bytes b.r = line ++ rest → size ≤ b.limit - b.total →
            size = 0 ∧ ∀ raw more, Trailers 0 raw → rest ≠ raw ++ more) := by
  unfold sizeStep at h
  split at h
  · rename_i e b₁ hb₁
    cases h
    obtain ⟨ho, hc, ht, hbytes, hres | ⟨e', hres, hf⟩ | ⟨hres, hw, hcalm⟩⟩ := boundary_cases hb₁
    · simp at hres
    · cases hres
      exact ⟨⟨ho.1, ho.2, ho.3, ho.4, ho.5, ho.6⟩, ht, .inr (.inr (.inl ⟨e, rfl, hf⟩))⟩
    · cases hres
      exact ⟨⟨ho.1, ho.2, ho.3, ho.4, ho.5, ho.6⟩, ht,
        .inr (.inr (.inr (.inl ⟨rfl, hw, rfl, hbytes, hcalm⟩)))⟩
  · rename_i b₁ hb₁
    obtain ⟨ho, hc, ht, hbytes, -⟩ := boundary_cases hb₁
    have ho : Onward b { b₁ with chunk := none } := ⟨ho.1, ho.2, ho.3, ho.4, ho.5, ho.6⟩
    split at h
    · rename_i e b₂ hl
      cases h
      obtain ⟨ho₂, hc₂, ht₂, ⟨l, hres, _⟩ | ⟨e', hres, hf⟩⟩ := line_cases hl
      · simp at hres
      · cases hres
        exact ⟨ho.trans ho₂, ht₂.trans ht, .inr (.inr (.inl ⟨e, rfl, hf.of_onward ho⟩))⟩
    · rename_i l b₂ hl
      obtain ⟨ho₂, hc₂, ht₂, ⟨l', hres, hfirst, hb₂⟩ | ⟨e', hres, hf⟩⟩ := line_cases hl
      swap
      · simp at hres
      cases hres
      simp only [hbytes] at hfirst hb₂
      replace ho₂ := ho.trans ho₂
      replace ht₂ : b₂.total = b.total := ht₂.trans ht
      have hlim : b₂.limit - b₂.total = b.limit - b.total := by rw [ho₂.limit_eq, ht₂]
      -- a line that announces no chunk is refused
      have hrefused {e : IoErr} (hr : Refusal e) (hno : ∀ size, ¬ IsSizeLine l size) :
          ∃ e', (.error e : Except IoErr (Option Nat)) = .error e' ∧ Refusal e' ∧
            ∀ line size rest, IsSizeLine line size → ByteStream.bytes b.r = line ++ rest →
              size ≤ b.limit - b.total →
                size = 0 ∧ ∀ raw more, Trailers 0 raw → rest ≠ raw ++ more := by
        refine ⟨e, rfl, hr, fun line size rest hline heq _ => absurd hline ?_⟩
        exact eq_of_firstLine hline.isLine hline.length_le hfirst heq ▸ hno size
      by_cases hbad : l = [] ∨ maxChunkLineBytes < l.length ∨ l.getLast? ≠ some newline
      · rw [if_pos hbad] at h
        cases h
        exact ⟨ho₂, ht₂, .inr (.inr (.inr (.inr (hrefused (.invalid _) fun size hline =>
          ((@isSizeLine_iff _ _ 0 _ hfirst).mp hline).1 hbad))))⟩
      · rw [if_neg hbad] at h
        split at h
        · rename_i e hsize
          cases h
          refine ⟨ho₂, ht₂, .inr (.inr (.inr (.inr (hrefused (refusal_of_chunkSize hsize) ?_))))⟩
          intro size hline
          rw [((isSizeLine_iff hfirst).mp hline).2] at hsize
          simp at hsize
        · rename_i size hsize
          have hline : IsSizeLine l size := (isSizeLine_iff hfirst).mpr ⟨hbad, hsize⟩
          by_cases hzero : size = 0
          · subst hzero
            rw [if_pos rfl] at h
            split at h
            · rename_i e b₃ htr
              cases h
              obtain ⟨ho₃, ht₃, ⟨hres, _⟩ | ⟨e', hres, hf⟩ | ⟨e', hres, hr, hno⟩⟩ :=
                closing_cases hline hfirst hb₂ htr
              · simp at hres
              · cases hres
                exact ⟨ho₂.trans ho₃, ht₃.trans ht₂,
                  .inr (.inr (.inl ⟨e, rfl, hf.of_onward ho₂⟩))⟩
              · cases hres
                exact ⟨ho₂.trans ho₃, ht₃.trans ht₂, .inr (.inr (.inr (.inr ⟨e, rfl, hr,
                  fun line size rest hline' heq _ => hno line size rest hline' heq⟩)))⟩
            · rename_i b₃ htr
              cases h
              obtain ⟨ho₃, ht₃, ⟨_, raw, hclosing, hb₃⟩ | ⟨_, hres, _⟩ | ⟨_, hres, _⟩⟩ :=
                closing_cases hline hfirst hb₂ htr
              · have ho₃ := ho₂.trans ho₃
                exact ⟨⟨ho₃.1, ho₃.2, ho₃.3, ho₃.4, ho₃.5, ho₃.6⟩, ht₃.trans ht₂,
                  .inr (.inl ⟨rfl, rfl, raw, hclosing, hb₃⟩)⟩
              · simp at hres
              · simp at hres
          · rw [if_neg hzero] at h
            by_cases hover : b₂.limit - b₂.total < size
            · rw [if_pos hover] at h
              cases h
              refine ⟨ho₂, ht₂, .inr (.inr (.inr (.inr ⟨_, rfl, .tooLarge _, ?_⟩)))⟩
              intro line size' rest hline' heq hle
              obtain ⟨rfl, rfl⟩ := sizeLine_unique hline hfirst hb₂ hline' heq
              omega
            · rw [if_neg hover] at h
              cases h
              exact ⟨⟨ho₂.1, ho₂.2, ho₂.3, ho₂.4, ho₂.5, ho₂.6⟩, ht₂,
                .inl ⟨size, l, rfl, rfl, hline, Nat.pos_of_ne_zero hzero, by omega, hb₂⟩⟩

/-- **What `dataStep` can do.** -/
theorem dataStep_cases {n left : Nat} {b b' : BodyReader R} {res : Except IoErr (List UInt8)}
    (h : b.dataStep n left = (res, b')) (hn : 0 < n) :
    Onward b b' ∧
      ((∃ bs, res = .ok bs ∧ bs ≠ [] ∧ bs.length ≤ n ∧ bs.length ≤ left ∧
          ByteStream.bytes b.r = bs ++ ByteStream.bytes b'.r ∧
          b'.total = b.total + bs.length ∧ FiniteRead.size b'.r < FiniteRead.size b.r ∧
          b'.chunk = some (if left - bs.length = 0 then .ending else .data (left - bs.length))) ∨
        (∃ e, res = .error e ∧ Fault b e) ∨
        ∃ e, res = .error e ∧ Refusal e ∧ (0 < left → ByteStream.bytes b.r = [])) := by
  unfold dataStep at h
  split at h
  · rename_i e b₁ hd
    cases h
    obtain ⟨ho, _, _, ⟨_, hres, _⟩ | ⟨_, hres, hf⟩ | ⟨_, hres, hr, hnil⟩⟩ := data_cases hd hn
    · simp at hres
    · cases hres
      exact ⟨⟨ho.1, ho.2, ho.3, ho.4, ho.5, ho.6⟩, .inr (.inl ⟨e, rfl, ⟨hf.1, hf.2, hf.3⟩⟩)⟩
    · cases hres
      exact ⟨⟨ho.1, ho.2, ho.3, ho.4, ho.5, ho.6⟩, .inr (.inr ⟨e, rfl, hr, hnil⟩)⟩
  · rename_i bs b₁ hd
    cases h
    obtain ⟨ho, _, _, ⟨_, hres, hne, hln, hll, hb, ht, hs⟩ | ⟨_, hres, _⟩ | ⟨_, hres, _⟩⟩ :=
      data_cases hd hn
    · cases hres
      exact ⟨⟨ho.1, ho.2, ho.3, ho.4, ho.5, ho.6⟩, .inl ⟨bs, rfl, hne, hln, hll, hb, ht, hs, rfl⟩⟩
    · simp at hres
    · simp at hres

/-- **What `endingStep` can do.** -/
theorem endingStep_cases {b b' : BodyReader R} {res : Except IoErr Unit}
    (h : b.endingStep = (res, b')) :
    Onward b b' ∧ b'.total = b.total ∧
      ((res = .ok () ∧ b'.chunk = some .size ∧
          ByteStream.bytes b.r = crlf ++ ByteStream.bytes b'.r) ∨
        (∃ e, res = .error e ∧ Fault b e) ∨
        ∃ e, res = .error e ∧ Refusal e ∧ ∀ rest, ByteStream.bytes b.r ≠ crlf ++ rest) := by
  unfold endingStep at h
  split at h
  · rename_i e r hr
    cases h
    obtain ⟨got, r₁, hd, hf⟩ := readFull_failed hr
    obtain ⟨hos, hi, hc⟩ := ByteStream.of_failed hf
    obtain ⟨_, hread, _⟩ := hf
    have hc' : ¬ ByteStream.calm b.r := fun h => hc (ByteStream.calm_delivers hd h)
    exact ⟨⟨(FiniteRead.size_read hread).trans hd.size_le,
      (Read.patience_read hread).trans hd.patience_le, rfl, rfl, rfl, fun h => absurd h hc'⟩,
      rfl, .inr (.inl ⟨e, rfl, .of_os hos hi hc'⟩)⟩
  · rename_i ending r hr
    obtain ⟨hbytes, hshort, hsize, hpat, hcalm⟩ := ByteStream.readFull_ok hr
    have hrefuse : ending ≠ crlf → ∀ rest, ByteStream.bytes b.r ≠ crlf ++ rest := by
      intro hne rest heq
      rw [hbytes] at heq
      rcases hshort with hlen | ⟨hlen, hnil⟩
      · exact hne (List.append_inj_left heq hlen)
      · rw [hnil, List.append_nil] at heq
        rw [heq, List.length_append] at hlen
        simp only [crlf, List.length_cons, List.length_nil] at hlen
        omega
    split at h
    · rename_i e b₁ hnote
      cases h
      obtain ⟨d, rfl, hclock, hres | ⟨hres, hslow⟩⟩ := note_cases hnote
      · simp at hres
      · cases hres
        exact ⟨⟨hsize, hpat, rfl, hclock, rfl, hcalm⟩, rfl,
          .inr (.inl ⟨_, rfl, rfl, rfl, fun _ => ⟨rfl, hslow⟩⟩)⟩
    · rename_i b₁ hnote
      obtain ⟨d, rfl, hclock, _⟩ := note_cases hnote
      split at h
      · rename_i hne
        cases h
        exact ⟨⟨hsize, hpat, rfl, hclock, rfl, hcalm⟩, rfl,
          .inr (.inr ⟨_, rfl, .invalid _, hrefuse hne⟩)⟩
      · rename_i heq
        rw [not_not] at heq
        cases h
        exact ⟨⟨hsize, hpat, rfl, hclock, rfl, hcalm⟩, rfl,
          .inl ⟨rfl, rfl, by rw [hbytes, heq]⟩⟩

end BodyReader

end Omdrop.Proto
