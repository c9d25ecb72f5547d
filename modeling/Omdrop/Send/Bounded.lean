import Omdrop.Send.Answer

namespace Omdrop.Send.Http

open Omdrop.Stream Omdrop.Text

/-!
# How much a response takes

A head, a line and a body that is read have their limits, and so has what is buffered.  Interim
answers and trailers have none: each of them fits, but as many are skipped as come (`skips`).  So
what an exchange takes from a connection is bounded just as far as the number of these is
(`bounded_iff`).
-/

/-- At most `n` bytes are used up from one state of a connection to another. -/
def Uses (n : Nat) (c c' : Conn) : Prop := c.inp.stream.length ≤ c'.inp.stream.length + n

section Uses

variable {m n : Nat} {c c' c'' : Conn}

/-- What two steps use adds up. -/
theorem Uses.trans (h : Uses m c c') (h' : Uses n c' c'') : Uses (m + n) c c'' := by
  unfold Uses at *
  omega

/-- Who uses little uses no more than much. -/
theorem Uses.mono (h : Uses m c c') (hle : m ≤ n) : Uses n c c' := by
  unfold Uses at *
  omega

/-- A line uses no more than a full buffer. -/
theorem readLine_uses {res : Except HttpErr Text} (h : readLine c = (res, c'))
    (hbuf : c.inp.rbuf.length ≤ maxBuffered) : Uses maxBuffered c c' := by
  have hfill := (@fillUntil_head _ crlfAt c.inp).2
  unfold readLine at h
  unfold Uses
  split at h <;> rename_i hf <;> rw [hf] at hfill <;> cases h <;>
    rw [← Incoming.stream_fillUntil hf]
  · rename_i i inp
    have hle := crlfAt_le (Incoming.fillUntil_ok hf)
    have hfill : inp.rbuf.length ≤ max c.inp.rbuf.length maxBuffered := hfill
    show _ ≤ (inp.drain (i + 2)).stream.length + _
    rw [Incoming.stream_drain hle, List.length_drop]
    omega
  · exact Nat.le_add_right _ _
  · exact Nat.le_add_right _ _
  · exact Nat.le_add_right _ _

/-- Counted bytes use themselves. -/
theorem readExactBody_uses {res : Except HttpErr (List UInt8)} (h : readExactBody n c = (res, c')) :
    Uses n c c' := by
  unfold readExactBody at h
  unfold Uses
  split at h <;> rename_i hf <;> cases h <;> rw [← Incoming.stream_fillUntil hf]
  · rename_i inp
    show _ ≤ (inp.drain n).stream.length + _
    rw [Incoming.stream_drain (le_of_bytesIn (Incoming.fillUntil_ok hf)), List.length_drop]
    omega
  · exact Nat.le_add_right _ _
  · exact Nat.le_add_right _ _

/-- The most that a chunk of one byte takes. -/
def chunkUse : Nat := 2 * maxBuffered + 1

/-- A chunk of `size` bytes takes no more than `size` chunks of one byte. -/
theorem chunk_use {size left : Nat} (hpos : size ≠ 0) (hle : size ≤ left) :
    maxBuffered + size + maxBuffered + (left - size + 1) * chunkUse ≤ (left + 1) * chunkUse := by
  obtain ⟨more, rfl⟩ := Nat.exists_eq_add_of_le hle
  have hsize : 2 * maxBuffered * 1 ≤ 2 * maxBuffered * size :=
    Nat.mul_le_mul_left _ (Nat.one_le_iff_ne_zero.mpr hpos)
  have hsum : (size + more + 1) * chunkUse =
      2 * maxBuffered * size + size + (more + 1) * chunkUse := by
    unfold chunkUse
    ring
  rw [Nat.add_sub_cancel_left, hsum]
  omega

/-- A chunk may use a full buffer. -/
theorem maxBuffered_le_chunkUse (left : Nat) : maxBuffered ≤ (left + 1) * chunkUse := by
  have hle : maxBuffered ≤ chunkUse := by
    unfold chunkUse
    omega
  exact hle.trans (Nat.le_mul_of_pos_left _ (Nat.succ_pos _))

/-- One chunk with its two lines. -/
theorem chunk_uses {line chunkEnd : Except HttpErr Text} {chunk : List UInt8} {c₁ c₂ c₃ : Conn}
    (hline : readLine c = (line, c₁)) (hdata : readExactBody n c₁ = (.ok chunk, c₂))
    (hend : readLine c₂ = (chunkEnd, c₃)) (hbuf : c.inp.rbuf.length ≤ maxBuffered) :
    Uses (maxBuffered + n + maxBuffered) c c₃ ∧ c₃.inp.rbuf.length ≤ maxBuffered := by
  have hbuf₁ := (readLine_leaves hline).2
  have hbuf₂ := ((readExactBody_leaves hdata).mono (Nat.le_add_left fillBytes maxHeadBytes)).2
  have hbuf₃ := (readLine_leaves hend).2
  have hsum : maxHeadBytes + fillBytes = maxBuffered := rfl
  exact ⟨((readLine_uses hline hbuf).trans (readExactBody_uses hdata)).trans
    (readLine_uses hend (by omega)), by omega⟩

/-- Counted bytes that are read are as many as were counted. -/
private theorem length_of_readExactBody {chunk : List UInt8}
    (h : readExactBody n c = (.ok chunk, c')) :
    chunk.length = n := by
  unfold readExactBody at h
  split at h <;> rename_i hf <;> cases h
  exact List.length_take_of_le (le_of_bytesIn (Incoming.fillUntil_ok hf))

/-- Chunks use at most so much for every byte that the body may still grow by. -/
theorem readChunks_uses {body : List UInt8} {res : Except HttpErr (List UInt8)}
    (h : readChunks body c = (res, c')) (hbuf : c.inp.rbuf.length ≤ maxBuffered) :
    Uses ((maxResponseBytes - body.length + 1) * chunkUse) c c' := by
  have hmax := maxResponseBytes_lt
  fun_induction readChunks body c with
  | case1 body c e c₁ hline =>
    -- no line comes
    cases h
    exact (readLine_uses hline hbuf).mono (maxBuffered_le_chunkUse _)
  | case2 body c line c₁ hline e hsize =>
    -- the line is no size
    cases h
    exact (readLine_uses hline hbuf).mono (maxBuffered_le_chunkUse _)
  | case3 body c line c₁ hline hsize =>
    -- an empty chunk ends the body
    cases h
    exact (readLine_uses hline hbuf).mono (maxBuffered_le_chunkUse _)
  | case4 body c line c₁ hline size hsize hzero hlarge =>
    -- the body grows too large
    cases h
    exact (readLine_uses hline hbuf).mono (maxBuffered_le_chunkUse _)
  | case5 body c line c₁ hline size hsize hzero hsmall e c₂ hdata =>
    -- the chunk does not come as a whole
    cases h
    have huse := @chunk_use _ (maxResponseBytes - body.length) hzero (by omega)
    exact ((readLine_uses hline hbuf).trans (readExactBody_uses hdata)).mono (by omega)
  | case6 body c line c₁ hline size hsize hzero hsmall chunk c₂ hdata e c₃ hend =>
    -- no line comes behind it
    cases h
    have huse := @chunk_use _ (maxResponseBytes - body.length) hzero (by omega)
    exact (chunk_uses hline hdata hend hbuf).1.mono (by omega)
  | case7 body c line c₁ hline size hsize hzero hsmall chunk c₂ hdata c₃ hend ih =>
    -- the line behind it is blank, and the next chunk follows
    have huse := @chunk_use _ (maxResponseBytes - body.length) hzero (by omega)
    obtain ⟨hchunk, hbuf₃⟩ := chunk_uses hline hdata hend hbuf
    have hrest := ih h hbuf₃
    rw [List.length_append, length_of_readExactBody hdata, ← Nat.sub_sub] at hrest
    exact (hchunk.trans hrest).mono huse
  | case8 body c line c₁ hline size hsize hzero hsmall chunk c₂ hdata line' c₃ hend hne =>
    -- the line behind it is not blank
    cases h
    have huse := @chunk_use _ (maxResponseBytes - body.length) hzero (by omega)
    exact (chunk_uses hline hdata hend hbuf).1.mono (by omega)

end Uses

/-! ### What is skipped -/

/-- How many trailer lines are skipped. -/
def trailerSkips (c : Conn) : Nat :=
  match _h : readLine c with
  | (.error _, _)   => 0
  | (.ok line, c') => if line = [] then 0 else trailerSkips c' + 1
termination_by c.inp.stream.length
decreasing_by exact length_readLine _h

/-- How many trailer lines are skipped behind a body. -/
def bodySkips (framing : Framing) (c : Conn) : Nat :=
  match framing with
  | .chunked =>
    match readChunks [] c with
    | (.error _, _) => 0
    | (.ok _, c')   => trailerSkips c'
  | _        => 0

/-- How many interim answers and trailer lines are skipped. -/
def skips [Httparse] (c : Conn) : Nat :=
  match _h : readHead c with
  | (.error _, _)  => 0
  | (.ok head, c') =>
    let c₁ : Conn := { c' with inp := c'.inp.drain head.len }
    if isInterim head.status then skips c₁ + 1 else bodySkips head.framing c₁
termination_by c.inp.stream.length
decreasing_by exact (length_readHead _h).2

section Skips

variable {c c' : Conn}

/-- One line of a trailer that is skipped. -/
theorem trailerSkips_turn (c : Conn) :
    trailerSkips c = match readLine c with
      | (.error _, _)  => 0
      | (.ok line, c') => if line = [] then 0 else trailerSkips c' + 1 := by
  rw [trailerSkips]
  split <;> rename_i h <;> rw [h]

/-- One head that is skipped, and the lines of a trailer. -/
theorem skips_turn [Httparse] (c : Conn) :
    skips c = match readHead c with
      | (.error _, _)  => 0
      | (.ok head, c') =>
        let c₁ : Conn := { c' with inp := c'.inp.drain head.len }
        if isInterim head.status then skips c₁ + 1 else bodySkips head.framing c₁ := by
  rw [skips]
  split <;> rename_i h <;> rw [h]

/-- Reading a line leaves no more than there was. -/
theorem readLine_le {res : Except HttpErr Text} (h : readLine c = (res, c')) :
    c'.inp.stream.length ≤ c.inp.stream.length := by
  cases res with
  | ok line => exact (length_readLine h).le
  | error e =>
    unfold readLine at h
    split at h <;> rename_i hf <;> cases h <;> rw [← Incoming.stream_fillUntil hf]

/-- Reading chunks leaves no more than there was. -/
theorem readChunks_le {body : List UInt8} {res : Except HttpErr (List UInt8)}
    (h : readChunks body c = (res, c')) : c'.inp.stream.length ≤ c.inp.stream.length := by
  fun_induction readChunks body c with
  | case1 body c e c₁ hline =>
    cases h
    exact readLine_le hline
  | case2 body c line c₁ hline e hsize =>
    cases h
    exact readLine_le hline
  | case3 body c line c₁ hline hsize =>
    cases h
    exact readLine_le hline
  | case4 body c line c₁ hline size hsize hzero hlarge =>
    cases h
    exact readLine_le hline
  | case5 body c line c₁ hline size hsize hzero hsmall e c₂ hdata =>
    cases h
    exact (length_readExactBody hdata).trans (readLine_le hline)
  | case6 body c line c₁ hline size hsize hzero hsmall chunk c₂ hdata e c₃ hend =>
    cases h
    exact (readLine_le hend).trans ((length_readExactBody hdata).trans (readLine_le hline))
  | case7 body c line c₁ hline size hsize hzero hsmall chunk c₂ hdata c₃ hend ih =>
    exact (ih h).trans
      ((readLine_le hend).trans ((length_readExactBody hdata).trans (readLine_le hline)))
  | case8 body c line c₁ hline size hsize hzero hsmall chunk c₂ hdata line' c₃ hend hne =>
    cases h
    exact (readLine_le hend).trans ((length_readExactBody hdata).trans (readLine_le hline))

/-- Each trailer line takes something, and no more than what is buffered for it. -/
private theorem readTrailers_uses {res : Except HttpErr Unit} (h : readTrailers c = (res, c'))
    (hbuf : c.inp.rbuf.length ≤ maxBuffered) :
    Uses ((trailerSkips c + 1) * maxBuffered) c c' ∧
      c'.inp.stream.length + trailerSkips c ≤ c.inp.stream.length := by
  fun_induction readTrailers c with
  | case1 c e c₁ hline =>
    -- no line comes
    cases h
    rw [trailerSkips_turn, hline]
    exact ⟨(readLine_uses hline hbuf).mono (by simp), readLine_le hline⟩
  | case2 c c₁ hline =>
    -- a blank line ends the trailers
    cases h
    rw [trailerSkips_turn, hline]
    exact ⟨(readLine_uses hline hbuf).mono (by simp), readLine_le hline⟩
  | case3 c line c₁ hline hne ih =>
    -- the line is passed over
    have hbuf₁ := (readLine_leaves hline).2
    obtain ⟨huses, hmore⟩ := ih h (by omega)
    have hless := length_readLine hline
    rw [trailerSkips_turn, hline]
    dsimp only
    rw [if_neg hne]
    refine ⟨((readLine_uses hline hbuf).trans huses).mono ?_, by omega⟩
    rw [Nat.add_one_mul (trailerSkips c₁ + 1), Nat.add_comm]

/-- The most that a body takes, its trailers apart. -/
def bodyUse : Nat := (maxResponseBytes + 1) * chunkUse + maxBuffered

/-- A body may use its limit. -/
private theorem maxResponseBytes_le_bodyUse : maxResponseBytes ≤ bodyUse := by
  have hle : maxResponseBytes + 1 ≤ (maxResponseBytes + 1) * chunkUse :=
    Nat.le_mul_of_pos_right _ (Nat.succ_pos _)
  unfold bodyUse
  omega

/-- A body up to the close uses no more than its limit and a read. -/
private theorem fillToClose_uses {inp inp' : Incoming HttpErr fillBytes}
    {res : Except HttpErr (List UInt8)} (h : fillToClose inp = (res, inp'))
    (hbuf : inp.rbuf.length ≤ maxResponseBytes) :
    inp.stream.length ≤ inp'.stream.length + maxResponseBytes ∧
      inp'.stream.length ≤ inp.stream.length := by
  obtain ⟨rbuf, reads, ending⟩ := inp
  induction reads generalizing rbuf with
  | nil =>
    rw [Incoming.stream_nil]
    rw [fillToClose_nil rfl] at h
    split at h <;> cases h
    · exact ⟨hbuf.trans (Nat.le_add_left _ _), Nat.zero_le _⟩
    · rw [Incoming.stream_nil]
      exact ⟨Nat.le_add_right _ _, Nat.le_refl _⟩
  | cons p reads ih =>
    have hstream : Incoming.stream ⟨rbuf ++ p.1, reads, ending⟩ =
        Incoming.stream ⟨rbuf, p :: reads, ending⟩ :=
      Incoming.stream_fill (c := ⟨rbuf, p :: reads, ending⟩) rfl
    rw [← hstream]
    rw [fillToClose_cons rfl] at h
    by_cases hlarge : maxResponseBytes < (rbuf ++ p.1).length
    · rw [if_pos hlarge] at h
      cases h
      exact ⟨Nat.le_add_right _ _, Nat.le_refl _⟩
    · rw [if_neg hlarge] at h
      exact ih (rbuf ++ p.1) h (Nat.le_of_not_lt hlarge)

/-- What a body takes. -/
theorem readBody_uses {framing : Framing} {res : Except HttpErr (List UInt8)}
    (h : readBody framing c = (res, c')) (hlength : ∀ n, framing = .length n → n ≤ maxResponseBytes)
    (hbuf : c.inp.rbuf.length ≤ maxBuffered) :
    Uses (bodyUse + bodySkips framing c * maxBuffered) c c' ∧
      c'.inp.stream.length + bodySkips framing c ≤ c.inp.stream.length := by
  have hle := maxResponseBytes_le_bodyUse
  cases framing with
  | none =>
    cases h
    exact ⟨Nat.le_add_right _ _, Nat.le_refl _⟩
  -- a counted body uses its length, which is bounded
  | length n =>
    have hn := hlength n rfl
    exact ⟨(readExactBody_uses h).mono (hn.trans (hle.trans (Nat.le_add_right _ _))),
      length_readExactBody h⟩
  -- a body up to the close is cut at the limit
  | untilClose =>
    rcases hclose : fillToClose c.inp with ⟨res', inp⟩
    rw [readBody_untilClose hclose] at h
    cases h
    obtain ⟨huses, hless⟩ := fillToClose_uses hclose (hbuf.trans maxBuffered_le)
    have huses : Uses maxResponseBytes c ⟨inp, true⟩ := huses
    exact ⟨huses.mono (hle.trans (Nat.le_add_right _ _)), hless⟩
  | chunked =>
    have h : readChunked c = (res, c') := h
    unfold readChunked at h
    unfold bodySkips
    rcases hchunks : readChunks [] c with ⟨e | body, c₁⟩ <;> rw [hchunks] at h
    · cases h
      refine ⟨(readChunks_uses hchunks hbuf).mono ?_, readChunks_le hchunks⟩
      exact (Nat.le_add_right _ _).trans (Nat.le_add_right _ _)
    · dsimp only at h ⊢
      have hbuf₁ : c₁.inp.rbuf.length ≤ maxBuffered :=
        (readChunks_leaves hchunks).2.trans (max_le hbuf (Nat.le_refl _))
      have hchunks_le := readChunks_le hchunks
      -- the trailers come on top of the chunks, a buffer for each line that is skipped
      have hboth : ∀ {res'}, readTrailers c₁ = (res', c') →
          Uses (bodyUse + trailerSkips c₁ * maxBuffered) c c' ∧
            c'.inp.stream.length + trailerSkips c₁ ≤ c.inp.stream.length := by
        intro res' htrailers
        obtain ⟨huses, hless⟩ := readTrailers_uses htrailers hbuf₁
        refine ⟨((readChunks_uses hchunks hbuf).trans huses).mono ?_, hless.trans hchunks_le⟩
        rw [Nat.add_one_mul (trailerSkips c₁)]
        unfold bodyUse
        rw [List.length_nil, Nat.sub_zero]
        omega
      split at h <;> rename_i htrailers <;> cases h
      · exact hboth htrailers
      · exact hboth htrailers

/-- The most that a response takes, interim answers and trailers apart. -/
def responseUse : Nat := maxBuffered + bodyUse

variable [Httparse]

/-- A head uses no more than a full buffer. -/
theorem readHead_uses {head : Head} (h : readHead c = (.ok head, c'))
    (hbuf : c.inp.rbuf.length ≤ maxBuffered) :
    Uses maxBuffered c { c' with inp := c'.inp.drain head.len } ∧
      (c'.inp.drain head.len).rbuf.length ≤ maxBuffered := by
  have hleaves := readHead_leaves h
  have hlen : c'.inp.rbuf.length ≤ maxBuffered := hleaves.2.2.trans (max_le hbuf (Nat.le_refl _))
  refine ⟨?_, (drain_leaves hleaves.2 head.len).2.trans (max_le hbuf (Nat.le_refl _))⟩
  show _ ≤ (c'.inp.drain head.len).stream.length + _
  rw [Incoming.stream_drain (length_readHead h).1, List.length_drop, hleaves.1]
  have := (length_readHead h).1
  omega

/-- **What a response takes.**  What is skipped takes something each, and no more than what is
    buffered for it; all else has a limit. -/
theorem readResponse_uses {res : Except HttpErr Response} (h : readResponse c = (res, c'))
    (hbuf : c.inp.rbuf.length ≤ maxBuffered) :
    Uses (responseUse + skips c * maxBuffered) c c' ∧
      c'.inp.stream.length + skips c ≤ c.inp.stream.length := by
  fun_induction readResponse c with
  | case1 c e c₁ hhead =>
    -- no head comes
    cases h
    have hstream := (readHead_leaves hhead).1
    rw [skips_turn, hhead]
    unfold Uses
    rw [hstream]
    exact ⟨Nat.le_add_right _ _, Nat.le_refl _⟩
  | case2 c head c₁ hhead c₂ hinterim ih =>
    -- an interim head is passed over
    obtain ⟨huses, hbuf₂⟩ := readHead_uses hhead hbuf
    obtain ⟨hrest, hmore⟩ := ih h hbuf₂
    have hless : c₂.inp.stream.length < c.inp.stream.length := (length_readHead hhead).2
    rw [skips_turn, hhead]
    dsimp only
    rw [if_pos hinterim]
    show Uses (responseUse + (skips c₂ + 1) * maxBuffered) c c' ∧ _ + (skips c₂ + 1) ≤ _
    refine ⟨(huses.trans hrest).mono ?_, by omega⟩
    rw [Nat.add_one_mul (skips c₂)]
    omega
  | case3 c head c₁ hhead c₂ hinterim e c₃ hbody =>
    -- the body fails
    cases h
    obtain ⟨huses, hbuf₂⟩ := readHead_uses hhead hbuf
    obtain ⟨hrest, hmore⟩ := readBody_uses hbody (readHead_length hhead) hbuf₂
    have hless : c₂.inp.stream.length < c.inp.stream.length := (length_readHead hhead).2
    rw [skips_turn, hhead]
    dsimp only
    rw [if_neg hinterim]
    show Uses (responseUse + bodySkips head.framing c₂ * maxBuffered) c c' ∧
      _ + bodySkips head.framing c₂ ≤ _
    refine ⟨(huses.trans hrest).mono ?_, by omega⟩
    unfold responseUse
    omega
  | case4 c head c₁ hhead c₂ hinterim body c₃ hbody =>
    -- the response is read as a whole
    cases h
    obtain ⟨huses, hbuf₂⟩ := readHead_uses hhead hbuf
    obtain ⟨hrest, hmore⟩ := readBody_uses hbody (readHead_length hhead) hbuf₂
    have hless : c₂.inp.stream.length < c.inp.stream.length := (length_readHead hhead).2
    rw [skips_turn, hhead]
    dsimp only
    rw [if_neg hinterim]
    show Uses (responseUse + bodySkips head.framing c₂ * maxBuffered) c c₃ ∧
      c₃.inp.stream.length + bodySkips head.framing c₂ ≤ _
    refine ⟨(huses.trans hrest).mono ?_, by omega⟩
    unfold responseUse
    omega

/-- How many bytes an exchange takes from the connection. -/
def consumed (sent : Except HttpErr Unit) (c : Conn) : Nat :=
  c.inp.unread.length - (post sent c).2.inp.unread.length

omit [Httparse] in
/-- What is to be read is buffered or has yet to come. -/
theorem length_stream (inp : Incoming HttpErr fillBytes) :
    inp.stream.length = inp.rbuf.length + inp.unread.length := List.length_append

/-- What an exchange takes, as far as what it skips. -/
theorem consumed_le (hkept : Kept c) (sent : Except HttpErr Unit) :
    consumed sent c ≤ responseUse + skips c * maxBuffered + (maxResponseBytes + fillBytes) := by
  cases sent with
  | error e =>
    unfold consumed post
    rw [Nat.sub_self]
    exact Nat.zero_le _
  | ok u =>
    rcases hread : readResponse c with ⟨res, c'⟩
    have hbuf := hkept.buffer
    have huses : c.inp.stream.length ≤
        c'.inp.stream.length + (responseUse + skips c * maxBuffered) :=
      (readResponse_uses hread hbuf).1
    have hleft := (readResponse_leaves hread (hbuf.trans maxBuffered_le)).2
    have hmost : mostLeft res ≤ maxResponseBytes + fillBytes := by
      have hle := maxBuffered_le
      cases res with
      | ok r => exact hle.trans (Nat.le_add_right _ _)
      | error e => exact Nat.le_refl _
    have hle := maxBuffered_le
    rw [length_stream, length_stream] at huses
    show c.inp.unread.length - (readResponse c).2.inp.unread.length ≤ _
    rw [hread]
    show c.inp.unread.length - c'.inp.unread.length ≤ _
    omega

/-- No more is skipped than was consumed, but for a full buffer. -/
theorem skips_le (hkept : Kept c) : skips c ≤ consumed (.ok ()) c + maxBuffered := by
  rcases hread : readResponse c with ⟨res, c'⟩
  have hbuf := hkept.buffer
  have hskips := (readResponse_uses hread hbuf).2
  rw [length_stream, length_stream] at hskips
  show _ ≤ c.inp.unread.length - (readResponse c).2.inp.unread.length + _
  rw [hread]
  show _ ≤ c.inp.unread.length - c'.inp.unread.length + _
  omega

/-- **Exchanges are bounded as far as what they skip is.** -/
theorem bounded_iff {F : Set Conn} (hkept : ∀ c ∈ F, Kept c) :
    (∃ B, ∀ c ∈ F, ∀ sent, consumed sent c ≤ B) ↔ ∃ K, ∀ c ∈ F, skips c ≤ K := by
  constructor
  · rintro ⟨B, hB⟩
    refine ⟨B + maxBuffered, fun c hc => ?_⟩
    have hskips := skips_le (hkept c hc)
    have hless := hB c hc (.ok ())
    omega
  · rintro ⟨K, hK⟩
    refine ⟨responseUse + K * maxBuffered + (maxResponseBytes + fillBytes), fun c hc sent => ?_⟩
    have hless := consumed_le (hkept c hc) sent
    have hskips : skips c * maxBuffered ≤ K * maxBuffered := Nat.mul_le_mul_right _ (hK c hc)
    omega

end Skips

/-! ### Interim answers without end -/

/-- An interim answer. -/
def interim : Piece fillBytes :=
  ⟨utf8 "HTTP/1.1 100 Continue\r\n\r\n".toList, by decide, by rw [fillBytes]; decide⟩

/-- A parser that knows the head of it. -/
@[reducible] def interimParser : Httparse :=
  Httparse.single interim.1 interim.2.1 ⟨some 100, some "Continue".toList, some 1, []⟩

/-- A connection that brings `k` of them. -/
def interims (k : Nat) : Conn := ⟨⟨[], List.replicate k interim, none⟩, false⟩

/-- Each interim head is read as one. -/
private theorem readHead_interims (k : Nat) :
    @readHead interimParser (interims (k + 1)) =
      (.ok ⟨100, "Continue".toList, interim.1.length, .none, false⟩,
        ⟨⟨interim.1, List.replicate k interim, none⟩, false⟩) := by
  let parser := interimParser
  have hlimit : ¬ (some maxHeadBytes).any (· < ([] : List UInt8).length) := by simp
  have hempty : headIn [] = none := by decide
  have hwhole : headIn interim.1 =
      some (.ok (interim.1.length, ⟨some 100, some "Continue".toList, some 1, []⟩)) := by
    unfold headIn
    rw [Httparse.single_eq, if_pos (List.prefix_refl _)]
  have hfill : (interims (k + 1)).inp.fillUntil isEof (some maxHeadBytes) headIn =
      (.ok (.ok (interim.1.length, ⟨some 100, some "Continue".toList, some 1, []⟩)),
        ⟨interim.1, List.replicate k interim, none⟩) := by
    rw [Incoming.fillUntil_cons hempty hlimit rfl]
    exact Incoming.fillUntil_some hwhole
  unfold readHead
  rw [hfill]
  rfl

/-- At least as many heads are skipped as were sent. -/
private theorem skips_interims (k : Nat) : k ≤ @skips interimParser (interims k) := by
  induction k with
  | zero => exact Nat.zero_le _
  | succ k ih =>
    rw [@skips_turn interimParser, readHead_interims]
    have hdrain : interim.1.drop interim.1.length = [] := List.drop_length
    show _ ≤ @skips interimParser ⟨⟨interim.1.drop interim.1.length, _, _⟩, _⟩ + 1
    rw [hdrain]
    exact Nat.add_le_add_right ih 1

/-- Not every exchange is bounded. -/
theorem interims_unbounded :
    ¬ ∃ B, ∀ reads ending, @consumed interimParser (.ok ()) ⟨⟨[], reads, ending⟩, false⟩ ≤ B := by
  rintro ⟨B, hB⟩
  have hskips := @skips_le (interims (B + maxBuffered + 1)) interimParser
    (@Kept.opened interimParser _ _)
  have hless := hB (List.replicate (B + maxBuffered + 1) interim) none
  have hmany := skips_interims (B + maxBuffered + 1)
  unfold interims at *
  omega

/-- New connections of all kinds, with a parser that knows an interim answer. -/
theorem bounded_iff_opened :
    (∃ B, ∀ c ∈ {c : Conn | ∃ reads ending, c = ⟨⟨[], reads, ending⟩, false⟩}, ∀ sent,
      @consumed interimParser sent c ≤ B) ↔
    ∃ K, ∀ c ∈ {c : Conn | ∃ reads ending, c = ⟨⟨[], reads, ending⟩, false⟩},
      @skips interimParser c ≤ K :=
  @bounded_iff interimParser _ (by
    rintro c ⟨reads, ending, rfl⟩
    exact @Kept.opened interimParser reads ending)

end Omdrop.Send.Http
