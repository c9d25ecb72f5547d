import Mathlib.Logic.Relation
import Omdrop.Send.Answer

namespace Omdrop.Send.Http

open Omdrop.Stream Omdrop.Text

/-!
# Responses do not depend on how they arrive

`readResponse_eq` says that reading a response comes to what the stream of bytes holds, whatever
pieces they arrive in, as long as the heads and lines are no longer than what is buffered for them
(`Fits`).  So connections with the same bytes to come answer alike: `readResponse_unsplit`.
-/

/-! ### One line, some bytes, one head -/

/-- A line fits that has fewer bytes before its end than are buffered for it. -/
def LineFits (S : List UInt8) : Prop := ∀ i, crlfAt S = some i → i < maxHeadBytes

/-- A read that finds the end fails as the stream does, or with this. -/
theorem endsWith_stop {inp : Incoming HttpErr fillBytes} {e : HttpErr} :
    endsWith inp.ending e = match inp.stop isEof with
      | .failed e' => e'
      | _          => e := by
  unfold endsWith Incoming.stop Incoming.failure
  cases inp.ending.filter (! isEof ·) <;> rfl

/-- A line is read as it stands in the stream. -/
theorem readLine_eq {c : Conn} (hfits : LineFits c.inp.stream) :
    (readLine c).1.map (·, (readLine c).2.inp.stream) = lineAt c.inp.ending c.inp.stream := by
  rcases hf : c.inp.fillUntil isEof (some maxHeadBytes) crlfAt with ⟨res, inp⟩
  have hstream := Incoming.stream_fillUntil hf
  have hcases := Incoming.fillUntil_cases crlfAt_stable (fun i l hi hl => ?_) hf
  · unfold readLine lineAt
    rw [hf]
    rcases hcases with ⟨i, hi, rfl, hbuf⟩ | ⟨hn, hl, rfl⟩ | ⟨hn, hl, rfl, hbuf⟩
    · have hle := crlfAt_le hbuf
      rw [hi]
      show Except.ok (fromUtf8Lossy (inp.rbuf.take i), (inp.drain (i + 2)).stream) = .ok (_, _)
      rw [Incoming.take_rbuf (by omega), Incoming.stream_drain hle, hstream]
    · have hlen : maxHeadBytes < c.inp.stream.length := by simpa using hl
      rw [hn]
      show _ = if _ then _ else _
      rw [if_pos hlen]
      rfl
    · have hlen : ¬ maxHeadBytes < c.inp.stream.length := by simpa using hl
      rw [hn]
      show _ = if _ then _ else _
      rw [if_neg hlen, endsWith_stop]
      unfold Incoming.stop
      cases c.inp.failure isEof <;> rfl
  · cases hl
    have := hfits i hi
    exact ⟨i + 2, by omega, by rw [crlfAt_take hi]; rfl⟩

/-- Counted bytes do not depend on what follows. -/
private theorem bytesIn_stable (n : Nat) : Incoming.Stable (bytesIn n) := by
  intro P T u h
  have hle := le_of_bytesIn h
  unfold bytesIn
  rw [if_pos (by rw [List.length_append]; omega)]

/-- A counted body is read as it stands in the stream. -/
theorem readExactBody_eq (n : Nat) (c : Conn) :
    (readExactBody n c).1.map (·, (readExactBody n c).2.inp.stream) =
      bytesAt n c.inp.ending c.inp.stream := by
  rcases hf : c.inp.fillUntil isEof none (bytesIn n) with ⟨res, inp⟩
  have hstream := Incoming.stream_fillUntil hf
  have hcases := Incoming.fillUntil_cases (bytesIn_stable n) (fun _ _ _ hl => by cases hl) hf
  unfold readExactBody bytesAt
  rw [hf]
  rcases hcases with ⟨u, hu, rfl, hbuf⟩ | ⟨_, hl, _⟩ | ⟨hn, _, rfl, hbuf⟩
  · have hle := le_of_bytesIn hbuf
    rw [if_pos (le_of_bytesIn hu)]
    show Except.ok (inp.rbuf.take n, (inp.drain n).stream) = .ok (_, _)
    rw [Incoming.take_rbuf hle, Incoming.stream_drain hle, hstream]
  · cases hl
  · rw [if_neg (bytesIn_none hn), endsWith_stop, ← hbuf]
    unfold Incoming.stop
    cases c.inp.failure isEof <;> rfl

section ToClose

variable {inp : Incoming HttpErr fillBytes}

/-- A body that ends with the connection, from a buffer that is not too large yet. -/
private theorem fillToClose_eq (h : inp.rbuf.length ≤ maxResponseBytes) :
    (fillToClose inp).1.map (·, (fillToClose inp).2.stream) =
      bodyAt .untilClose inp.ending inp.stream := by
  obtain ⟨rbuf, reads, ending⟩ := inp
  induction reads generalizing rbuf with
  | nil =>
    have hlen : ¬ maxResponseBytes < rbuf.length := Nat.not_lt.mpr h
    rw [fillToClose_nil rfl, bodyAt, Incoming.stream_nil, if_neg hlen]
    unfold Incoming.failure
    cases ending.filter (! isEof ·) <;> rfl
  | cons p reads ih =>
    have hstream : Incoming.stream ⟨rbuf ++ p.1, reads, ending⟩ =
        Incoming.stream ⟨rbuf, p :: reads, ending⟩ :=
      Incoming.stream_fill (c := ⟨rbuf, p :: reads, ending⟩) rfl
    rw [fillToClose_cons rfl]
    by_cases hlen : maxResponseBytes < (rbuf ++ p.1).length
    · have hlong : maxResponseBytes < (Incoming.stream ⟨rbuf, p :: reads, ending⟩).length := by
        rw [← hstream]
        exact hlen.trans_le (Incoming.length_rbuf_le ⟨rbuf ++ p.1, reads, ending⟩)
      show ((if _ then _ else _ : Except HttpErr (List UInt8) × _).1).map _ = _
      rw [if_pos hlen, bodyAt, if_pos hlong]
      rfl
    · show ((if _ then _ else _ : Except HttpErr (List UInt8) × _).1).map _ = _
      rw [if_neg hlen, ih (rbuf ++ p.1) (Nat.le_of_not_lt hlen), hstream]

end ToClose

section Heads

variable [Httparse]

/-- A head fits that is no longer than what is buffered for it, and what is none shows as early. -/
structure HeadFits (S : List UInt8) : Prop where
  head : ∀ n resp, Httparse.response S = .complete n resp → n ≤ maxHeadBytes
  wrong : ∀ why, Httparse.response S = .error why →
    ∃ j ≤ maxHeadBytes, Httparse.response (S.take j) = .error why

/-- A head does not depend on what follows. -/
private theorem headIn_stable (hlaw : Httparse.Lawful) : Incoming.Stable headIn := by
  intro P T a h
  unfold headIn at h ⊢
  cases hp : Httparse.response P with
  | complete n resp =>
    rw [hlaw.more T hp]
    rwa [hp] at h
  | incomplete =>
    rw [hp] at h
    cases h
  | error why =>
    rw [hlaw.wrong T hp]
    rwa [hp] at h

/-- A head is read as it stands in the stream. -/
private theorem readHead_eq (hlaw : Httparse.Lawful) {c : Conn} (hfits : HeadFits c.inp.stream) :
    (readHead c).1 = headAt c.inp.ending c.inp.stream := by
  rcases hf : c.inp.fillUntil isEof (some maxHeadBytes) headIn with ⟨res, inp⟩
  have hcases := Incoming.fillUntil_cases (headIn_stable hlaw) (fun a l ha hl => ?_) hf
  · unfold readHead headAt
    rw [hf]
    rcases hcases with ⟨a, ha, rfl, _⟩ | ⟨hn, hl, rfl⟩ | ⟨hn, hl, rfl, hbuf⟩
    · rw [ha]
      rcases a with why | ⟨n, resp⟩ <;> rfl
    · have hlen : maxHeadBytes < c.inp.stream.length := by simpa using hl
      rw [hn]
      show _ = if _ then _ else _
      rw [if_pos hlen]
    · have hlen : ¬ maxHeadBytes < c.inp.stream.length := by simpa using hl
      rw [hn]
      show _ = if _ then _ else _
      rw [if_neg hlen, endsWith_stop, ← hbuf]
      unfold Incoming.stop
      cases c.inp.failure isEof <;> rfl
  · cases hl
    unfold headIn at ha
    cases hp : Httparse.response c.inp.stream with
    | complete n resp =>
      have := hfits.head n resp hp
      exact ⟨n, by omega, by rw [headIn, hlaw.head hp]; rfl⟩
    | incomplete =>
      rw [hp] at ha
      cases ha
    | error why =>
      obtain ⟨j, hj, hwrong⟩ := hfits.wrong why hp
      exact ⟨j, by omega, by rw [headIn, hwrong]; rfl⟩

end Heads

/-! ### What the loops do next -/

/-- One line of a trailer. -/
private theorem readTrailers_turn (c : Conn) :
    readTrailers c = match readLine c with
      | (.error e, c')  => (.error e, c')
      | (.ok line, c') => if line = [] then (.ok (), c') else readTrailers c' := by
  rw [readTrailers]
  split <;> rename_i h <;> rw [h]

/-- One chunk. -/
private theorem readChunks_turn (body : List UInt8) (c : Conn) :
    readChunks body c = match readLine c with
      | (.error e, c')  => (.error e, c')
      | (.ok line, c') =>
        match chunkSize line with
        | .error e => (.error e, c')
        | .ok size =>
          if size = 0 then (.ok body, c')
          else if maxResponseBytes < min (body.length + size) (2 ^ 64 - 1) then
            (.error (pyErr "HTTPException" "chunked response is too large"), c')
          else
            match readExactBody size c' with
            | (.error e, c'')  => (.error e, c'')
            | (.ok chunk, c'') =>
              match readLine c'' with
              | (.error e, c''') => (.error e, c''')
              | (.ok line, c''') =>
                if line = [] then readChunks (body ++ chunk) c'''
                else (.error (pyErr "IncompleteRead" "chunk not followed by CRLF"), c''') := by
  rw [readChunks]
  rcases readLine c with ⟨e | line, c₁⟩
  · rfl
  dsimp only
  rcases chunkSize line with e | size
  · rfl
  dsimp only
  split_ifs
  · rfl
  · rfl
  · rcases readExactBody size c₁ with ⟨e | chunk, c₂⟩
    · rfl
    dsimp only
    rcases readLine c₂ with ⟨e | line, c₃⟩ <;> rfl

/-- One head. -/
private theorem readResponse_turn [Httparse] (c : Conn) :
    readResponse c = match readHead c with
      | (.error e, c')  => (.error e, c')
      | (.ok head, c') =>
        let c₁ : Conn := { c' with inp := c'.inp.drain head.len }
        if isInterim head.status then readResponse c₁
        else
          match readBody head.framing c₁ with
          | (.error e, c₂) => (.error e, c₂)
          | (.ok body, c₂) =>
            (.ok ⟨head.status, head.reason, body⟩,
              { c₂ with closed := c₂.closed || head.close }) := by
  rw [readResponse]
  rcases readHead c with ⟨e | head, c₁⟩ <;> rfl

/-! ### Where heads and lines are looked for -/

/-- What a reader looks for next: a head, a chunk's size, the end of a chunk when `got` bytes of
    data were read, or a trailer. -/
inductive Place
  | head
  | size (got : Nat)
  | chunkEnd (got : Nat)
  | trailer

/-- From one place in a stream to the next. -/
inductive Next [Httparse] : Place × List UInt8 → Place × List UInt8 → Prop
  | interim {S n resp head} : Httparse.response S = .complete n resp → headOf n resp = .ok head →
      isInterim head.status = true → Next (.head, S) (.head, S.drop n)
  | chunked {S n resp head} : Httparse.response S = .complete n resp → headOf n resp = .ok head →
      head.framing = .chunked → Next (.head, S) (.size 0, S.drop n)
  | data {S got i size} : crlfAt S = some i → chunkSize (fromUtf8Lossy (S.take i)) = .ok size →
      size ≠ 0 → got + size ≤ maxResponseBytes →
      Next (.size got, S) (.chunkEnd (got + size), S.drop (i + 2 + size))
  | more {S got} : crlfAt S = some 0 → Next (.chunkEnd got, S) (.size got, S.drop 2)
  | last {S got i} : crlfAt S = some i → chunkSize (fromUtf8Lossy (S.take i)) = .ok 0 →
      Next (.size got, S) (.trailer, S.drop (i + 2))
  | trailer {S i} : crlfAt S = some i → i ≠ 0 → Next (.trailer, S) (.trailer, S.drop (i + 2))

/-- What is looked for at a place fits. -/
def Short [Httparse] : Place × List UInt8 → Prop
  | (.head, S) => HeadFits S
  | (_, S)     => LineFits S

/-- From here on every head, chunk line and trailer line fits. -/
def Fits [Httparse] (place : Place) (S : List UInt8) : Prop :=
  ∀ q, Relation.ReflTransGen Next (place, S) q → Short q

section Fits

variable [Httparse] {place place' : Place} {S S' : List UInt8}

/-- What fits is short here. -/
theorem Fits.here (h : Fits place S) : Short (place, S) := h _ .refl

/-- What fits fits after a step. -/
theorem Fits.next (h : Fits place S) (hnext : Next (place, S) (place', S')) : Fits place' S' :=
  fun q hq => h q (.head hnext hq)

/-- What fits fits after any number of steps. -/
theorem Fits.walk (h : Fits place S)
    (hwalk : Relation.ReflTransGen Next (place, S) (place', S')) : Fits place' S' :=
  fun q hq => h q (hwalk.trans hq)

/-- Trailers that fit. -/
private theorem readTrailers_eq {c : Conn} (h : Fits .trailer c.inp.stream) :
    (readTrailers c).1.map (fun _ => (readTrailers c).2.inp.stream) =
      trailersAt c.inp.ending c.inp.stream := by
  induction hn : c.inp.stream.length using Nat.strongRecOn generalizing c with
  | ind n ih =>
    have hline := readLine_eq h.here
    rcases hr : readLine c with ⟨res, c'⟩
    rw [hr] at hline
    have hends := (readLine_leaves hr).1
    rw [trailersAt_turn, ← hline, readTrailers_turn, hr]
    cases res with
    | error e => rfl
    | ok line =>
      show Except.map _ (if line = [] then _ else _ : Except HttpErr Unit × Conn).1 =
        if line = [] then _ else _
      by_cases hnil : line = []
      · simp only [if_pos hnil]
        rfl
      · simp only [if_neg hnil]
        obtain ⟨i, hi, hline, hrest⟩ := lineAt_ok hline.symm
        have hpos : i ≠ 0 := by
          rintro rfl
          exact hnil (hline.trans (fromUtf8Lossy_eq_nil.mpr rfl))
        have hnext : Fits .trailer c'.inp.stream := by
          show Fits .trailer (c'.inp.stream)
          rw [show c'.inp.stream = _ from hrest]
          exact h.next (.trailer hi hpos)
        have hends : c'.inp.ending = c.inp.ending := hends
        have hless := length_readLine hr
        rw [← hends]
        exact ih c'.inp.stream.length (by omega) hnext rfl

/-- Chunks that fit. -/
private theorem readChunks_eq {body : List UInt8} {c : Conn}
    (h : Fits (.size body.length) c.inp.stream) :
    (readChunks body c).1.map (·, (readChunks body c).2.inp.stream) =
      chunksAt c.inp.ending body c.inp.stream := by
  -- the induction is on what the stream has left
  induction hn : c.inp.stream.length using Nat.strongRecOn generalizing c body with
  | ind n ih =>
    have hline := readLine_eq h.here
    rcases hr : readLine c with ⟨res, c'⟩
    rw [hr] at hline
    have hends := (readLine_leaves hr).1
    rw [chunksAt_turn, ← hline, readChunks_turn, hr]
    cases res with
    | error e => rfl
    | ok line =>
      obtain ⟨i, hi, hsaid, hrest⟩ := lineAt_ok hline.symm
      have hends : c'.inp.ending = c.inp.ending := hends
      have hrest : c'.inp.stream = c.inp.stream.drop (i + 2) := hrest
      dsimp only [Except.map]
      rw [← hends]
      cases hsize : chunkSize line with
      | error e => rfl
      | ok size =>
        rw [hsaid] at hsize
        -- an empty chunk ends the body, and one that is too large fails it
        by_cases hzero : size = 0
        · simp only [if_pos hzero]
        by_cases hlarge : maxResponseBytes < min (body.length + size) (2 ^ 64 - 1)
        · simp only [if_neg hzero, if_pos hlarge]
        simp only [if_neg hzero, if_neg hlarge]
        have hsmall : body.length + size ≤ maxResponseBytes := by
          have := maxResponseBytes_lt
          omega
        -- the chunk's bytes, and then the line that ends it
        have hdata := readExactBody_eq size c'
        rcases hx : readExactBody size c' with ⟨res, c''⟩
        rw [hx] at hdata
        have hends' := (readExactBody_leaves hx).1
        rw [← hdata, ← hends']
        cases res with
        | error e => rfl
        | ok chunk =>
          obtain ⟨hchunk, hrest'⟩ := bytesAt_ok hdata.symm
          have hrest' : c''.inp.stream = c.inp.stream.drop (i + 2 + size) := by
            rw [← List.drop_drop, ← hrest]
            exact hrest'
          have hfits : Fits (.chunkEnd (body ++ chunk).length) c''.inp.stream := by
            rw [hrest', List.length_append, hchunk]
            exact h.next (.data hi hsize hzero hsmall)
          have hend := readLine_eq hfits.here
          rcases hy : readLine c'' with ⟨res, c'''⟩
          rw [hy] at hend
          have hends'' := (readLine_leaves hy).1
          dsimp only [Except.map]
          rw [hy, ← hend, ← hends'']
          cases res with
          | error e => rfl
          | ok line =>
            dsimp only [Except.map]
            by_cases hnil : line = []
            · obtain ⟨j, hj, hsaid', hrest''⟩ := lineAt_ok hend.symm
              obtain rfl : j = 0 := lineAt_nil hj (hsaid'.symm.trans hnil)
              have hrest'' : c'''.inp.stream = c''.inp.stream.drop 2 := hrest''
              have hnext : Fits (.size (body ++ chunk).length) c'''.inp.stream := by
                rw [hrest'']
                exact hfits.next (.more hj)
              -- every line and every byte of a chunk leave less
              have hless := length_readLine hr
              have hless' := length_readExactBody hx
              have hless'' := length_readLine hy
              simp only [if_pos hnil]
              exact ih c'''.inp.stream.length (by omega) hnext rfl
            · simp only [if_neg hnil]

/-- The way through the chunks. -/
private theorem chunksAt_walk {fin : Option HttpErr} {body b rest : List UInt8}
    (h : chunksAt fin body S = .ok (b, rest)) :
    Relation.ReflTransGen Next (.size body.length, S) (.trailer, rest) := by
  fun_induction chunksAt fin body S with
  | case1 => cases h
  | case2 => cases h
  | case3 body S line rest' hline hsize =>
    cases h
    obtain ⟨i, hi, rfl, rfl⟩ := lineAt_ok hline
    exact .single (.last hi hsize)
  | case4 => cases h
  | case5 => cases h
  | case6 => cases h
  | case7 body S line rest' hline size hsize hzero hsmall chunk rest₂ hdata rest₃ hend ih =>
    obtain ⟨i, hi, rfl, rfl⟩ := lineAt_ok hline
    obtain ⟨hchunk, rfl⟩ := bytesAt_ok hdata
    obtain ⟨j, hj, hnil, rfl⟩ := lineAt_ok hend
    obtain rfl : j = 0 := lineAt_nil hj hnil.symm
    have hmax := maxResponseBytes_lt
    have hdata := @Next.data _ _ body.length _ _ hi hsize hzero (by omega)
    have hmore := @Next.more _ _ (body.length + size) hj
    rw [List.length_append, hchunk] at ih
    have hrest := ih h
    rw [List.drop_drop (i := size)] at hmore hrest
    exact .head hdata (.head hmore hrest)
  | case8 => cases h

/-- A chunked body that fits. -/
private theorem readChunked_eq {c : Conn} (h : Fits (.size 0) c.inp.stream) :
    (readChunked c).1.map (·, (readChunked c).2.inp.stream) =
      bodyAt .chunked c.inp.ending c.inp.stream := by
  have hchunks := @readChunks_eq _ [] _ h
  unfold readChunked bodyAt
  rcases hr : readChunks [] c with ⟨res, c'⟩
  rw [hr] at hchunks
  rw [← hchunks]
  cases res with
  | error e => rfl
  | ok body =>
    have hfits : Fits .trailer c'.inp.stream := h.walk (chunksAt_walk hchunks.symm)
    have hends : c'.inp.ending = c.inp.ending := (readChunks_leaves hr).1
    have htrailers := readTrailers_eq hfits
    dsimp only [Except.map]
    rw [← hends, ← htrailers]
    rcases readTrailers c' with ⟨res | _, c''⟩ <;> rfl

/-- A body that fits, from a buffer that is not too large yet. -/
private theorem readBody_eq {framing : Framing} {c : Conn}
    (hfits : framing = .chunked → Fits (.size 0) c.inp.stream)
    (hbuf : c.inp.rbuf.length ≤ maxResponseBytes) :
    (readBody framing c).1.map (·, (readBody framing c).2.inp.stream) =
      bodyAt framing c.inp.ending c.inp.stream := by
  cases framing with
  | none => rfl
  | length n => exact readExactBody_eq n c
  | chunked => exact readChunked_eq (hfits rfl)
  | untilClose => exact fillToClose_eq hbuf

/-- **Reading a response comes to what the stream holds.**  That goes for the failures, too, and
    what is left, buffered or not yet read, is what follows the response. -/
theorem readResponse_eq (hlaw : Httparse.Lawful) {c : Conn} (hfits : Fits .head c.inp.stream)
    (hbuf : c.inp.rbuf.length ≤ maxResponseBytes) :
    (readResponse c).1.map (·, (readResponse c).2.inp.stream) =
      responseAt c.inp.ending c.inp.stream := by
  -- the induction is on what the stream has left
  induction hn : c.inp.stream.length using Nat.strongRecOn generalizing c with
  | ind n ih =>
    have hhead := readHead_eq hlaw hfits.here
    rcases hr : readHead c with ⟨res, c'⟩
    rw [hr] at hhead
    have hleaves := readHead_leaves hr
    rw [responseAt_turn, ← hhead, readResponse_turn, hr]
    cases res with
    | error e => rfl
    | ok head =>
      obtain ⟨n, resp, hresp, hof, rfl⟩ := headAt_ok hhead.symm
      have hless := length_readHead hr
      have hstream : (c'.inp.drain head.len).stream = c.inp.stream.drop head.len := by
        rw [Incoming.stream_drain hless.1]
        exact congrArg _ hleaves.1
      have hends : c'.inp.ending = c.inp.ending := hleaves.2.1
      have hbuf' : (c'.inp.drain head.len).rbuf.length ≤ maxResponseBytes :=
        (drain_leaves hleaves.2 head.len).small hbuf
      dsimp only
      -- an interim head takes bytes, and the next one is read behind it
      by_cases hinterim : isInterim head.status
      · have hnext : Fits .head (c'.inp.drain head.len).stream := by
          rw [hstream]
          exact hfits.next (.interim hresp hof hinterim)
        simp only [if_pos hinterim]
        rw [← hends, ← hstream]
        exact ih _ (hn ▸ hless.2) hnext hbuf' rfl
      · have hbody : head.framing = .chunked → Fits (.size 0) (c'.inp.drain head.len).stream := by
          intro hchunked
          rw [hstream]
          exact hfits.next (.chunked hresp hof hchunked)
        have hread := readBody_eq (c := { c' with inp := c'.inp.drain head.len }) hbody hbuf'
        simp only [if_neg hinterim]
        rw [← hends, ← hstream]
        rw [show (c'.inp.drain head.len).ending = c'.inp.ending from rfl] at hread
        rw [← hread]
        rcases readBody head.framing { c' with inp := c'.inp.drain head.len } with ⟨_ | _, _⟩ <;> rfl

/-- A step leaves no more than there was. -/
theorem Next.length_le (h : Next (place, S) (place', S')) : S'.length ≤ S.length := by
  cases h <;> rw [List.length_drop] <;> exact Nat.sub_le _ _

/-- In a short stream everything fits. -/
theorem Fits.of_length (h : S.length ≤ maxHeadBytes) : Fits place S := by
  intro q hq
  have hlen : q.2.length ≤ maxHeadBytes := by
    induction hq with
    | refl => exact h
    | tail _ hnext ih => exact hnext.length_le.trans ih
  have hline : LineFits q.2 := fun i hi => by
    have := crlfAt_le hi
    omega
  have hhead : HeadFits q.2 :=
    ⟨fun n resp hresp => (Httparse.complete_le hresp).trans hlen,
      fun why hwrong => ⟨q.2.length, hlen, by rwa [List.take_length]⟩⟩
  obtain ⟨place, S⟩ := q
  cases place with
  | head => exact hhead
  | size got => exact hline
  | chunkEnd got => exact hline
  | trailer => exact hline

end Fits

section Connections

variable [Httparse]

/-- **Responses do not depend on packet boundaries.**  On two connections with the same bytes to
    come, whose heads, chunk lines and trailer lines fit, reading a response comes to the same
    response or the same failure; and when a response is read that does not end with the
    connection, what it leaves, buffered or unread, is what follows it. -/
theorem readResponse_unsplit (hlaw : Httparse.Lawful) {c₁ c₂ : Conn} (hkept₁ : Kept c₁)
    (hkept₂ : Kept c₂) (hstream : c₁.inp.stream = c₂.inp.stream)
    (hending : c₁.inp.ending = c₂.inp.ending) (hfits : Fits .head c₁.inp.stream) :
    (readResponse c₁).1 = (readResponse c₂).1 ∧
    ∀ r, (readResponse c₁).1 = .ok r → framingAt c₁.inp.stream ≠ some .untilClose →
      (readResponse c₁).2.inp.stream = (readResponse c₂).2.inp.stream ∧
        Front responseAt c₁.inp.stream r (readResponse c₁).2.inp.stream := by
  have h₁ := readResponse_eq hlaw hfits (hkept₁.buffer.trans maxBuffered_le)
  have h₂ := readResponse_eq hlaw (hstream ▸ hfits) (hkept₂.buffer.trans maxBuffered_le)
  rw [← hstream, ← hending, ← h₁] at h₂
  rcases hr₁ : readResponse c₁ with ⟨res₁, c₁'⟩
  rcases hr₂ : readResponse c₂ with ⟨res₂, c₂'⟩
  rw [hr₁, hr₂] at h₂
  rw [hr₁] at h₁
  cases res₁ with
  | error e =>
    cases res₂ with
    | error e' =>
      cases h₂
      exact ⟨rfl, fun r h => by cases h⟩
    | ok r => cases h₂
  | ok r =>
    cases res₂ with
    | error e' => cases h₂
    | ok r' =>
      have hpair := Except.ok.inj h₂
      rw [Prod.mk.injEq] at hpair
      refine ⟨by rw [hpair.1], fun r'' h hframing => ⟨hpair.2.symm, ?_⟩⟩
      cases h
      exact responseAt_front hlaw h₁.symm hframing

end Connections

/-- One response in one piece, and cut within the line end of its chunk. -/
theorem readResponse_unsplit_chunk :
    let H := utf8 "HTTP/1.1 200 OK\r\nTransfer-Encoding: chunked\r\n\r\n".toList
    let parser := Httparse.single H (by decide)
      ⟨some 200, some "OK".toList, some 1, [("Transfer-Encoding".toList, utf8 "chunked".toList)]⟩
    let whole : Piece fillBytes := ⟨H ++ utf8 "2\r\nhi\r\n0\r\n\r\n".toList, by decide, by
      rw [fillBytes]; decide⟩
    let front : Piece fillBytes := ⟨H ++ utf8 "2\r\nhi\r".toList, by decide, by
      rw [fillBytes]; decide⟩
    let back : Piece fillBytes := ⟨utf8 "\n0\r\n\r\n".toList, by decide, by
      rw [fillBytes]; decide⟩
    (@readResponse parser ⟨⟨[], [whole], none⟩, false⟩).1 =
      (@readResponse parser ⟨⟨[], [front, back], none⟩, false⟩).1 := by
  intro H parser whole front back
  have hlen : (Incoming.stream (⟨[], [whole], none⟩ : Incoming HttpErr fillBytes)).length ≤
      maxHeadBytes := by
    rw [maxHeadBytes]
    decide
  exact (@readResponse_unsplit parser Httparse.single_lawful _ _
    (@Kept.opened parser [whole] none) (@Kept.opened parser [front, back] none) (by decide) rfl
    (@Fits.of_length parser _ _ hlen)).1

end Omdrop.Send.Http
