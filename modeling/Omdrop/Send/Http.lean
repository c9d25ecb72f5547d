import Omdrop.Stream.Filling
import Omdrop.Stream.Read
import Omdrop.Text.Space
import Omdrop.Text.Utf8

namespace Omdrop.Send.Http

open Omdrop.Stream Omdrop.Text

/-!
# Reading a peer's answer

`post` puts a request on a connection and reads one response to it: interim answers are skipped,
then the head says how the body is framed.  Bytes that were read and not used stay in the buffer
of the connection for the next response.
-/

/-- The most that is taken for a response. -/
@[irreducible] def maxResponseBytes : Nat := 4 * 2 ^ 20

/-- The most that is buffered in search of the end of a head or a line. -/
@[irreducible] def maxHeadBytes : Nat := 64 * 2 ^ 10

/-- The most that one read brings. -/
@[irreducible] def fillBytes : Nat := 16 * 2 ^ 10

/-- An error with the Python exception class it corresponds to. -/
structure PyErr where
  cls : Text
  message : Text
  deriving DecidableEq, Repr

/-- A failed exchange: the system's own failure, or one with a class. -/
abbrev HttpErr := IoError PyErr

/-- A failure with a class. -/
def pyErr (cls message : Text) : HttpErr := .custom ⟨cls, message⟩

/-- A response head as it is parsed. -/
structure ParsedHead where
  code : Option Nat
  reason : Option Text
  version : Option Nat
  headers : List (Text × List UInt8)

/-- What a parse of the buffer comes to: a head of so many bytes, no whole head yet, or none. -/
inductive Parsed
  | complete (n : Nat) (resp : ParsedHead)
  | incomplete
  | error (why : Text)

/-- A parser of response heads. -/
class Httparse where
  response : List UInt8 → Parsed
  complete_pos : ∀ {P n resp}, response P = .complete n resp → 0 < n
  complete_le : ∀ {P n resp}, response P = .complete n resp → n ≤ P.length

/-- How a body is framed. -/
inductive Framing
  | none
  | length (n : Nat)
  | chunked
  | untilClose
  deriving DecidableEq, Repr

/-- What is kept of a head. -/
structure Head where
  status : Nat
  reason : Text
  len : Nat
  framing : Framing
  close : Bool

/-- One response, read in full. -/
structure Response where
  status : Nat
  reason : Text
  body : List UInt8
  deriving DecidableEq, Repr

/-- A connection: `closed` when the peer said so, or the bytes ended. -/
structure Conn where
  inp : Incoming HttpErr fillBytes
  closed : Bool

/-- Is this a failure that counts as the end? -/
def isEof (e : HttpErr) : Bool := e.kind == .unexpectedEof

/-- A malformed head. -/
def badStatus (why : Text) : HttpErr := pyErr "BadStatusLine" why

/-- An unsigned 64-bit number in a radix, perhaps after a plus sign. -/
def parseUnsigned (radix : Nat) (t : Text) : Option Nat :=
  let digits := if t.head? = some '+' then t.tail else t
  if digits = [] then none else (value radix (digits.map Char.toNat)).filter (· < 2 ^ 64)

/-- Interim answers. -/
def isInterim (status : Nat) : Bool := 100 ≤ status && status < 200

/-! ### The head -/

/-- What the headers have said so far. -/
structure Said where
  length : Option Nat
  chunked : Bool
  close : Bool

/-- What one token of a `Connection` header says. -/
def Said.token (http10 : Bool) (said : Said) (token : Text) : Said :=
  if eqIgnoreAsciiCase (trim token) "close" then { said with close := true }
  else if eqIgnoreAsciiCase (trim token) "keep-alive" && http10 then { said with close := false }
  else said

/-- What one header says. -/
def Said.header (http10 : Bool) (said : Said) (name : Text) (raw : List UInt8) :
    Except HttpErr Said :=
  let value := fromUtf8Lossy raw
  if eqIgnoreAsciiCase name "content-length" then
    match parseUnsigned 10 (trim value) with
    | some n => .ok { said with length := some n }
    | none   => .error (badStatus "invalid Content-Length")
  else if eqIgnoreAsciiCase name "transfer-encoding" then
    .ok { said with
      chunked := (value.splitOn ',').getLast?.any fun t => eqIgnoreAsciiCase (trim t) "chunked" }
  else if eqIgnoreAsciiCase name "connection" then
    .ok ((value.splitOn ',').foldl (Said.token http10) said)
  else .ok said

/-- What some headers say, one after the other. -/
def Said.headers (http10 : Bool) (said : Said) : List (Text × List UInt8) → Except HttpErr Said
  | []                   => .ok said
  | (name, raw) :: more =>
    match said.header http10 name raw with
    | .error e => .error e
    | .ok said => Said.headers http10 said more

/-- The framing of a body. -/
def framingOf (status : Nat) (said : Said) : Except HttpErr Framing :=
  if status = 204 ∨ status = 304 ∨ isInterim status then .ok .none
  else if said.chunked then .ok .chunked
  else match said.length with
    | some n =>
      if maxResponseBytes < n then
        .error (pyErr "HTTPException"
          ("response of ".toList ++ decimal n ++ " bytes is too large".toList))
      else .ok (.length n)
    | none => .ok .untilClose

/-- What is kept of a head of `n` bytes. -/
def headOf (n : Nat) (resp : ParsedHead) : Except HttpErr Head :=
  let status := resp.code.getD 0
  let http10 := resp.version == some 0
  match Said.headers http10 ⟨none, false, http10⟩ resp.headers with
  | .error e => .error e
  | .ok said =>
    match framingOf status said with
    | .error e   => .error e
    | .ok framing => .ok ⟨status, resp.reason.getD [], n, framing, said.close⟩

section Reading

variable [Httparse]

/-- A head, or what is wrong with it, when the buffer shows either. -/
def headIn (rbuf : List UInt8) : Option (Except Text (Nat × ParsedHead)) :=
  match Httparse.response rbuf with
  | .complete n resp => some (.ok (n, resp))
  | .incomplete      => none
  | .error why       => some (.error why)

/-- Read a head; it stays in the buffer. -/
def readHead (c : Conn) : Except HttpErr Head × Conn :=
  match c.inp.fillUntil isEof (some maxHeadBytes) headIn with
  | (.ok (.ok (n, resp)), inp)  => (headOf n resp, { c with inp })
  | (.ok (.error why), inp)     => (.error (badStatus why), { c with inp })
  | (.error .tooLong, inp)      =>
    (.error (pyErr "LineTooLong" "response head too long"), { c with inp })
  | (.error .ended, inp)        =>
    (.error (if inp.rbuf = [] then
        pyErr "RemoteDisconnected" "Remote end closed connection without response"
      else pyErr "IncompleteRead" "connection closed inside the response head"),
      { inp, closed := true })
  | (.error (.failed e), inp)   => (.error e, { c with inp })

end Reading

/-! ### The body -/

/-- Are there `n` bytes? -/
def bytesIn (n : Nat) (rbuf : List UInt8) : Option Unit := if n ≤ rbuf.length then some () else none

/-- Read exactly `n` bytes. -/
def readExactBody (n : Nat) (c : Conn) : Except HttpErr (List UInt8) × Conn :=
  match c.inp.fillUntil isEof none (bytesIn n) with
  | (.ok (), inp)             => (.ok (inp.rbuf.take n), { c with inp := inp.drain n })
  | (.error (.failed e), inp) => (.error e, { c with inp })
  | (.error _, inp)           =>
    (.error (pyErr "IncompleteRead" (decimal inp.rbuf.length ++ " bytes read, ".toList ++
      decimal (n - inp.rbuf.length) ++ " more expected".toList)), { inp, closed := true })

/-- Where the first line end is. -/
def crlfAt : List UInt8 → Option Nat
  | 13 :: 10 :: _ => some 0
  | _ :: bs       => (crlfAt bs).map (· + 1)
  | []            => none

/-- Read a line. -/
def readLine (c : Conn) : Except HttpErr Text × Conn :=
  match c.inp.fillUntil isEof (some maxHeadBytes) crlfAt with
  | (.ok i, inp)              =>
    (.ok (fromUtf8Lossy (inp.rbuf.take i)), { c with inp := inp.drain (i + 2) })
  | (.error .tooLong, inp)    => (.error (pyErr "LineTooLong" "chunk line too long"), { c with inp })
  | (.error .ended, inp)      =>
    (.error (pyErr "IncompleteRead" "connection closed inside a chunked body"),
      { inp, closed := true })
  | (.error (.failed e), inp) => (.error e, { c with inp })

/-- A line end stands within the bytes it is found in. -/
theorem crlfAt_le {P : List UInt8} {i : Nat} (h : crlfAt P = some i) : i + 2 ≤ P.length := by
  fun_induction crlfAt P generalizing i with
  | case1 bs =>
    cases h
    simp
  | case2 b bs _ ih =>
    obtain ⟨j, hj, rfl⟩ := Option.map_eq_some_iff.mp h
    have := ih hj
    rw [List.length_cons]
    omega
  | case3 => cases h

/-- A line uses up bytes. -/
theorem length_readLine {c c' : Conn} {line : Text} (h : readLine c = (.ok line, c')) :
    c'.inp.stream.length < c.inp.stream.length := by
  unfold readLine at h
  split at h <;> cases h
  rename_i i inp hf
  have hle := crlfAt_le (Incoming.fillUntil_ok hf)
  have hstream : inp.stream = c.inp.stream := Incoming.stream_fillUntil hf
  have hlen : inp.rbuf.length ≤ inp.stream.length := Incoming.length_rbuf_le inp
  show (inp.drain (i + 2)).stream.length < _
  rw [Incoming.stream_drain hle, hstream, List.length_drop]
  rw [hstream] at hlen
  omega

/-- The most that a buffer holds in search of a head or a line. -/
def maxBuffered : Nat := maxHeadBytes + fillBytes

/-- What filling in search of a head or a line leaves of the connection. -/
theorem fillUntil_head {α : Type} {find : List UInt8 → Option α} {c : Incoming HttpErr fillBytes} :
    (c.fillUntil isEof (some maxHeadBytes) find).2.ending = c.ending ∧
      (c.fillUntil isEof (some maxHeadBytes) find).2.rbuf.length ≤
        max c.rbuf.length maxBuffered := by
  refine ⟨(Incoming.fillUntil_keeps c).2, Incoming.length_fillUntil_le (fun P _ hl => ?_) c⟩
  simpa using hl

/-- The bytes end as they did, and no more than `most` are buffered that were not. -/
def Leaves (most : Nat) (c c' : Conn) : Prop :=
  c'.inp.ending = c.inp.ending ∧ c'.inp.rbuf.length ≤ max c.inp.rbuf.length most

/-- What two steps leave, one after the other leave. -/
theorem Leaves.trans {most : Nat} {c c' c'' : Conn} (h : Leaves most c c')
    (h' : Leaves most c' c'') : Leaves most c c'' := by
  refine ⟨h'.1.trans h.1, ?_⟩
  have h₁ := h.2
  have h₂ := h'.2
  omega

/-- Who leaves little leaves no more than much. -/
theorem Leaves.mono {few most : Nat} {c c' : Conn} (h : Leaves few c c') (hle : few ≤ most) :
    Leaves most c c' := by
  refine ⟨h.1, ?_⟩
  have h₁ := h.2
  omega

/-- What reading a line leaves of the connection. -/
theorem readLine_leaves {c c' : Conn} {res : Except HttpErr Text} (h : readLine c = (res, c')) :
    Leaves maxBuffered c c' := by
  have hfill := @fillUntil_head _ crlfAt c.inp
  unfold readLine at h
  split at h <;> rename_i hf <;> rw [hf] at hfill <;> cases h
  · rename_i i inp
    refine ⟨hfill.1, le_trans ?_ hfill.2⟩
    show (List.drop _ _).length ≤ _
    rw [List.length_drop]
    exact Nat.sub_le _ _
  · exact hfill
  · exact hfill
  · exact hfill

/-- Skip trailers, up to the empty line. -/
def readTrailers (c : Conn) : Except HttpErr Unit × Conn :=
  match _h : readLine c with
  | (.error e, c')  => (.error e, c')
  | (.ok line, c') => if line = [] then (.ok (), c') else readTrailers c'
termination_by c.inp.stream.length
decreasing_by exact length_readLine _h

/-- The size on a chunk's line. -/
def chunkSize (line : Text) : Except HttpErr Nat :=
  match parseUnsigned 16 (trim ((line.splitOn ';').head?.getD [])) with
  | some size => .ok size
  | none      => .error (pyErr "IncompleteRead" "invalid chunk size")

/-- Counted bytes are there when they are all there. -/
theorem le_of_bytesIn {n : Nat} {P : List UInt8} {u : Unit} (h : bytesIn n P = some u) :
    n ≤ P.length := by
  unfold bytesIn at h
  split at h
  · assumption
  · cases h

/-- Counted bytes are missing when there are fewer. -/
theorem bytesIn_none {n : Nat} {P : List UInt8} (h : bytesIn n P = none) : ¬ n ≤ P.length := by
  intro hle
  unfold bytesIn at h
  rw [if_pos hle] at h
  cases h

/-- Reading a part of a body leaves no more bytes. -/
theorem length_readExactBody {n : Nat} {c c' : Conn} {res : Except HttpErr (List UInt8)}
    (h : readExactBody n c = (res, c')) : c'.inp.stream.length ≤ c.inp.stream.length := by
  unfold readExactBody at h
  split at h <;> cases h <;> rename_i inp hf <;> rw [← Incoming.stream_fillUntil hf]
  show (inp.drain n).stream.length ≤ _
  rw [Incoming.stream_drain (le_of_bytesIn (Incoming.fillUntil_ok hf)), List.length_drop]
  exact Nat.sub_le _ _

/-- What reading a part of a body leaves of the connection: no more than came last when it is
    read, all that came of it when it is not. -/
theorem readExactBody_leaves {n : Nat} {c c' : Conn} {res : Except HttpErr (List UInt8)}
    (h : readExactBody n c = (res, c')) :
    Leaves (match res with
      | .ok _    => fillBytes
      | .error _ => n + fillBytes) c c' := by
  have hkeeps := @Incoming.fillUntil_keeps _ _ _ isEof none (bytesIn n) c.inp
  have hlen := @Incoming.length_fillUntil_le _ _ _ isEof none (bytesIn n) n
    (fun P hn _ => (Nat.lt_of_not_le (bytesIn_none hn)).le) c.inp
  unfold readExactBody at h
  split at h <;> rename_i hf <;> rw [hf] at hkeeps hlen <;> cases h
  · rename_i inp
    have hlen : inp.rbuf.length ≤ max c.inp.rbuf.length (n + fillBytes) := hlen
    refine ⟨hkeeps.2, ?_⟩
    show (List.drop _ _).length ≤ max _ fillBytes
    rw [List.length_drop]
    omega
  · exact ⟨hkeeps.2, hlen⟩
  · exact ⟨hkeeps.2, hlen⟩

/-- Read chunks, behind those whose data is `body`, up to the line of the last one. -/
def readChunks (body : List UInt8) (c : Conn) : Except HttpErr (List UInt8) × Conn :=
  match _hline : readLine c with
  | (.error e, c')   => (.error e, c')
  | (.ok line, c') =>
    match chunkSize line with
    | .error e => (.error e, c')
    | .ok size =>
      if size = 0 then (.ok body, c')
      else if maxResponseBytes < min (body.length + size) (2 ^ 64 - 1) then
        (.error (pyErr "HTTPException" "chunked response is too large"), c')
      else
        match _hdata : readExactBody size c' with
        | (.error e, c'')   => (.error e, c'')
        | (.ok chunk, c'') =>
          match _hend : readLine c'' with
          | (.error e, c''')   => (.error e, c''')
          | (.ok line, c''') =>
            if line = [] then readChunks (body ++ chunk) c'''
            else (.error (pyErr "IncompleteRead" "chunk not followed by CRLF"), c''')
termination_by c.inp.stream.length
decreasing_by
  have h₁ := length_readLine _hline
  have h₂ := length_readExactBody _hdata
  have h₃ := length_readLine _hend
  omega

/-- The limit of a body is no overflow. -/
theorem maxResponseBytes_lt : maxResponseBytes < 2 ^ 64 - 1 := by
  unfold maxResponseBytes
  omega

/-- A head or a line fits into the limit of a body. -/
theorem maxBuffered_le : maxBuffered ≤ maxResponseBytes := by
  unfold maxBuffered maxHeadBytes fillBytes maxResponseBytes
  omega

/-- The most that is left buffered: as much as is looked at for a head or a line, and what came of
    a body that was not read. -/
def mostLeft {α : Type} : Except HttpErr α → Nat
  | .ok _    => maxBuffered
  | .error _ => maxResponseBytes + fillBytes

/-- What a line leaves is no more than any step may leave. -/
theorem maxBuffered_le_mostLeft {α : Type} (res : Except HttpErr α) :
    maxBuffered ≤ mostLeft res := by
  cases res with
  | ok a => exact Nat.le_refl _
  | error e => exact maxBuffered_le.trans (Nat.le_add_right _ _)

/-- Reading a line leaves what any step may leave. -/
theorem readLine_leaves_most {α : Type} {c c' : Conn} {line : Except HttpErr Text}
    (h : readLine c = (line, c')) (res : Except HttpErr α) : Leaves (mostLeft res) c c' :=
  (readLine_leaves h).mono (maxBuffered_le_mostLeft res)

/-- Reading counted bytes leaves what any step may leave. -/
theorem readExactBody_leaves_most {n : Nat} {c c' : Conn} {res : Except HttpErr (List UInt8)}
    (h : readExactBody n c = (res, c')) (hn : n ≤ maxResponseBytes) :
    Leaves (mostLeft res) c c' := by
  refine (readExactBody_leaves h).mono ?_
  cases res with
  | ok bs => exact Nat.le_add_left _ _
  | error e => exact Nat.add_le_add_right hn _

/-- What reading chunks leaves of the connection. -/
theorem readChunks_leaves {body : List UInt8} {c c' : Conn} {res : Except HttpErr (List UInt8)}
    (h : readChunks body c = (res, c')) : Leaves (mostLeft res) c c' := by
  have hmax := maxResponseBytes_lt
  fun_induction readChunks body c with
  | case1 body c e c₁ hline =>
    cases h
    exact readLine_leaves_most hline _
  | case2 body c line c₁ hline e hsize =>
    cases h
    exact readLine_leaves_most hline _
  | case3 body c line c₁ hline hsize =>
    cases h
    exact readLine_leaves_most hline _
  | case4 body c line c₁ hline size hsize hzero hlarge =>
    cases h
    exact readLine_leaves_most hline _
  | case5 body c line c₁ hline size hsize hzero hsmall e c₂ hdata =>
    cases h
    exact (readLine_leaves_most hline _).trans (readExactBody_leaves_most hdata (by omega))
  | case6 body c line c₁ hline size hsize hzero hsmall chunk c₂ hdata e c₃ hend =>
    cases h
    have hchunk := readExactBody_leaves_most hdata (by omega)
    exact ((readLine_leaves_most hline _).trans (hchunk.mono (maxBuffered_le_mostLeft _))).trans
      (readLine_leaves_most hend _)
  | case7 body c line c₁ hline size hsize hzero hsmall chunk c₂ hdata c₃ hend ih =>
    have hchunk := readExactBody_leaves_most hdata (by omega)
    exact ((readLine_leaves_most hline _).trans (hchunk.mono (maxBuffered_le_mostLeft _))).trans
      ((readLine_leaves_most hend _).trans (ih h))
  | case8 body c line c₁ hline size hsize hzero hsmall chunk c₂ hdata line' c₃ hend hne =>
    cases h
    have hchunk := readExactBody_leaves_most hdata (by omega)
    exact ((readLine_leaves_most hline _).trans (hchunk.mono (maxBuffered_le_mostLeft _))).trans
      (readLine_leaves_most hend _)

/-- What reading trailers leaves of the connection. -/
theorem readTrailers_leaves {c c' : Conn} {res : Except HttpErr Unit}
    (h : readTrailers c = (res, c')) : Leaves maxBuffered c c' := by
  fun_induction readTrailers c with
  | case1 c e c₁ hline =>
    cases h
    exact readLine_leaves hline
  | case2 c c₁ hline =>
    cases h
    exact readLine_leaves hline
  | case3 c line c₁ hline hne ih => exact (readLine_leaves hline).trans (ih h)

/-- Read a chunked body with its trailers. -/
def readChunked (c : Conn) : Except HttpErr (List UInt8) × Conn :=
  match readChunks [] c with
  | (.error e, c')   => (.error e, c')
  | (.ok body, c') =>
    match readTrailers c' with
    | (.error e, c'') => (.error e, c'')
    | (.ok (), c'')   => (.ok body, c'')

/-- Read on while something comes, and take all that is there. -/
def fillToClose (inp : Incoming HttpErr fillBytes) :
    Except HttpErr (List UInt8) × Incoming HttpErr fillBytes :=
  match _h : inp.fillOrEof isEof with
  | (.error e, inp')    => (.error e, inp')
  | (.ok 0, inp')       => (.ok inp'.rbuf, { inp' with rbuf := [] })
  | (.ok (_ + 1), inp') =>
    if maxResponseBytes < inp'.rbuf.length then
      (.error (pyErr "HTTPException" "response is too large"), inp')
    else fillToClose inp'
termination_by inp.reads.length
decreasing_by exact Incoming.reads_fillOrEof _h

/-- Read a body that ends with the connection. -/
def readToClose (c : Conn) : Except HttpErr (List UInt8) × Conn :=
  let (res, inp) := fillToClose c.inp
  (res, { c with inp })

/-- Read a body. -/
def readBody (framing : Framing) (c : Conn) : Except HttpErr (List UInt8) × Conn :=
  match framing with
  | .none       => (.ok [], c)
  | .length n   => readExactBody n c
  | .chunked    => readChunked c
  | .untilClose => readToClose { c with closed := true }

/-- What reading a chunked body leaves of the connection. -/
private theorem readChunked_leaves {c c' : Conn} {res : Except HttpErr (List UInt8)}
    (h : readChunked c = (res, c')) : Leaves (mostLeft res) c c' := by
  unfold readChunked at h
  split at h
  · rename_i hchunks
    cases h
    exact readChunks_leaves hchunks
  · rename_i hchunks
    have hbody := (readChunks_leaves hchunks).mono (maxBuffered_le_mostLeft res)
    split at h <;> rename_i htrailers <;> cases h
    · exact hbody.trans ((readTrailers_leaves htrailers).mono (maxBuffered_le_mostLeft _))
    · exact hbody.trans ((readTrailers_leaves htrailers).mono (maxBuffered_le_mostLeft _))

section ToClose

variable {inp : Incoming HttpErr fillBytes}

/-- At the end of the stream all that was buffered is the body. -/
theorem fillToClose_nil (hr : inp.reads = []) :
    fillToClose inp = match inp.failure isEof with
      | none   => (.ok inp.rbuf, { inp with rbuf := [] })
      | some e => (.error e, inp) := by
  have hf := @Incoming.fillOrEof_nil _ _ isEof _ hr
  unfold fillToClose
  cases hs : inp.failure isEof <;> rw [hs] at hf <;> split <;> rename_i h' <;> rw [hf] at h' <;>
    cases h'
  · rfl
  · rfl

/-- Another piece goes into the buffer, up to the limit. -/
theorem fillToClose_cons {p : Piece fillBytes} {reads : List (Piece fillBytes)}
    (hr : inp.reads = p :: reads) :
    fillToClose inp =
      if maxResponseBytes < (inp.rbuf ++ p.1).length then
        (.error (pyErr "HTTPException" "response is too large"),
          { inp with rbuf := inp.rbuf ++ p.1, reads })
      else fillToClose { inp with rbuf := inp.rbuf ++ p.1, reads } := by
  have hf := @Incoming.fillOrEof_cons _ _ isEof _ _ _ hr
  have hpos : 0 < p.1.length := List.length_pos_iff.mpr p.2.1
  rw [fillToClose]
  split <;> rename_i h' <;> rw [hf, Prod.mk.injEq] at h'
  · cases h'.1
  · have hlen := h'.1
    rw [Except.ok.injEq] at hlen
    omega
  · rw [← h'.2]

/-- What reading to the end leaves of the connection. -/
private theorem fillToClose_leaves {res : Except HttpErr (List UInt8)}
    {inp' : Incoming HttpErr fillBytes}
    (h : fillToClose inp = (res, inp')) (hbuf : inp.rbuf.length ≤ maxResponseBytes) :
    inp'.ending = inp.ending ∧ inp'.rbuf.length ≤ mostLeft res := by
  obtain ⟨rbuf, reads, ending⟩ := inp
  induction reads generalizing rbuf with
  | nil =>
    rw [fillToClose_nil rfl] at h
    split at h <;> cases h
    · exact ⟨rfl, Nat.zero_le _⟩
    · exact ⟨rfl, hbuf.trans (Nat.le_add_right _ _)⟩
  | cons p reads ih =>
    have hlen : (rbuf ++ p.1).length ≤ maxResponseBytes + fillBytes := by
      have hpiece := p.2.2
      have hbuf : rbuf.length ≤ maxResponseBytes := hbuf
      rw [List.length_append]
      omega
    rw [fillToClose_cons rfl] at h
    by_cases hlarge : maxResponseBytes < (rbuf ++ p.1).length
    · rw [if_pos hlarge] at h
      cases h
      exact ⟨rfl, hlen⟩
    · rw [if_neg hlarge] at h
      exact ih (rbuf ++ p.1) h (Nat.le_of_not_lt hlarge)

end ToClose

/-- A body up to the close is all that comes, and the connection is closed. -/
theorem readBody_untilClose {c : Conn} {inp : Incoming HttpErr fillBytes}
    {res : Except HttpErr (List UInt8)} (h : fillToClose c.inp = (res, inp)) :
    readBody .untilClose c = (res, { inp, closed := true }) := by
  show (Prod.fst _, (⟨Prod.snd _, true⟩ : Conn)) = _
  rw [h]

/-- What reading a body leaves of the connection. -/
theorem readBody_leaves {framing : Framing} {c c' : Conn} {res : Except HttpErr (List UInt8)}
    (h : readBody framing c = (res, c')) (hlength : ∀ n, framing = .length n → n ≤ maxResponseBytes)
    (hbuf : c.inp.rbuf.length ≤ maxResponseBytes) : Leaves (mostLeft res) c c' := by
  cases framing with
  | none =>
    cases h
    exact ⟨rfl, Nat.le_max_left _ _⟩
  | length n => exact readExactBody_leaves_most h (hlength n rfl)
  | chunked => exact readChunked_leaves h
  | untilClose =>
    rcases hclose : fillToClose c.inp with ⟨res', inp⟩
    rw [readBody_untilClose hclose] at h
    cases h
    obtain ⟨hends, hlen⟩ := fillToClose_leaves hclose hbuf
    exact ⟨hends, hlen.trans (Nat.le_max_right _ _)⟩

section Reading

variable [Httparse]

/-- A head that is found is one that the parser completes. -/
theorem headIn_ok {P : List UInt8} {n : Nat} {resp : ParsedHead}
    (h : headIn P = some (.ok (n, resp))) : Httparse.response P = .complete n resp := by
  unfold headIn at h
  split at h <;> cases h
  assumption

omit [Httparse] in
/-- A head takes as many bytes as the parser says. -/
theorem headOf_len {n : Nat} {resp : ParsedHead} {head : Head} (h : headOf n resp = .ok head) :
    head.len = n := by
  unfold headOf at h
  dsimp only at h
  split at h
  · cases h
  · split at h <;> cases h
    rfl

omit [Httparse] in
/-- A length that is too large is not framed by. -/
private theorem framingOf_length {status n : Nat} {said : Said}
    (h : framingOf status said = .ok (.length n)) : n ≤ maxResponseBytes := by
  unfold framingOf at h
  split_ifs at h
  · cases h
  · cases h
  · split at h
    · split_ifs at h with hlarge
      cases h
      exact Nat.le_of_not_lt hlarge
    · cases h

omit [Httparse] in
/-- A head's framing comes from its status and what it says. -/
private theorem headOf_framing {n : Nat} {resp : ParsedHead} {head : Head}
    (h : headOf n resp = .ok head) :
    ∃ status said, framingOf status said = .ok head.framing := by
  unfold headOf at h
  dsimp only at h
  split at h
  · cases h
  · split at h
    · cases h
    · rename_i hframing
      cases h
      exact ⟨_, _, hframing⟩

/-- What reading a head leaves of the connection. -/
theorem readHead_leaves {c c' : Conn} {res : Except HttpErr Head} (h : readHead c = (res, c')) :
    c'.inp.stream = c.inp.stream ∧ Leaves maxBuffered c c' := by
  have hfill := @fillUntil_head _ headIn c.inp
  unfold readHead at h
  split at h <;> rename_i hf <;> rw [hf] at hfill <;> obtain ⟨-, rfl⟩ := Prod.mk.inj h <;>
    exact ⟨Incoming.stream_fillUntil hf, hfill⟩

/-- A head that was read is what the parser made of the buffer. -/
theorem readHead_ok {c c' : Conn} {head : Head} (h : readHead c = (.ok head, c')) :
    ∃ resp, Httparse.response c'.inp.rbuf = .complete head.len resp ∧
      headOf head.len resp = .ok head := by
  unfold readHead at h
  split at h
  · rename_i n resp inp hf
    obtain ⟨hhead, rfl⟩ := Prod.mk.inj h
    rw [headOf_len hhead]
    exact ⟨resp, headIn_ok (Incoming.fillUntil_ok hf), hhead⟩
  all_goals cases h

/-- The length that a head frames a body by is not too large. -/
theorem readHead_length {c c' : Conn} {head : Head} (h : readHead c = (.ok head, c')) :
    ∀ n, head.framing = .length n → n ≤ maxResponseBytes := by
  intro n hn
  obtain ⟨resp, -, hhead⟩ := readHead_ok h
  obtain ⟨status, said, hframing⟩ := headOf_framing hhead
  exact framingOf_length (hn ▸ hframing)

/-- A head is in the buffer when it was read, and using it up leaves fewer bytes. -/
theorem length_readHead {c c' : Conn} {head : Head} (h : readHead c = (.ok head, c')) :
    head.len ≤ c'.inp.rbuf.length ∧
      (c'.inp.drain head.len).stream.length < c.inp.stream.length := by
  obtain ⟨resp, hresp, -⟩ := readHead_ok h
  have hpos := Httparse.complete_pos hresp
  have hle := Httparse.complete_le hresp
  have hlen := Incoming.length_rbuf_le c'.inp
  refine ⟨hle, ?_⟩
  rw [Incoming.stream_drain hle, List.length_drop, ← (readHead_leaves h).1]
  omega

omit [Httparse] in
/-- What using up a head leaves of the connection. -/
theorem drain_leaves {c c' : Conn} {most : Nat} (h : Leaves most c c') (n : Nat) :
    Leaves most c { c' with inp := c'.inp.drain n } := by
  refine ⟨h.1, le_trans ?_ h.2⟩
  show (List.drop _ _).length ≤ _
  rw [List.length_drop]
  exact Nat.sub_le _ _

/-- Read one response; interim answers are skipped. -/
def readResponse (c : Conn) : Except HttpErr Response × Conn :=
  match _h : readHead c with
  | (.error e, c')   => (.error e, c')
  | (.ok head, c') =>
    let c₁ : Conn := { c' with inp := c'.inp.drain head.len }
    if isInterim head.status then readResponse c₁
    else
      match readBody head.framing c₁ with
      | (.error e, c₂) => (.error e, c₂)
      | (.ok body, c₂) =>
        (.ok ⟨head.status, head.reason, body⟩, { c₂ with closed := c₂.closed || head.close })
termination_by c.inp.stream.length
decreasing_by exact (length_readHead _h).2

omit [Httparse] in
/-- What is left of little is little. -/
theorem Leaves.small {c c' : Conn} (h : Leaves maxBuffered c c')
    (hbuf : c.inp.rbuf.length ≤ maxResponseBytes) : c'.inp.rbuf.length ≤ maxResponseBytes :=
  h.2.trans (max_le hbuf maxBuffered_le)

/-- What reading a response leaves of the connection. -/
theorem readResponse_leaves {c c' : Conn} {res : Except HttpErr Response}
    (h : readResponse c = (res, c')) (hbuf : c.inp.rbuf.length ≤ maxResponseBytes) :
    Leaves (mostLeft res) c c' := by
  fun_induction readResponse c with
  | case1 c e c₁ hhead =>
    cases h
    exact (readHead_leaves hhead).2.mono (maxBuffered_le_mostLeft _)
  | case2 c head c₁ hhead c₂ hinterim ih =>
    have hleaves := drain_leaves (readHead_leaves hhead).2 head.len
    exact (hleaves.mono (maxBuffered_le_mostLeft _)).trans (ih h (hleaves.small hbuf))
  | case3 c head c₁ hhead c₂ hinterim e c₃ hbody =>
    cases h
    have hleaves := drain_leaves (readHead_leaves hhead).2 head.len
    exact (hleaves.mono (maxBuffered_le_mostLeft _)).trans
      (readBody_leaves hbody (readHead_length hhead) (hleaves.small hbuf))
  | case4 c head c₁ hhead c₂ hinterim body c₃ hbody =>
    cases h
    have hleaves := drain_leaves (readHead_leaves hhead).2 head.len
    exact (hleaves.mono (maxBuffered_le_mostLeft _)).trans
      (readBody_leaves hbody (readHead_length hhead) (hleaves.small hbuf))

/-- A connection as it is between exchanges: new, or after a response was read. -/
inductive Kept : Conn → Prop
  | opened (reads ending) : Kept ⟨⟨[], reads, ending⟩, false⟩
  | answered {c c' r} : Kept c → readResponse c = (.ok r, c') → Kept c'

/-- A connection that is kept has little in its buffer. -/
theorem Kept.buffer {c : Conn} (h : Kept c) : c.inp.rbuf.length ≤ maxBuffered := by
  induction h with
  | opened reads ending => exact Nat.zero_le _
  | answered hkept hread ih =>
    exact (readResponse_leaves hread (ih.trans maxBuffered_le)).2.trans (max_le ih (Nat.le_refl _))

/-- Put a request on the connection, `sent` being what comes of that, and read the answer. -/
def post (sent : Except HttpErr Unit) (c : Conn) : Except HttpErr Response × Conn :=
  match sent with
  | .error e => (.error e, c)
  | .ok ()   => readResponse c

end Reading

end Omdrop.Send.Http
