import Omdrop.Proto.ChunkDecode
import Omdrop.Proto.FalseEnd
import Omdrop.Text.Space

namespace Omdrop.Proto

open Omdrop.Stream Omdrop.Text

/-!
# Request heads

A head is a request line and header lines, up to the first blank line.  `readRequest_iff` says which
heads the receiver reads, and that it takes no byte after one; `bodyPlan_frames` that the framing it
reads the body by is what the head says.
-/

/-- The longest request or header line. -/
def maxLineBytes : Nat := 65536

/-- The most header lines. -/
def maxHeaders : Nat := 100

/-! ### Headers -/

/-- Request headers, in order. -/
abbrev Headers := List (Text × Text)

namespace Headers

/-- The first value of `name`. -/
def get (name : Text) (headers : Headers) : Option Text :=
  (headers.find? fun field => eqIgnoreAsciiCase field.1 name).map Prod.snd

/-- How often `name` is there. -/
def count (name : Text) (headers : Headers) : Nat :=
  headers.countP fun field => eqIgnoreAsciiCase field.1 name

end Headers

/-- The headers that frame a body. -/
def framingHeaders : List Text := ["Transfer-Encoding".toList, "Content-Length".toList]

/-- How the body of a request is framed: chunked wins, and a repeated framing header is refused. -/
def bodyPlan (headers : Headers) (limit : Nat) : Except BodyError BodyPlan :=
  match framingHeaders.find? fun name => 1 < headers.count name with
  | some name => .error (.invalid ("repeated ".toList ++ name ++ " header".toList))
  | none =>
    let transfer := (headers.get "Transfer-Encoding".toList).getD []
    if transfer ≠ [] then
      let encodings := (transfer.splitOn ',').map fun p => (trim p).map Char.toLower
      if encodings ≠ ["chunked".toList] then
        .error (.invalid ("unsupported Transfer-Encoding: ".toList ++ pyRepr transfer))
      else .ok .chunked
    else
      match headers.get "Content-Length".toList with
      | none =>
        .error (.invalid "request body needs Content-Length or chunked encoding")
      | some value =>
        let digits := trim value
        if ¬ allDigits digits then
          .error (.invalid ("invalid Content-Length: ".toList ++ pyRepr value))
        else
          match (ofDecimal digits).filter (· < 2 ^ 64) with
          | none        => .error (tooLarge limit)
          | some length => if limit < length then .error (tooLarge limit) else .ok (.length length)

/-! ### Heads -/

/-- A parsed request head. -/
structure HttpRequest where
  method : Text
  path : Text
  minor : Nat
  requestLine : Text
  headers : Headers

/-- Is the connection to be kept after this request? -/
def HttpRequest.keepAlive (req : HttpRequest) : Bool :=
  match (req.headers.get "Connection".toList).map fun value => value.map Char.toLower with
  | some value =>
    if value = "close".toList then false
    else if value = "keep-alive".toList then true
    else 1 ≤ req.minor
  | none => 1 ≤ req.minor

/-- Why there is no request: the peer is done, the connection failed, or the head is malformed. -/
inductive HeadError
  | closed
  | io (e : IoErr)
  | bad (status : Nat) (message requestLine : Text)

/-- The parser of a whole head: its method, its target, its minor version and its headers. -/
structure RequestParser where
  parse : List UInt8 → Option (Text × Text × Nat × List (Text × List UInt8))

/-- Bytes as ISO-8859-1 text. -/
def latin1 (bs : List UInt8) : Text := bs.map fun b => Char.ofNat b.toNat

/-- A request line without its line ending. -/
def requestLineOf (first : List UInt8) : Text :=
  (latin1 (if first.getLast? = some newline then first.dropLast else first)).rdropWhile (· = '\r')

/-- A target, with the slashes it begins with made one. -/
def pathOf (target : Text) : Text :=
  if "//".toList <+: target then '/' :: target.dropWhile (· = '/') else target

/-- Does a head end with a blank line? -/
def EndsBlank (head : List UInt8) : Prop :=
  [newline, newline] <:+ head ∨ newline :: crlf <:+ head

instance (head : List UInt8) : Decidable (EndsBlank head) :=
  inferInstanceAs (Decidable (_ ∨ _))

/-- The request in the lines of a head. -/
def requestOf (P : RequestParser) (requestLine : Text) (head : List UInt8) :
    Except HeadError HttpRequest :=
  -- the connection closed inside the head
  if ¬ EndsBlank head then .error .closed
  else
    match P.parse head with
    | none =>
      .error (.bad 400 ("Bad request syntax (".toList ++ pyRepr requestLine ++ ")".toList)
        requestLine)
    | some (method, target, minor, headers) =>
      .ok ⟨method, pathOf target, minor, requestLine,
        headers.map fun field => (field.1, latin1 field.2)⟩

section Read

variable {R : Type} [BufRead Payload R]

/-- The header lines, after `lines` of them, as `head` followed by what comes. -/
def headLines (requestLine : Text) (head : List UInt8) (lines : Nat) (r : R) :
    Except HeadError (List UInt8) × R :=
  match readLine (maxLineBytes + 1) [] r with
  | (.error e, r) => (.error (.io e), r)
  | (.ok line, r) =>
    if maxLineBytes < line.length then (.error (.bad 431 "Line too long" requestLine), r)
    else if line = [] ∨ line = crlf ∨ line = [newline] then (.ok (head ++ line), r)
    else if maxHeaders < lines + 1 then (.error (.bad 431 "Too many headers" requestLine), r)
    else headLines requestLine (head ++ line) (lines + 1) r
termination_by maxHeaders - lines

/-- Read and parse one request head. -/
def readRequest (P : RequestParser) (r : R) : Except HeadError HttpRequest × R :=
  match readLine (maxLineBytes + 1) [] r with
  | (.error e, r)  => (.error (.io e), r)
  | (.ok first, r) =>
    if first = [] then (.error .closed, r)
    else
      let requestLine := requestLineOf first
      if maxLineBytes < first.length then
        (.error (.bad 414 "Request-URI Too Long" []), r)
      else if trim requestLine = [] then (.error .closed, r)
      else
        match headLines requestLine first 0 r with
        | (.error e, r) => (.error e, r)
        | (.ok head, r) => (requestOf P requestLine head, r)

/-- What an I/O error from a body read means, if it is the body's. -/
def BodyError.classify : IoErr → Option BodyError
  | .custom (.body e) => some e
  | e                 => if e.isTimeout then some (.timeout .idle) else none

/-- Read a whole small body; `room` is how much the reads to its end ask for. -/
def readSmallBody (room : Nat → ℕ+) (clock : Nat → Nat) (r : R) (headers : Headers)
    (limit : Nat) : Except BodyError (List UInt8) × R :=
  match bodyPlan headers limit with
  | .error e => (.error e, r)
  | .ok plan =>
    match drain false room 0 [] (BodyReader.new r plan limit (.new clock)) with
    | (.ok body, b) => (.ok body, b.r)
    | (.error e, b) =>
      match BodyError.classify e with
      | some e => (.error e, b.r)
      | none   => (.error (.invalid ("request body read failed: ".toList ++ displayIo e)), b.r)

/-! ### What is read is a head -/

/-- A line that is not blank, as far as it came. -/
def IsText (line : List UInt8) : Prop :=
  line ≠ [] ∧ line ≠ crlf ∧ line ≠ [newline] ∧ newline ∉ line.dropLast

/-- The rest of a head: at most `n` lines that are not blank, and then one that is. -/
inductive HeadLines : Nat → List UInt8 → Prop
  | blank {n : Nat} {line : List UInt8} (h : line = crlf ∨ line = [newline]) : HeadLines n line
  | line {n : Nat} {line rest : List UInt8} (h : IsLine line) (hlen : line.length ≤ maxLineBytes)
      (hblank : line ≠ crlf ∧ line ≠ [newline]) (hrest : HeadLines n rest) :
      HeadLines (n + 1) (line ++ rest)

/-- A request line with its line ending. -/
structure IsFirst (first : List UInt8) : Prop where
  line : IsLine first
  length_le : first.length ≤ maxLineBytes
  text : trim (requestLineOf first) ≠ []

/-- A whole head. -/
def IsHead (head : List UInt8) : Prop :=
  ∃ first rest, head = first ++ rest ∧ IsFirst first ∧ HeadLines maxHeaders rest

/-- A blank line is a line. -/
theorem isLine_of_blank {line : List UInt8} (h : line = crlf ∨ line = [newline]) : IsLine line := by
  rcases h with rfl | rfl
  · exact isLine_crlf
  · exact isLine_newline

/-- A head is not empty. -/
theorem HeadLines.ne_nil {n : Nat} {head : List UInt8} (h : HeadLines n head) : head ≠ [] := by
  cases h with
  | blank h => rcases h with rfl | rfl <;> simp [crlf]
  | line h _ _ _ => exact List.append_ne_nil_of_left_ne_nil h.ne_nil _

/-- A line holds no newline before its end. -/
theorem newline_notMem_dropLast (n : Nat) (bs : List UInt8) :
    newline ∉ (firstLine n bs).dropLast := by
  fun_induction firstLine n bs with
  | case1 => simp
  | case2 => simp
  | case3 => simp
  | case4 n b bs hb ih =>
    cases hline : firstLine n bs with
    | nil => simp
    | cons c cs =>
      rw [hline] at ih
      rw [List.dropLast_cons_cons, List.mem_cons, not_or]
      exact ⟨Ne.symm hb, ih⟩

/-- Suffixes that end in one byte each. -/
theorem suffix_concat_concat {t s : List UInt8} {x y : UInt8} (h : t ++ [x] <:+ s ++ [y]) :
    x = y ∧ t <:+ s := by
  rcases List.suffix_concat_iff.mp h with hnil | ⟨t', heq, hsuf⟩
  · simp at hnil
  · obtain ⟨rfl, hx⟩ := List.append_inj' heq rfl
    exact ⟨List.head_eq_of_cons_eq hx, hsuf⟩

/-- A line that is not blank does not make the end of a head. -/
theorem IsText.not_endsBlank {line : List UInt8} (h : IsText line) (front : List UInt8) :
    ¬ EndsBlank (front ++ line) := by
  obtain ⟨hnil, hcrlf, hnewline, hmem⟩ := h
  obtain ⟨body, last, rfl⟩ := (List.eq_nil_or_concat line).resolve_left hnil
  rw [List.concat_eq_append] at hcrlf hnewline hmem ⊢
  rw [List.dropLast_concat] at hmem
  have hinside : ∀ {t : List UInt8} {x : UInt8}, t ++ [x] <:+ front ++ (body ++ [last]) →
      x = last ∧ t <:+ front ++ body := by
    intro t x hend
    rw [← List.append_assoc] at hend
    exact suffix_concat_concat hend
  rintro (hend | hend)
  · obtain ⟨hlast, hbody⟩ := hinside (t := [newline]) hend
    rcases List.eq_nil_or_concat body with rfl | ⟨body, x, rfl⟩
    · exact hnewline (by rw [← hlast, List.nil_append])
    · rw [List.concat_eq_append] at hbody hmem
      rw [← List.append_assoc] at hbody
      obtain ⟨hx, -⟩ := suffix_concat_concat (t := []) hbody
      exact hmem (by simp [hx])
  · obtain ⟨hlast, hbody⟩ := hinside (t := [newline, 13]) hend
    rcases List.eq_nil_or_concat body with rfl | ⟨body, x, rfl⟩
    · exact hnewline (by rw [← hlast, List.nil_append]; rfl)
    · rw [List.concat_eq_append] at hbody hmem hcrlf
      rw [← List.append_assoc] at hbody
      obtain ⟨hx, hfront⟩ := suffix_concat_concat (t := [newline]) hbody
      rcases List.eq_nil_or_concat body with rfl | ⟨body, y, rfl⟩
      · exact hcrlf (by rw [← hlast, ← hx]; rfl)
      · rw [List.concat_eq_append] at hfront hmem
        rw [← List.append_assoc] at hfront
        obtain ⟨hy, -⟩ := suffix_concat_concat (t := []) hfront
        exact hmem (by simp [hy])

/-- A line of a head is what the connection begins with. -/
theorem lineOf_read {max : Nat} {line : List UInt8} {r r' : R}
    (h : readLine max [] r = (.ok line, r')) :
    line = firstLine max (ByteStream.bytes r) ∧ ByteStream.bytes r = line ++ ByteStream.bytes r' := by
  obtain ⟨hline, hbytes⟩ := readLine_ok h
  rw [List.nil_append, List.length_nil, Nat.sub_zero] at hline
  rw [List.length_nil, Nat.sub_zero, ← hline] at hbytes
  exact ⟨hline, hbytes⟩

/-- A line after which something came is whole. -/
theorem isLine_of_read {line : List UInt8} {r r' : R}
    (h : readLine (maxLineBytes + 1) [] r = (.ok line, r')) (hlong : ¬ maxLineBytes < line.length)
    (hmore : ByteStream.bytes r' ≠ []) : IsLine line := by
  obtain ⟨hline, hbytes⟩ := lineOf_read h
  by_cases hlast : line.getLast? = some newline
  · exact hline ▸ isLine_firstLine (hline ▸ hlast)
  · have hall : line = ByteStream.bytes r := by
      rw [hline] at hlast hlong ⊢
      exact firstLine_eq_self (by omega) hlast
    rw [← hall] at hbytes
    exact absurd (List.append_right_eq_self.mp hbytes.symm) hmore

/-- The header lines are those of a head, or the connection closed inside it. -/
private theorem headLines_ok {q : Text} {head out : List UInt8} {n : Nat} {r r' : R}
    (h : headLines q head n r = (.ok out, r'))
    (hhead : ∃ front line, head = front ++ line ∧ IsText line) :
    ∃ got, out = head ++ got ∧ ByteStream.bytes r = got ++ ByteStream.bytes r' ∧
      (HeadLines (maxHeaders - n) got ∨ ¬ EndsBlank out) := by
  fun_induction headLines q head n r with
  | case1 => simp at h
  | case2 => simp at h
  | case3 head n r line r₁ hread hlong hend =>
    -- the blank line ends the head
    cases h
    refine ⟨line, rfl, (lineOf_read hread).2, ?_⟩
    rcases hend with rfl | hblank
    · obtain ⟨front, l, rfl, hl⟩ := hhead
      rw [List.append_nil]
      exact .inr (hl.not_endsBlank front)
    · exact .inl (.blank hblank)
  | case4 => simp at h
  | case5 head n r line r₁ hread hlong hend hmany ih =>
    -- the line is one of the head, and others follow
    obtain ⟨hline, hbytes⟩ := lineOf_read hread
    rw [not_or, not_or] at hend
    have htext : IsText line := by
      refine ⟨hend.1, hend.2.1, hend.2.2, ?_⟩
      rw [hline]
      exact newline_notMem_dropLast _ _
    obtain ⟨got, hout, hgot, hor⟩ := ih h ⟨head, line, rfl, htext⟩
    refine ⟨line ++ got, by rw [hout, List.append_assoc], ?_, hor.imp_left fun hlines => ?_⟩
    · rw [hbytes, hgot, List.append_assoc]
    · rw [show maxHeaders - n = maxHeaders - (n + 1) + 1 by omega]
      refine .line (isLine_of_read hread hlong ?_) (by omega) hend.2 hlines
      rw [hgot]
      exact List.append_ne_nil_of_left_ne_nil hlines.ne_nil _

/-- **What is read is a head.**  The request is that of a whole head, and no byte after it is
    taken. -/
theorem readRequest_ok {P : RequestParser} {r r' : R} {req : HttpRequest}
    (h : readRequest P r = (.ok req, r')) :
    ∃ first rest, ByteStream.bytes r = first ++ rest ++ ByteStream.bytes r' ∧ IsFirst first ∧
      HeadLines maxHeaders rest ∧ requestOf P (requestLineOf first) (first ++ rest) = .ok req := by
  unfold readRequest at h
  split at h
  · simp at h
  · next first r₁ hread =>
    obtain ⟨hline, hbytes⟩ := lineOf_read hread
    dsimp only at h
    -- the first line is there, is not too long and not blank
    by_cases hnil : first = []
    · rw [if_pos hnil] at h
      cases h
    by_cases hlong : maxLineBytes < first.length
    · rw [if_neg hnil, if_pos hlong] at h
      cases h
    by_cases hblank : trim (requestLineOf first) = []
    · rw [if_neg hnil, if_neg hlong, if_pos hblank] at h
      cases h
    rw [if_neg hnil, if_neg hlong, if_neg hblank] at h
    -- so it does not end the head
    have htext : IsText first := by
      refine ⟨hnil, ?_, ?_, ?_⟩
      · rintro rfl
        exact hblank (by decide)
      · rintro rfl
        exact hblank (by decide)
      · rw [hline]
        exact newline_notMem_dropLast _ _
    split at h
    · cases h
    · next head r₂ hlines =>
      -- the lines up to the blank one, of which there may be so many
      obtain ⟨got, rfl, hgot, hor⟩ := headLines_ok hlines ⟨[], first, rfl, htext⟩
      obtain ⟨hreq, rfl⟩ := Prod.mk.inj h
      have hgotLines : HeadLines maxHeaders got := by
        refine hor.resolve_right fun hno => ?_
        rw [requestOf, if_pos hno] at hreq
        cases hreq
      refine ⟨first, got, by rw [hbytes, hgot, List.append_assoc], ?_, hgotLines, hreq⟩
      refine ⟨isLine_of_read hread hlong ?_, by omega, hblank⟩
      rw [hgot]
      exact List.append_ne_nil_of_left_ne_nil hgotLines.ne_nil _

/-! ### A head is read -/

/-- A line that fits is read from a calm connection. -/
theorem readLine_line {line after : List UInt8} {r : R} (hcalm : ByteStream.calm r)
    (hline : IsLine line) (hlen : line.length ≤ maxLineBytes)
    (hbytes : ByteStream.bytes r = line ++ after) :
    ∃ r', readLine (maxLineBytes + 1) [] r = (.ok line, r') ∧ ByteStream.calm r' ∧
      ByteStream.bytes r' = after := by
  obtain ⟨out, r', hread, hcalm'⟩ := readLine_calm (maxLineBytes + 1) [] hcalm
  obtain ⟨hout, htaken⟩ := lineOf_read hread
  rw [hbytes, hline.firstLine_append (by omega)] at hout
  subst hout
  exact ⟨r', hread, hcalm', List.append_cancel_left (htaken.symm.trans hbytes)⟩

/-- The header lines of a head are read from a calm connection. -/
private theorem headLines_of_head (q : Text) (head : List UInt8) (n : Nat) {got after : List UInt8}
    {r : R}
    (hcalm : ByteStream.calm r) (hgot : HeadLines (maxHeaders - n) got)
    (hbytes : ByteStream.bytes r = got ++ after) :
    ∃ r', headLines q head n r = (.ok (head ++ got), r') ∧ ByteStream.calm r' ∧
      ByteStream.bytes r' = after := by
  generalize hm : maxHeaders - n = m at hgot
  induction hgot generalizing head n r with
  | @blank m line hblank =>
    have hlen : line.length ≤ maxLineBytes := by
      rcases hblank with rfl | rfl
      · decide
      · decide
    obtain ⟨r', hread, hcalm', hafter⟩ := readLine_line hcalm (isLine_of_blank hblank) hlen hbytes
    rw [headLines, hread]
    dsimp only
    rw [if_neg (by omega), if_pos (.inr hblank)]
    exact ⟨r', rfl, hcalm', hafter⟩
  | @line m line rest hline hlen hblank _ ih =>
    rw [List.append_assoc] at hbytes
    obtain ⟨r₁, hread, hcalm₁, hafter⟩ := readLine_line hcalm hline hlen hbytes
    rw [headLines, hread]
    dsimp only
    rw [if_neg (by omega), if_neg (by simp [hline.ne_nil, hblank.1, hblank.2]), if_neg (by omega)]
    obtain ⟨r', hlines, hdone⟩ := ih (head ++ line) (n + 1) hcalm₁ hafter (by omega)
    rw [List.append_assoc] at hlines
    exact ⟨r', hlines, hdone⟩

/-- **Which heads are read.**  On a calm connection a request is read exactly if the bytes begin
    with a whole head that is one, and then nothing after that head is taken. -/
theorem readRequest_iff {P : RequestParser} {r : R} (hcalm : ByteStream.calm r) {req : HttpRequest}
    {after : List UInt8} :
    (∃ r', readRequest P r = (.ok req, r') ∧ ByteStream.bytes r' = after) ↔
      ∃ first rest, ByteStream.bytes r = first ++ rest ++ after ∧ IsFirst first ∧
        HeadLines maxHeaders rest ∧
        requestOf P (requestLineOf first) (first ++ rest) = .ok req := by
  constructor
  · rintro ⟨r', h, rfl⟩
    exact readRequest_ok h
  · rintro ⟨first, rest, hbytes, hfirst, hrest, hreq⟩
    rw [List.append_assoc] at hbytes
    obtain ⟨r₁, hread, hcalm₁, hafter⟩ :=
      readLine_line hcalm hfirst.line hfirst.length_le hbytes
    obtain ⟨r', hlines, -, hafter'⟩ :=
      headLines_of_head (requestLineOf first) first 0 hcalm₁ hrest hafter
    refine ⟨r', ?_, hafter'⟩
    rw [readRequest, hread]
    dsimp only
    rw [if_neg hfirst.line.ne_nil, if_neg (by have := hfirst.length_le; omega),
      if_neg hfirst.text, hlines]
    dsimp only
    rw [hreq]

end Read

/-- The request line of a GET. -/
def getLine : List UInt8 := "GET / HTTP/1.1\r\n".toList.map fun c => c.toNat.toUInt8

/-- How a GET without headers is parsed. -/
def getParser : RequestParser := ⟨fun _ => some ("GET", "/", 1, [])⟩

/-- What a GET without headers asks. -/
def getRequest : HttpRequest := ⟨"GET", "/", 1, "GET / HTTP/1.1", []⟩

/-- A connection that brings such a GET. -/
def getConnection : BufReader (Socket Payload) := .withCapacity 64 (.once (getLine ++ crlf))

/-- The line of the sample may be the first of a head. -/
theorem isFirst_getLine : IsFirst getLine :=
  ⟨⟨getLine.dropLast, by decide, by decide⟩, by decide, by decide⟩

/-- The head of the sample is that of the sample's request. -/
theorem requestOf_get : requestOf getParser (requestLineOf getLine) (getLine ++ crlf) =
    .ok getRequest := by
  have hend : EndsBlank (getLine ++ crlf) := by decide
  have hline : requestLineOf getLine = "GET / HTTP/1.1".toList := by decide
  rw [requestOf, if_neg (not_not.mpr hend), hline]
  rfl

/-- A GET is read. -/
theorem readRequest_get :
    ∃ r', readRequest getParser getConnection = (.ok getRequest, r') ∧ ByteStream.bytes r' = [] :=
  (readRequest_iff (Socket.calm_once _)).mpr
    ⟨getLine, crlf, rfl, isFirst_getLine, .blank (.inl rfl), requestOf_get⟩

section Read

variable {R : Type} [BufRead Payload R]

/-! ### What a head says of the body -/

/-- A body, as the headers frame it; repeated framing headers frame none. -/
def Frames (headers : Headers) (body : List UInt8) : Prop :=
  (∀ name ∈ framingHeaders, headers.count name ≤ 1) ∧
    match (headers.get "Transfer-Encoding".toList).getD [] with
    | c :: cs =>
      (trim (c :: cs)).map Char.toLower = "chunked".toList ∧ Framed .chunked body
    | [] =>
      match headers.get "Content-Length".toList with
      | some value =>
        allDigits (trim value) ∧ ∃ n, ofDecimal (trim value) = some n ∧ Framed (.length n) body
      | none => body = []

/-- The plan that a body is read by is what its head says. -/
private theorem bodyPlan_frames {headers : Headers} {limit : Nat} {plan : BodyPlan}
    {body : List UInt8}
    (h : bodyPlan headers limit = .ok plan) (hbody : Framed plan body) : Frames headers body := by
  unfold bodyPlan at h
  split at h
  · cases h
  · next honce =>
    refine ⟨fun name hname => ?_, ?_⟩
    · simpa using List.find?_eq_none.mp honce name hname
    · dsimp only at h
      cases htransfer : (headers.get "Transfer-Encoding".toList).getD [] with
      | cons c cs =>
        rw [htransfer, if_pos (by simp)] at h
        split at h
        · cases h
        · next hencodings =>
          cases h
          refine ⟨?_, hbody⟩
          rw [not_not] at hencodings
          -- one piece is the whole value
          obtain ⟨piece, hpieces, hpiece⟩ := List.map_eq_singleton_iff.mp hencodings
          have hvalue := (c :: cs).intercalate_splitOn ','
          rw [hpieces, List.intercalate_singleton] at hvalue
          rw [← hvalue, hpiece]
      | nil =>
        rw [htransfer, if_neg (by simp)] at h
        split at h
        · cases h
        · next value hvalue =>
          rw [hvalue]
          dsimp only at h ⊢
          split at h
          · cases h
          · next hdigits =>
            split at h
            · cases h
            · next n hn =>
              split at h
              · cases h
              · cases h
                refine ⟨by simpa using hdigits, n, ?_, hbody⟩
                exact (Option.filter_eq_some_iff.mp hn).1

omit [BufRead Payload R] in
/-- What is due at first is the body, as its plan frames it. -/
private theorem framed_of_due {r : R} {plan : BodyPlan} {limit : Nat} {deadline : ReadDeadline}
    {raw P : List UInt8} (h : BodyReader.Due Closing (.new r plan limit deadline) raw P) :
    Framed plan raw := by
  cases plan with
  | chunked  => exact ⟨P, (BodyReader.due_some rfl).mp h⟩
  | length n =>
    obtain ⟨rfl, hlen⟩ := (BodyReader.due_none rfl).mp h
    exact hlen

omit [BufRead Payload R] in
/-- A new reader has taken nothing yet. -/
theorem BodyReader.new_r (r : R) (plan : BodyPlan) (limit : Nat) (deadline : ReadDeadline) :
    (BodyReader.new r plan limit deadline).r = r := by
  cases plan <;> rfl

/-- What a reader has taken when it comes to the end of its body. -/
theorem BodyReader.taken {whole : Bool} {n : Nat} {b b₁ b' : BodyReader R} {got : List UInt8}
    (hd : Delivers b got b₁) (hn : 0 < n) (hlast : b₁.read whole n = (.ok [], b')) :
    ∃ raw, ByteStream.bytes b.r = raw ++ ByteStream.bytes b'.r ∧
      ∃ P, BodyReader.Due Closing b raw P := by
  have hall : Delivers b (got ++ []) b' := hd.trans (.ok hlast (.refl b'))
  cases BodyReader.read_outcome hlast hn with
  | payload hne _ _ _ => exact absurd rfl hne
  | ended he =>
    rcases BodyReader.delivers_due hall with hmove | ⟨-, -, raw, hbytes, hdue⟩
    · obtain ⟨raw, P, hbytes, hdue⟩ := hmove.along.due_nil he.finished
      exact ⟨raw, hbytes, P, hdue⟩
    · exact ⟨raw, hbytes, _, hdue⟩

/-- A small body that was read is what its head frames, and no byte after it is taken. -/
theorem readSmallBody_ok {room : Nat → ℕ+} {clock : Nat → Nat} {r r' : R} {headers : Headers}
    {limit : Nat} {body : List UInt8}
    (h : readSmallBody room clock r headers limit = (.ok body, r')) :
    ∃ raw, ByteStream.bytes r = raw ++ ByteStream.bytes r' ∧ Frames headers raw := by
  unfold readSmallBody at h
  split at h
  · cases h
  · next plan hplan =>
    split at h
    · next b hdrain =>
      cases h
      obtain ⟨got, b₁, -, hd, n, hn, hlast⟩ := drain_trace hdrain
      obtain ⟨raw, hbytes, P, hdue⟩ := BodyReader.taken hd hn hlast
      refine ⟨raw, ?_, bodyPlan_frames hplan (framed_of_due hdue)⟩
      rwa [BodyReader.new_r] at hbytes
    · split at h <;> cases h

end Read

/-! ### Where a head and a body end -/

/-- Two lines that the same bytes begin with are one. -/
theorem IsLine.cut {line line' x y : List UInt8} (h : IsLine line) (h' : IsLine line')
    (heq : line ++ x = line' ++ y) : line = line' ∧ x = y := by
  have hline : line = line' := by
    rw [← h.firstLine_append (Nat.le_max_left _ line'.length) x, heq]
    exact h'.firstLine_append (Nat.le_max_right _ _) y
  subst hline
  exact ⟨rfl, List.append_cancel_left heq⟩

/-- Where a head ends is decided by its bytes. -/
theorem HeadLines.cut {n n' : Nat} {head head' x y : List UInt8} (h : HeadLines n head)
    (h' : HeadLines n' head') (heq : head ++ x = head' ++ y) : head = head' ∧ x = y := by
  induction h generalizing n' head' with
  | blank hblank =>
    cases h' with
    | blank hblank' => exact (isLine_of_blank hblank).cut (isLine_of_blank hblank') heq
    | line hline _ hno _ =>
      rw [List.append_assoc] at heq
      obtain ⟨rfl, -⟩ := (isLine_of_blank hblank).cut hline heq
      exact (hblank.elim hno.1 hno.2).elim
  | line hline _ hno _ ih =>
    rw [List.append_assoc] at heq
    cases h' with
    | blank hblank' =>
      obtain ⟨rfl, -⟩ := hline.cut (isLine_of_blank hblank') heq
      exact (hblank'.elim hno.1 hno.2).elim
    | line hline' _ _ hrest' =>
      rw [List.append_assoc] at heq
      obtain ⟨rfl, hafter⟩ := hline.cut hline' heq
      obtain ⟨rfl, hxy⟩ := ih hrest' hafter
      exact ⟨rfl, hxy⟩

/-- Two heads that the same bytes begin with are one. -/
theorem IsHead.cut {head head' x y : List UInt8} (h : IsHead head) (h' : IsHead head')
    (heq : head ++ x = head' ++ y) : head = head' ∧ x = y := by
  obtain ⟨first, rest, rfl, hfirst, hrest⟩ := h
  obtain ⟨first', rest', rfl, hfirst', hrest'⟩ := h'
  rw [List.append_assoc, List.append_assoc] at heq
  obtain ⟨rfl, hafter⟩ := hfirst.line.cut hfirst'.line heq
  obtain ⟨rfl, hxy⟩ := hrest.cut hrest' hafter
  exact ⟨rfl, hxy⟩

/-- Where a body ends is decided by its bytes and the plan. -/
theorem Framed.cut {plan : BodyPlan} {body body' x y : List UInt8} (h : Framed plan body)
    (h' : Framed plan body') (heq : body ++ x = body' ++ y) : body = body' ∧ x = y := by
  cases plan with
  | length n => exact List.append_inj heq (h.trans h'.symm)
  | chunked =>
    obtain ⟨payload, hseq⟩ := h
    obtain ⟨payload', hseq'⟩ := h'
    -- the decoding says where it ends
    have hdec := decodeFrom_of_chunkSeq hseq (Nat.le_max_left _ payload'.length) x
    rw [heq, decodeFrom_of_chunkSeq hseq' (Nat.le_max_right _ _) y] at hdec
    have hxy : y = x := by
      injection hdec with _ hend
      injection hend
    subst hxy
    exact ⟨List.append_cancel_right heq, rfl⟩

/-- Two bodies that one head frames, and that the same bytes begin with, are one. -/
theorem Frames.cut {headers : Headers} {body body' x y : List UInt8} (h : Frames headers body)
    (h' : Frames headers body') (heq : body ++ x = body' ++ y) : body = body' ∧ x = y := by
  obtain ⟨-, hbody⟩ := h
  obtain ⟨-, hbody'⟩ := h'
  generalize (headers.get "Transfer-Encoding".toList).getD [] = transfer at hbody hbody'
  generalize headers.get "Content-Length".toList = length at hbody hbody'
  rcases transfer with _ | ⟨c, cs⟩
  · rcases length with _ | value
    · rw [show body = [] from hbody, show body' = [] from hbody'] at heq ⊢
      exact ⟨rfl, heq⟩
    · obtain ⟨-, n, hn, hframed⟩ := hbody
      obtain ⟨-, n', hn', hframed'⟩ := hbody'
      obtain rfl : n = n' := Option.some.inj (hn.symm.trans hn')
      exact hframed.cut hframed' heq
  · exact hbody.2.cut hbody'.2 heq

end Omdrop.Proto
