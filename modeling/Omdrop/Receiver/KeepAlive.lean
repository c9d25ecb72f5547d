import Omdrop.Proto.Request
import Omdrop.Receiver.Ask

namespace Omdrop.Receiver

open Omdrop.Stream Omdrop.Text Omdrop.Proto Omdrop.Plist

/-!
# Requests on one connection

A connection is kept after a request when the answer allows it, and then the next head has to
begin where the body of the last request ends.  Two functions judge the framing: `bodyPlan`, where a
body is read, and `hasBody`, where none is.  They agree as long as no `Content-Length` is repeated
(`keep_alive_in_step`): `hasBody` looks at the first one only.  What a sender sends is taken apart as
it was put together (`requests_as_sent`).
-/

/-- The largest body of a Discover or an Ask. -/
def maxMetadataBytes : Nat := 1024 * 1024

/-- The status of a body's refusal. -/
def statusOf : BodyError → Nat
  | .invalid _             => 400
  | .tooLarge _            => 413
  | .timeout _ | .complete => 408

/-- Does a body come with a request that reads none? -/
def hasBody (headers : Headers) : Bool :=
  (headers.get "Transfer-Encoding".toList).isSome ||
    (headers.get "Content-Length".toList).any fun value => trim value ≠ ['0']

/-- What there is when a request is handled: what the policy looks at, what storing links meets,
    whether an Upload gets a slot and how many bytes it may have, how much the reads of a body ask
    for, the clock while they do, and whether a `100 Continue` and the answer can be written. -/
structure Arrival where
  found : Found
  faults : LinkFaults
  slot : Bool
  budget : Except (Nat × Text) Nat
  room : Nat → ℕ+
  clock : Nat → Nat
  continued : Bool
  answered : Bool

/-- What a request is answered. -/
inductive Response
  | reply (r : Reply)
  /-- to a GET: a line break -/
  | page
  /-- to a HEAD -/
  | header
  /-- to another method -/
  | unsupported
  /-- what could not be written -/
  | lost

/-- End the connection. -/
def Session.closed (s : Session) : Session := { s with conn := { s.conn with ended := true } }

/-- Keep the connection if that is asked for. -/
def Session.keep (keep : Bool) (s : Session) : Session :=
  { s with conn := { s.conn with ended := s.conn.ended || !keep } }

/-- What an Upload comes with before its body. -/
def uploadHead (a : Arrival) (req : HttpRequest) : UploadHead where
  contentType := req.headers.get "Content-Type".toList
  slot := a.slot
  budget := a.budget.map fun _ => ()
  plan :=
    match a.budget with
    | .error e  => .error e
    | .ok limit =>
      match bodyPlan req.headers limit with
      | .error e => .error (statusOf e, e.display)
      | .ok _    => .ok ()

section

variable [Unicode] [ShowValue] (E : EventReader) (apple : AppleChecks) (hash : Text → Text)
  (profile : Profile) (P : RequestParser) {R : Type} [BufRead Payload R]

/-- A POST.  An Upload ends its connection, so what is left of its body does not matter. -/
def post (a : Arrival) (req : HttpRequest) (r : R) (s : Session) : (Reply × Session) × R :=
  let head : Request := ⟨req.path, req.keepAlive⟩
  if req.path = "/Upload".toList then (upload a.found head (uploadHead a req) s, r)
  else if req.path ≠ "/Discover".toList ∧ req.path ≠ "/Ask".toList then
    -- the body is not read, so nothing after it can be a request
    (reply (.status 400) (!hasBody req.headers && req.keepAlive) s, r)
  else
    match readSmallBody a.room a.clock r req.headers maxMetadataBytes with
    | (.error (.timeout _), r) => (reject head 408 "request body read timed out" s, r)
    | (.error e, r)            => (reject head (statusOf e) e.display s, r)
    | (.ok body, r)            =>
      if req.path = "/Discover".toList then
        (discover E apple hash profile a.found head body s, r)
      else (ask E apple hash profile a.faults a.found head body s, r)

/-- The answer to a request, by its method. -/
def answer (a : Arrival) (req : HttpRequest) (r : R) (s : Session) :
    (Response × Session) × R :=
  if req.method = "POST".toList then
    match post E apple hash profile a req r s with
    | ((reply, s), r) => ((.reply reply, s), r)
  else if req.method = "GET".toList then ((.page, s.keep req.keepAlive), r)
  else if req.method = "HEAD".toList then ((.header, s.keep req.keepAlive), r)
  else ((.unsupported, s.closed), r)

/-- Handle a request. -/
def handleRequest (a : Arrival) (req : HttpRequest) (r : R) (s : Session) :
    (Response × Session) × R :=
  let expect := (req.headers.get "Expect".toList).any fun value =>
    eqIgnoreAsciiCase value "100-continue".toList
  if expect ∧ 1 ≤ req.minor ∧ req.path ≠ "/Upload".toList ∧ ¬ a.continued then
    ((.lost, s.closed), r)
  else
    match answer E apple hash profile a req r s with
    | ((response, s), r) =>
      if ¬ a.answered then ((.lost, s.closed), r)
      -- the body of a GET or a HEAD is never read; whatever follows it is not a request
      else if req.method ≠ "POST".toList ∧ hasBody req.headers then ((response, s.closed), r)
      else ((response, s), r)

/-- Wait for the first byte of an Upload that is to come; it is not taken. -/
def awaitUpload (r : R) (s : Session) : Bool × R :=
  if s.conn.awaitingUpload then
    match BufRead.fillBuf r with
    | (.ok av, r)   => (av ≠ [], r)
    | (.error _, r) => (false, r)
  else (true, r)

/-- One request of a connection: what it was, what it was answered, and whether the connection was
    kept after it. -/
structure Turn where
  req : HttpRequest
  response : Response
  kept : Bool

/-- The requests of a connection, until it ends; the head that ends it is answered, if it is
    malformed, and no request. -/
def serve : List Arrival → R → Session → List Turn
  | [], _, _ => []
  | a :: as, r, s =>
    match awaitUpload r s with
    | (false, _) => []
    | (true, r)  =>
      match readRequest P r with
      | (.error _, _) => []
      | (.ok req, r)  =>
        match handleRequest E apple hash profile a req r s.begun with
        | ((response, s), r) =>
          ⟨req, response, !s.conn.ended⟩ :: if s.conn.ended then [] else serve as r s

/-! ### What a request takes off its connection -/

/-- A body, as its head frames it, or nothing where nothing says that a body comes. -/
def Takes (headers : Headers) (body : List UInt8) : Prop :=
  Frames headers body ∨ body = [] ∧ hasBody headers = false

variable {E apple hash profile P}

omit [Unicode] [ShowValue] in
theorem reject_ended (req : Request) (code : Nat) (reason : Text) (s : Session) :
    (reject req code reason s).2.conn.ended = true := Bool.or_true _

omit [Unicode] [ShowValue] in
private theorem reply_kept {rep : Reply} {keep : Bool} {s : Session}
    (h : (reply rep keep s).2.conn.ended = false) : keep = true := by
  have hkeep : (!keep) = false := (Bool.or_eq_false_iff.mp h).2
  rwa [Bool.not_eq_false'] at hkeep

omit [ShowValue] in
/-- Nothing is left of a connection after an Upload. -/
private theorem upload_ended (found : Found) (req : Request) (head : UploadHead) (s : Session) :
    (upload found req head s).2.conn.ended = true := by
  unfold upload
  dsimp only
  split_ifs with hcontacts htype hslot
  · exact reject_ended req 403 _ s
  · exact reject_ended req 415 _ s
  · rcases head.budget with ⟨code, reason⟩ | _
    · exact reject_ended req code reason s
    · rcases head.plan with ⟨code, reason⟩ | _
      · exact reject_ended req code reason s
      · exact Bool.or_true _
  · exact reject_ended req 503 _ s

/-- A connection that is kept after a POST is past its body. -/
private theorem post_takes {a : Arrival} {req : HttpRequest} {r r' : R} {s s' : Session}
    {rep : Reply}
    (h : post E apple hash profile a req r s = ((rep, s'), r')) (hkept : s'.conn.ended = false) :
    ∃ body, ByteStream.bytes r = body ++ ByteStream.bytes r' ∧ Takes req.headers body := by
  unfold post at h
  dsimp only at h
  by_cases hupload : req.path = "/Upload".toList
  · rw [if_pos hupload] at h
    obtain ⟨hout, rfl⟩ := Prod.mk.inj h
    have hended := upload_ended a.found ⟨req.path, req.keepAlive⟩ (uploadHead a req) s
    rw [hout, hkept] at hended
    cases hended
  rw [if_neg hupload] at h
  by_cases hother : req.path ≠ "/Discover".toList ∧ req.path ≠ "/Ask".toList
  · rw [if_pos hother] at h
    obtain ⟨hout, rfl⟩ := Prod.mk.inj h
    -- it is kept only where there is no body
    have hkeep := reply_kept (by rw [hout]; exact hkept)
    rw [Bool.and_eq_true, Bool.not_eq_true'] at hkeep
    exact ⟨[], rfl, .inr ⟨rfl, hkeep.1⟩⟩
  rw [if_neg hother] at h
  split at h
  · obtain ⟨hout, rfl⟩ := Prod.mk.inj h
    have hended := reject_ended ⟨req.path, req.keepAlive⟩ 408 "request body read timed out".toList s
    rw [hout, hkept] at hended
    cases hended
  · next e r₁ _ hread =>
    obtain ⟨hout, rfl⟩ := Prod.mk.inj h
    have hended := reject_ended ⟨req.path, req.keepAlive⟩ (statusOf e) e.display s
    rw [hout, hkept] at hended
    cases hended
  · next body r₁ hread =>
    obtain ⟨raw, hbytes, hframes⟩ := readSmallBody_ok hread
    have hr : r₁ = r' := by
      split_ifs at h
      · exact congrArg Prod.snd h
      · exact congrArg Prod.snd h
    exact ⟨raw, hr ▸ hbytes, .inl hframes⟩

private theorem answer_takes {a : Arrival} {req : HttpRequest} {r r' : R} {s s' : Session}
    {response : Response} (h : answer E apple hash profile a req r s = ((response, s'), r'))
    (hread : req.method = "POST".toList ∨ hasBody req.headers = false)
    (hkept : s'.conn.ended = false) :
    ∃ body, ByteStream.bytes r = body ++ ByteStream.bytes r' ∧ Takes req.headers body := by
  unfold answer at h
  by_cases hpost : req.method = "POST".toList
  · rw [if_pos hpost] at h
    rcases hp : post E apple hash profile a req r s with ⟨⟨rep, s₁⟩, r₁⟩
    rw [hp] at h
    cases h
    exact post_takes hp hkept
  · -- the other methods read no body
    have hno := hread.resolve_left hpost
    have hr : r = r' := by
      rw [if_neg hpost] at h
      split_ifs at h
      · exact congrArg Prod.snd h
      · exact congrArg Prod.snd h
      · exact congrArg Prod.snd h
    exact ⟨[], hr ▸ rfl, .inr ⟨rfl, hno⟩⟩

/-- A connection that is kept after a request is past its body. -/
private theorem handleRequest_takes {a : Arrival} {req : HttpRequest} {r r' : R} {s s' : Session}
    {response : Response}
    (h : handleRequest E apple hash profile a req r s = ((response, s'), r'))
    (hkept : s'.conn.ended = false) :
    ∃ body, ByteStream.bytes r = body ++ ByteStream.bytes r' ∧ Takes req.headers body := by
  unfold handleRequest at h
  dsimp only at h
  split at h
  · cases h
    cases hkept
  · rcases hanswer : answer E apple hash profile a req r s with ⟨⟨response₁, s₁⟩, r₁⟩
    rw [hanswer] at h
    dsimp only at h
    by_cases hunheard : ¬ a.answered
    · rw [if_pos hunheard] at h
      cases h
      cases hkept
    rw [if_neg hunheard] at h
    by_cases hunread : req.method ≠ "POST".toList ∧ hasBody req.headers
    · rw [if_pos hunread] at h
      cases h
      cases hkept
    rw [if_neg hunread] at h
    cases h
    refine answer_takes hanswer ?_ hkept
    rwa [not_and_or, not_not, Bool.not_eq_true] at hunread

/-! ### The framing of a kept connection -/

omit [Unicode] [ShowValue] in
/-- Nothing is the body of a request with which none comes, unless its length is repeated. -/
private theorem frames_of_not_hasBody {headers : Headers} (h : hasBody headers = false)
    (honce : headers.count "Content-Length".toList ≤ 1) : Frames headers [] := by
  rw [hasBody, Bool.or_eq_false_iff] at h
  obtain ⟨htransfer, hlength⟩ := h
  rw [Option.isSome_eq_false_iff, Option.isNone_iff_eq_none] at htransfer
  refine ⟨fun name hname => ?_, ?_⟩
  · rcases List.mem_pair.mp hname with rfl | rfl
    · have hnone := List.find?_eq_none.mp (Option.map_eq_none_iff.mp htransfer)
      have hcount : headers.count "Transfer-Encoding".toList = 0 := List.countP_eq_zero.mpr hnone
      omega
    · exact honce
  · rw [htransfer, Option.getD_none]
    dsimp only
    cases hvalue : headers.get "Content-Length".toList with
    | none => rfl
    | some value =>
      rw [hvalue] at hlength
      have hzero : trim value = ['0'] := by simpa using hlength
      dsimp only
      rw [hzero]
      exact ⟨rfl, 0, rfl, rfl⟩

/-- What a turn took off its connection: the head of its request, and, if the connection was kept,
    the body that comes with it.  A request whose `Content-Length` is repeated, and whose body is not
    read, is taken for one without a body. -/
structure Took (P : RequestParser) (t : Turn) (part : List UInt8 × List UInt8) : Prop where
  head : IsHead part.1
  parsed : ∃ q, requestOf P q part.1 = .ok t.req
  body : t.kept → Frames t.req.headers part.2 ∨
    1 < t.req.headers.count "Content-Length".toList ∧ part.2 = []

omit [Unicode] [ShowValue] in
theorem Takes.frames {headers : Headers} {body : List UInt8} (h : Takes headers body) :
    Frames headers body ∨ 1 < headers.count "Content-Length".toList ∧ body = [] := by
  rcases h with hframes | ⟨rfl, hno⟩
  · exact .inl hframes
  · by_cases honce : headers.count "Content-Length".toList ≤ 1
    · exact .inl (frames_of_not_hasBody hno honce)
    · exact .inr ⟨by omega, rfl⟩

omit [Unicode] [ShowValue] in
/-- A byte that is waited for is not taken. -/
private theorem awaitUpload_bytes {r r' : R} {s : Session} {there : Bool}
    (h : awaitUpload r s = (there, r')) : ByteStream.bytes r' = ByteStream.bytes r := by
  unfold awaitUpload at h
  split_ifs at h
  · rcases hfill : BufRead.fillBuf r with ⟨_ | av, r₁⟩
    · rw [hfill] at h
      cases h
      exact BufRead.fillBuf_error hfill
    · rw [hfill] at h
      cases h
      exact (BufRead.fillBuf_ok hfill).1
  · cases h
    rfl

variable (E apple hash profile P)

/-- **One turn of a connection.**  There is none, or a whole head is read; and if the connection is
    kept, the next turn begins after the body. -/
theorem serve_cases (a : Arrival) (arrivals : List Arrival) (r : R) (s : Session) :
    serve E apple hash profile P (a :: arrivals) r s = [] ∨
    ∃ (t : Turn) (head : List UInt8) (q : Text) (r₁ : R), ByteStream.bytes r = head ++
      ByteStream.bytes r₁ ∧ IsHead head ∧ requestOf P q head = .ok t.req ∧
      (t.kept = false ∧ serve E apple hash profile P (a :: arrivals) r s = [t] ∨
      ∃ (body : List UInt8) (r₂ : R) (s₂ : Session), ByteStream.bytes r₁ = body ++ ByteStream.bytes r₂ ∧
        Takes t.req.headers body ∧ serve E apple hash profile P (a :: arrivals) r s =
          t :: serve E apple hash profile P arrivals r₂ s₂) := by
  rw [serve]
  rcases hawait : awaitUpload r s with ⟨_ | _, r₀⟩
  · exact .inl rfl
  dsimp only
  rcases hhead : readRequest P r₀ with ⟨_ | req, r₁⟩
  · exact .inl rfl
  dsimp only
  obtain ⟨first, rest, hbytes₁, hfirst, hrest, hreq⟩ := readRequest_ok hhead
  rw [awaitUpload_bytes hawait] at hbytes₁
  rcases hhandle : handleRequest E apple hash profile a req r₁ s.begun with ⟨⟨response, s₂⟩, r₂⟩
  refine .inr ⟨⟨req, response, !s₂.conn.ended⟩, first ++ rest, _, r₁, hbytes₁,
    ⟨first, rest, rfl, hfirst, hrest⟩, hreq, ?_⟩
  dsimp only
  cases hended : s₂.conn.ended with
  | true  => exact .inl ⟨rfl, rfl⟩
  | false =>
    obtain ⟨body, hbytes₂, htakes⟩ := handleRequest_takes hhandle hended
    exact .inr ⟨body, r₂, s₂, hbytes₂, htakes, rfl⟩

/-- **A kept connection stays in step.**  What a connection brings is heads and bodies by turns: the
    head of each request begins where the body of the last one ends, and is a whole one. -/
theorem keep_alive_in_step (arrivals : List Arrival) (r : R) (s : Session) :
    ∃ parts rest, ByteStream.bytes r = parts.flatMap (fun p => p.1 ++ p.2) ++ rest ∧
      List.Forall₂ (Took P) (serve E apple hash profile P arrivals r s) parts := by
  induction arrivals generalizing r s with
  | nil => exact ⟨[], _, rfl, .nil⟩
  | cons a arrivals ih =>
    obtain hnone | ⟨t, head, q, r₁, hbytes, hhead, hreq, ⟨hkept, hserve⟩ |
      ⟨body, r₂, s₂, hbody, htakes, hserve⟩⟩ :=
      serve_cases E apple hash profile P a arrivals r s
    · rw [hnone]
      exact ⟨[], _, rfl, .nil⟩
    · -- whatever comes with the last head is not read on
      rw [hserve]
      refine ⟨[(head, [])], ByteStream.bytes r₁, ?_, .cons ⟨hhead, ⟨q, hreq⟩, by simp [hkept]⟩ .nil⟩
      rw [hbytes, List.flatMap_singleton, List.append_nil]
    · rw [hserve]
      obtain ⟨parts, rest, hrest, hturns⟩ := ih r₂ s₂
      refine ⟨(head, body) :: parts, rest, ?_,
        .cons ⟨hhead, ⟨q, hreq⟩, fun _ => htakes.frames⟩ hturns⟩
      rw [hbytes, hbody, hrest, List.flatMap_cons]
      simp only [List.append_assoc]

/-- A request as a sender sends it: a whole head that parses, and the body that it frames. -/
def IsMessage (P : RequestParser) (message : List UInt8 × List UInt8) : Prop :=
  IsHead message.1 ∧ ∃ q req, requestOf P q message.1 = .ok req ∧ Frames req.headers message.2

omit [Unicode] [ShowValue] in
variable {P} in
private theorem requestOf_headers {q q' : Text} {head : List UInt8} {req req' : HttpRequest}
    (h : requestOf P q head = .ok req) (h' : requestOf P q' head = .ok req') :
    req'.headers = req.headers := by
  unfold requestOf at h h'
  by_cases hend : ¬ EndsBlank head
  · rw [if_pos hend] at h
    cases h
  rw [if_neg hend] at h h'
  cases hparse : P.parse head with
  | none =>
    rw [hparse] at h
    cases h
  | some parsed =>
    rw [hparse] at h h'
    cases h
    cases h'
    rfl

/-- As far as requests are handled, they are those that were sent, one by one. -/
def AsSent (P : RequestParser) (turns : List Turn) (sent : List (List UInt8 × List UInt8)) : Prop :=
  ∀ p ∈ turns.zip sent, ∃ q, requestOf P q p.2.1 = .ok p.1.req

/-- **Requests are handled as they were sent.**  As far as they are handled, the requests of a
    connection are those that the sender sent, one by one: no byte of a body is taken for a head. -/
theorem requests_as_sent (arrivals : List Arrival) (r : R) (s : Session)
    (sent : List (List UInt8 × List UInt8)) (more : List UInt8)
    (hsent : ∀ message ∈ sent, IsMessage P message)
    (hbytes : ByteStream.bytes r = sent.flatMap (fun m => m.1 ++ m.2) ++ more) :
    AsSent P (serve E apple hash profile P arrivals r s) sent := by
  unfold AsSent
  induction arrivals generalizing r s sent with
  | nil =>
    intro p hp
    cases hp
  | cons a arrivals ih =>
    rcases sent with _ | ⟨message, sent⟩
    · intro p hp
      rw [List.zip_nil_right] at hp
      cases hp
    obtain ⟨⟨hmsgHead, q', req', hreq', hmsgFrames⟩, hsent⟩ := List.forall_mem_cons.mp hsent
    rw [List.flatMap_cons, List.append_assoc, List.append_assoc] at hbytes
    obtain hnone | ⟨t, head, q, r₁, hr, hhead, hreq, ⟨-, hserve⟩ |
      ⟨body, r₂, s₂, hbody, htakes, hserve⟩⟩ :=
      serve_cases E apple hash profile P a arrivals r s
    · intro p hp
      rw [hnone] at hp
      cases hp
    · intro p hp
      rw [hserve, List.zip_cons_cons, List.zip_nil_left, List.mem_singleton] at hp
      obtain ⟨rfl, -⟩ := hhead.cut hmsgHead (hr.symm.trans hbytes)
      exact hp ▸ ⟨q, hreq⟩
    · obtain ⟨rfl, hr₁⟩ := hhead.cut hmsgHead (hr.symm.trans hbytes)
      rw [requestOf_headers hreq hreq'] at hmsgFrames
      have hframes : Frames t.req.headers body := by
        refine htakes.frames.resolve_right fun hrepeated => ?_
        have honce := hmsgFrames.1 "Content-Length".toList (by simp [framingHeaders])
        omega
      obtain ⟨rfl, hr₂⟩ := hframes.cut hmsgFrames (hbody.symm.trans hr₁)
      rw [hserve, List.zip_cons_cons, List.forall_mem_cons]
      exact ⟨⟨q, hreq⟩, ih r₂ s₂ sent hsent hr₂⟩

end

/-- The request line of a Discover. -/
def discoverLine : List UInt8 := "POST /Discover HTTP/1.1\r\n".toList.map fun c => c.toNat.toUInt8

/-- A header line: two bytes follow the head. -/
def twoBytesLine : List UInt8 := "Content-Length: 2\r\n".toList.map fun c => c.toNat.toUInt8

/-- How heads are parsed that are either of a Discover with two bytes or of a GET. -/
def pairParser : RequestParser where
  parse head :=
    if discoverLine <+: head then
      some ("POST".toList, "/Discover".toList, 1, [("Content-Length".toList, [50])])
    else getParser.parse head

/-- A Discover whose body begins like a request, and a GET after it. -/
def pairSent : List (List UInt8 × List UInt8) :=
  [(discoverLine ++ (twoBytesLine ++ crlf), [71, 69]), (getLine ++ crlf, [])]

/-- A connection that brings the two, one right behind the other. -/
def pairConnection : BufReader (Socket Payload) :=
  .withCapacity ⟨64, by decide⟩ (.once (pairSent.flatMap fun m => m.1 ++ m.2))

private theorem isMessage_discover :
    IsMessage pairParser (discoverLine ++ (twoBytesLine ++ crlf), [71, 69]) := by
  have hfirst : IsFirst discoverLine :=
    ⟨⟨discoverLine.dropLast, by decide, by decide⟩, by decide, by decide⟩
  have hlength : IsLine twoBytesLine := ⟨twoBytesLine.dropLast, by decide, by decide⟩
  have hrest : HeadLines (99 + 1) (twoBytesLine ++ crlf) :=
    .line hlength (by decide) ⟨by decide, by decide⟩ (.blank (.inl rfl))
  have hreq : requestOf pairParser [] (discoverLine ++ (twoBytesLine ++ crlf)) =
      .ok ⟨"POST".toList, "/Discover".toList, 1, [], [("Content-Length".toList, "2".toList)]⟩ := by
    have hend : EndsBlank (discoverLine ++ (twoBytesLine ++ crlf)) := by decide
    rw [requestOf, if_neg (not_not.mpr hend)]
    rfl
  exact ⟨⟨_, _, rfl, hfirst, hrest⟩, _, _, hreq, by decide, by decide, 2, by decide, rfl⟩

private theorem isMessage_get : IsMessage pairParser (getLine ++ crlf, []) :=
  ⟨⟨_, _, rfl, isFirst_getLine, .blank (.inl rfl)⟩, _, getRequest, requestOf_get, by decide, rfl⟩

/-- What there is when nothing is refused, and nothing fails. -/
def Arrival.plain : Arrival :=
  ⟨⟨none, none, none⟩, .none, true, .ok 1048576, Nat.succPNat, fun _ => 0, true, true⟩

/-- The requests that are handled when the connection brings the two. -/
def pairTurns : List Turn :=
  @serve Unicode.ascii ShowValue.omitted (.ofEvents []) .nobody id ⟨[], [], [], none⟩ pairParser _ _
    [.plain, .plain] pairConnection (Session.start ⟨fun _ => none, [], 0⟩)

/-- Two requests on one connection, the first with a body: both are handled, as they were sent. -/
theorem requests_as_sent_pair : AsSent pairParser pairTurns pairSent ∧
    pairTurns.map (fun t => t.req.path) = ["/Discover".toList, "/".toList] := by
  refine ⟨@requests_as_sent Unicode.ascii ShowValue.omitted (.ofEvents []) .nobody id
    ⟨[], [], [], none⟩ pairParser _ _ [.plain, .plain] pairConnection
    (Session.start ⟨fun _ => none, [], 0⟩) pairSent [] ?_ rfl, by decide +kernel⟩
  exact List.forall_mem_cons.mpr ⟨isMessage_discover, List.forall_mem_singleton.mpr isMessage_get⟩

end Omdrop.Receiver
