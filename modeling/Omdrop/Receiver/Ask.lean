import Omdrop.Machine.Run
import Omdrop.Plist.SafePlist
import Omdrop.Receiver.Contacts
import Omdrop.Receiver.Links

namespace Omdrop.Receiver

open Omdrop.Text Omdrop.Proto Omdrop.Plist

/-!
# A connection's requests

What the receiver does with a Discover, an Ask and an Upload.  A sender asks, and then uploads on
the same connection; while the machine is visible to contacts only, the Ask has to prove who it is
(`extract_needs_accepted_ask`).  An Ask for links is the whole transfer (`ask_whole_iff`).
-/

/-- The most items that an Ask may have. -/
def maxArchiveMembers : Nat := 512

/-- What the receiver says of itself. -/
structure Profile where
  name : Text
  model : Text
  mediaCapabilities : List UInt8
  record : Option (List UInt8)

/-- A request, as far as it is not its body. -/
structure Request where
  path : Text
  keepAlive : Bool

/-- What is there when a request is handled: the visibility file and the file of known senders, as
    they are read for it, and the certificate of the connection. -/
structure Found where
  visibility : Option (List UInt8)
  known : Option (List UInt8)
  leaf : Option (List UInt8)

/-- What a connection remembers: that an Ask was accepted, that an Upload is to come, and that it
    ends after its last answer. -/
structure Conn where
  contactsOk : Bool
  awaitingUpload : Bool
  ended : Bool
  deriving DecidableEq

/-- A connection and the directory of downloads. -/
structure Session where
  conn : Conn
  inbox : Inbox

/-- A connection that was just opened. -/
def Session.start (inbox : Inbox) : Session := ⟨⟨false, false, false⟩, inbox⟩

/-- Log a message. -/
def Session.say (level : Level) (text : Text) (s : Session) : Session :=
  { s with inbox := s.inbox.say (.other level text) }

/-- An answer: a status alone or with a property list, or that the body is extracted. -/
inductive Reply
  | status (code : Nat)
  | answer (dict : Dictionary)
  | extracting
  | unheard

/-- Answer, and keep the connection if that is asked for. -/
def reply (r : Reply) (keep : Bool) (s : Session) : Reply × Session :=
  (r, { s with conn := { s.conn with ended := s.conn.ended || !keep } })

/-- Refuse a request, and end the connection. -/
def reject (req : Request) (code : Nat) (reason : Text) (s : Session) : Reply × Session :=
  reply (.status code) false (s.say .warning (req.path ++ " rejected: ".toList ++ reason))

/-- What a Discover and an Ask are answered. -/
def Profile.answer (p : Profile) (withRecord : Bool) : Dictionary :=
  let shown : Dictionary := [("ReceiverComputerName".toList, .string p.name),
    ("ReceiverMediaCapabilities".toList, .data p.mediaCapabilities),
    ("ReceiverModelName".toList, .string p.model), ("IsAirDropable".toList, .boolean true)]
  match p.record with
  | some record =>
    if withRecord then shown ++ [("ReceiverRecordData".toList, .data record)] else shown
  | none        => shown

/-! ### What an Ask says -/

/-- A dictionary's entry, if it is an array. -/
def arrayAt (key : Text) (dict : Dictionary) : List Value :=
  match dict.lookup key with
  | some (.array items) => items
  | _                   => []

/-- The validation record that a request carries. -/
def senderRecord (dict : Dictionary) : Option (List UInt8) :=
  match dict.lookup "SenderRecordData".toList with
  | some (.data record) => some record
  | _                   => none

/-- The text of a value that is text. -/
def asText : Value → Option Text
  | .string s => some s
  | _         => none

/-- The names in a `TransferType`. -/
def transferTypes (dict : Dictionary) : List Text :=
  match dict.lookup "TransferType".toList with
  | some (.dictionary d) => d.map Prod.fst
  | some (.array items)  => items.filterMap asText
  | _                    => []

/-- How an undecodable body is described. -/
def errorText : PlistError → Text
  | .invalid m  => m
  | .tooComplex => "property list deeper than ".toList ++ decimal maxDepth ++
      ", larger than ".toList ++ decimal maxEvents ++
      " values, or larger than four times its own size decoded".toList

section
variable [ShowValue]

/-- A value as a message shows it, text without quotes. -/
def pyStr : Option Value → Text
  | none             => "None"
  | some (.string s) => s
  | some v           => pyValueRepr v

/-- What a message says of a file that is announced. -/
def fileText (file : Value) : Text :=
  let dict : Dictionary := match file with
    | .dictionary d => d
    | _             => []
  List.intercalate [' '] [pyStr (dict.lookup "FileName".toList),
    pyStr (dict.lookup "FileType".toList), pyStr (dict.lookup "FileSize".toList) ++ ['B']]

/-- The message of an Ask. -/
def askText (dict : Dictionary) : Text :=
  let files := arrayAt "Files".toList dict
  let items := arrayAt "Items".toList dict
  let types := transferTypes dict
  let listing := (files.take maxArchiveMembers).map fileText
  "ask from ".toList ++ pyStr (dict.lookup "SenderComputerName".toList) ++ " (".toList ++
    pyStr (dict.lookup "SenderModelName".toList) ++ "): type ".toList ++
    (if types = [] then ['?'] else List.intercalate [','] types) ++ ", ".toList ++
    decimal files.length ++ " item(s): ".toList ++
    if listing ≠ [] then List.intercalate "; ".toList listing
    else if items ≠ [] then pyValueRepr (.array items) else ['-']

end

/-! ### The requests -/

variable [Unicode] [ShowValue] (R : EventReader) (apple : AppleChecks) (hash : Text → Text)
  (profile : Profile)

/-- What the policy says of an Ask, where it is asked. -/
def gate (found : Found) (dict : Dictionary) : Option (Outcome × Detail) :=
  match visibility found.visibility with
  | .everyone => none
  | .contacts => some
    (decide apple (senderRecord dict) found.leaf (knownHashes hash found.known))

/-- The dictionary in the body of an Ask, and what is said of a body that has none. -/
def askBody (body : List UInt8) : Dictionary × Option Text :=
  match parse R body with
  | .ok (.dictionary dict) => (dict, none)
  | .ok _                  => ([], none)
  | .error e               => ([], some ("ask: undecodable ".toList ++ decimal body.length ++
      "-byte body: ".toList ++ errorText e))

/-- Answer an Ask that is accepted, and store its links. -/
def acceptAsk (faults : LinkFaults) (req : Request) (dict : Dictionary) (s : Session) :
    Reply × Session :=
  if "links".toList ∈ transferTypes dict then
    match storeLinks faults (arrayAt "Items".toList dict) s.inbox with
    | (.error e, inbox) =>
      reject req 507 ("storage failed: ".toList ++ e.text.toList) { s with inbox }
    | (.ok _, inbox)    => reply (.answer (profile.answer false)) req.keepAlive { s with inbox }
  else reply (.answer (profile.answer false)) req.keepAlive
    { s with conn := { s.conn with awaitingUpload := true } }

/-- An Ask. -/
def ask (faults : LinkFaults) (found : Found) (req : Request) (body : List UInt8) (s : Session) :
    Reply × Session :=
  let (dict, undecodable) := askBody R body
  let s := match undecodable with
    | some text => s.say .error text
    | none      => s
  if maxArchiveMembers < (arrayAt "Items".toList dict).length then
    reject req 413 ("Ask exceeds ".toList ++ decimal maxArchiveMembers ++ "-item limit".toList) s
  else
    let s := s.say .info (askText dict)
    match gate apple hash found dict with
    | none => acceptAsk profile faults req dict s
    | some (outcome, detail) =>
      if outcome ≠ .accept then
        reply (.status 403) req.keepAlive (s.say .warning
          ("ask REFUSED (contacts only): ".toList ++ outcome.why ++ detailSuffix detail))
      else
        let s := s.say .info ("ask accepted: ".toList ++ outcome.why)
        acceptAsk profile faults req dict { s with conn := { s.conn with contactsOk := true } }

/-- A Discover. -/
def discover (found : Found) (req : Request) (body : List UInt8) (s : Session) : Reply × Session :=
  let record := match parse R body with
    | .ok (.dictionary dict) => senderRecord dict
    | _                      => none
  match visibility found.visibility with
  | .everyone => reply (.answer (profile.answer true)) req.keepAlive s
  | .contacts =>
    let (outcome, detail) := decideDiscovery apple record (knownHashes hash found.known)
    if outcome ≠ .accept then
      reply (.status 401) req.keepAlive (s.say .info
        ("discovery withheld (contacts only): ".toList ++ outcome.why ++ detailSuffix detail))
    else reply (.answer (profile.answer true)) req.keepAlive s

/-- What an Upload comes with before its body: its content type, and what is found of a slot, of
    the room on the disk and of the framing of the body, with the status and the reason of a
    refusal. -/
structure UploadHead where
  contentType : Option Text
  slot : Bool
  budget : Except (Nat × Text) Unit
  plan : Except (Nat × Text) Unit

/-- An Upload, up to where its body is extracted; an extracted one ends its connection. -/
def upload (found : Found) (req : Request) (head : UploadHead) (s : Session) : Reply × Session :=
  if visibility found.visibility = .contacts ∧ ¬ s.conn.contactsOk then
    reject req 403 "contacts-only upload has no accepted Ask" s
  else
    let ctype := Unicode.toLowercase (trim ((head.contentType.getD []).takeWhile (· ≠ ';')))
    if ctype ≠ "application/x-dvzip".toList then
      reject req 415 ("unsupported Content-Type ".toList ++ pyRepr ctype) s
    else if ¬ head.slot then reject req 503 "too many uploads in progress" s
    else
      match head.budget with
      | .error (code, reason) => reject req code reason s
      | .ok _ =>
        match head.plan with
        | .error (code, reason) => reject req code reason s
        | .ok _ => reply .extracting false s

/-! ### The connection -/

/-- What a request is for. -/
inductive Kind
  | discover (body : List UInt8)
  | ask (body : List UInt8) (faults : LinkFaults)
  | upload (head : UploadHead)

/-- A request, and what there is when it is handled. -/
structure Call where
  kind : Kind
  req : Request
  found : Found

/-- An Upload is not awaited any more when the next request begins. -/
def Session.begun (s : Session) : Session :=
  { s with conn := { s.conn with awaitingUpload := false } }

/-- Handle a request. -/
def handle (c : Call) (s : Session) : Reply × Session :=
  match c.kind with
  | .discover body   => discover R apple hash profile c.found c.req body s
  | .ask body faults => ask R apple hash profile faults c.found c.req body s
  | .upload head     => upload c.found c.req head s

/-- The requests of a connection, in the order in which they come; what comes after its end is not
    heard. -/
def connection : Machine Session Call Reply where
  step s c :=
    if s.conn.ended then (s, .unheard) else (handle R apple hash profile c s.begun).swap

/-! ### What an Ask does -/

section
variable {R apple hash profile} {faults : LinkFaults} {found : Found} {req : Request}
  {body : List UInt8} {s : Session}

/-- What an Ask has to meet to be taken: not too many items, and the policy where it is asked. -/
def Taken (R : EventReader) (apple : AppleChecks) (hash : Text → Text) (found : Found)
    (body : List UInt8) : Prop :=
  (arrayAt "Items".toList (askBody R body).1).length ≤ maxArchiveMembers ∧
    ∀ judged ∈ gate apple hash found (askBody R body).1, judged.1 = .accept

/-- **What comes of an Ask.**  It is answered with a refusal and some messages, or it is taken, and
    remembered where the policy was asked. -/
theorem ask_cases : ∃ inbox, s.inbox.Said inbox ∧
    ((¬ Taken R apple hash found body ∧ ∃ code keep,
      ask R apple hash profile faults found req body s =
        reply (.status code) keep { s with inbox }) ∨
    (Taken R apple hash found body ∧ ask R apple hash profile faults found req body s =
      acceptAsk profile faults req (askBody R body).1
        ⟨{ s.conn with
            contactsOk := s.conn.contactsOk || visibility found.visibility == .contacts },
          inbox⟩)) := by
  unfold Taken ask
  rcases hbody : askBody R body with ⟨dict, undecodable⟩
  dsimp only
  -- what is said of a body that cannot be decoded comes first
  obtain ⟨start, hstart, hsaid⟩ : ∃ start, s.inbox.Said start ∧
      (match undecodable with | some text => s.say .error text | none => s) =
        { s with inbox := start } := by
    rcases undecodable with _ | text
    · exact ⟨_, .nothing, rfl⟩
    · exact ⟨_, .say .nothing .error text, rfl⟩
  rw [hsaid]
  by_cases hitems : maxArchiveMembers < (arrayAt "Items".toList dict).length
  · rw [if_pos hitems]
    exact ⟨_, hstart.say .warning _, .inl ⟨fun h => by omega, 413, false, rfl⟩⟩
  rw [if_neg hitems]
  have hasked := hstart.say .info (askText dict)
  rcases hvis : visibility found.visibility with _ | _
  · have hgate : gate apple hash found dict = none := by rw [gate, hvis]
    rw [hgate]
    refine ⟨_, hasked, .inr ⟨⟨by omega, by simp⟩, ?_⟩⟩
    rw [show (Visibility.everyone == .contacts) = false from rfl, Bool.or_false]
    rfl
  · have hgate : gate apple hash found dict = some
        (decide apple (senderRecord dict) found.leaf (knownHashes hash found.known)) := by
      rw [gate, hvis]
    rw [hgate]
    rcases decide apple (senderRecord dict) found.leaf (knownHashes hash found.known) with
      ⟨outcome, detail⟩
    by_cases haccept : outcome = .accept
    · subst haccept
      refine ⟨_, hasked.say .info ("ask accepted: ".toList ++ Outcome.accept.why),
        .inr ⟨⟨by omega, by simp⟩, ?_⟩⟩
      rw [beq_self_eq_true, Bool.or_true]
      rfl
    · refine ⟨_, hasked.say .warning
        ("ask REFUSED (contacts only): ".toList ++ outcome.why ++ detailSuffix detail),
        .inl ⟨fun h => haccept (h.2 _ rfl), 403, req.keepAlive, ?_⟩⟩
      dsimp only
      rw [if_pos haccept]
      rfl

private theorem acceptAsk_same (dict : Dictionary) :
    (acceptAsk profile faults req dict s).2.conn.contactsOk = s.conn.contactsOk ∧
      (acceptAsk profile faults req dict s).1 ≠ .extracting := by
  unfold acceptAsk
  split_ifs
  · rcases storeLinks faults (arrayAt "Items".toList dict) s.inbox with ⟨_ | _, inbox⟩
    · exact ⟨rfl, nofun⟩
    · exact ⟨rfl, nofun⟩
  · exact ⟨rfl, nofun⟩

/-- What an Ask that is taken leaves in the directory. -/
private theorem acceptAsk_leaves {dict : Dictionary} {s₀ : Inbox}
    (h : s₀.Whole (arrayAt "Items".toList dict) s.inbox) :
    s₀.Kept (arrayAt "Items".toList dict) (acceptAsk profile faults req dict s).2.inbox ∧
      (s₀.Whole (arrayAt "Items".toList dict) (acceptAsk profile faults req dict s).2.inbox ↔
        ("links".toList ∈ transferTypes dict →
          WrittenOut faults (arrayAt "Items".toList dict) s.inbox)) := by
  have hleaves : s₀.Kept (arrayAt "Items".toList dict)
        (storeLinks faults (arrayAt "Items".toList dict) s.inbox).2 ∧
      (s₀.Whole (arrayAt "Items".toList dict)
          (storeLinks faults (arrayAt "Items".toList dict) s.inbox).2 ↔
        WrittenOut faults (arrayAt "Items".toList dict) s.inbox) :=
    storeLinks_leaves (List.Subset.refl _) h
  unfold acceptAsk
  split_ifs with hlinks
  · rw [forall_prop_of_true hlinks]
    rcases hstore : storeLinks faults (arrayAt "Items".toList dict) s.inbox with ⟨e | u, inbox⟩
    · rw [hstore] at hleaves
      obtain ⟨hkept, hiff⟩ := hleaves
      -- the refusal is logged
      exact ⟨hkept.say .warning _, (hkept.whole_say_iff .warning _).trans hiff⟩
    · rw [hstore] at hleaves
      exact hleaves
  · exact ⟨h.toKept, fun _ hmem => absurd hmem hlinks, fun _ => h⟩

/-- What an Ask leaves: every link that it logs as stored stands there complete, whatever failed. -/
theorem ask_leaves (faults : LinkFaults) (found : Found) (req : Request) (body : List UInt8)
    (s : Session) :
    let items := arrayAt "Items".toList (askBody R body).1
    let after := (ask R apple hash profile faults found req body s).2.inbox
    s.inbox.Kept items after ∧ (s.inbox.Whole items after ↔
      (Taken R apple hash found body → "links".toList ∈ transferTypes (askBody R body).1 →
        WrittenOut faults items s.inbox)) := by
  intro items after
  obtain ⟨inbox, hsaid, hcases⟩ := @ask_cases _ _ R apple hash profile faults found req body s
  have hwhole := (Inbox.Whole.refl items s.inbox).said hsaid
  rcases hcases with ⟨hnot, code, keep, hask⟩ | ⟨htaken, hask⟩
  · have hafter : after = inbox := by
      show (ask R apple hash profile faults found req body s).2.inbox = inbox
      rw [hask]
      rfl
    rw [hafter]
    exact ⟨hwhole.toKept, fun _ htaken => absurd htaken hnot, fun _ => hwhole⟩
  · have hafter : after = (acceptAsk profile faults req (askBody R body).1
        ⟨{ s.conn with
            contactsOk := s.conn.contactsOk || visibility found.visibility == .contacts },
          inbox⟩).2.inbox := congrArg (·.2.inbox) hask
    obtain ⟨hkept, hiff⟩ := @acceptAsk_leaves _ _ profile faults req ⟨_, inbox⟩ _ _ hwhole
    rw [hafter, forall_prop_of_true htaken]
    refine ⟨hkept, hiff.trans ?_⟩
    exact imp_congr_right fun _ => writtenOut_congr hsaid.sameFiles

/-- **When an Ask leaves no broken shortcut.**  No file that was there is changed, and every file
    that was added holds the URL of an item, complete, and was logged: so it is if and only if, in
    case the links of the Ask are stored, every shortcut that is created is written out. -/
theorem ask_whole_iff (faults : LinkFaults) (found : Found) (req : Request) (body : List UInt8)
    (s : Session) :
    s.inbox.Whole (arrayAt "Items".toList (askBody R body).1)
        (ask R apple hash profile faults found req body s).2.inbox ↔
      (Taken R apple hash found body → "links".toList ∈ transferTypes (askBody R body).1 →
        WrittenOut faults (arrayAt "Items".toList (askBody R body).1) s.inbox) :=
  (ask_leaves faults found req body s).2

/-- The events of an Ask for a link. -/
def linkAsk (url : Text) : List Event :=
  [.startDictionary none, .string "TransferType", .startArray none, .string "links", .endCollection,
    .string "Items", .startArray none, .string url, .endCollection, .endCollection]

/-- Values without a text of their own, left out. -/
abbrev ShowValue.omitted : ShowValue := ⟨fun _ => [], fun _ => []⟩

/-- A disk on which files can be created, but not written. -/
def fullDisk : LinkFaults :=
  ⟨fun _ => none, fun _ => some (0, ⟨.other, "No space left on device"⟩)⟩

/-- Checks that nothing passes. -/
def AppleChecks.nobody : AppleChecks := ⟨fun _ => none, fun _ => []⟩

omit [Unicode] [ShowValue] in
/-- On a disk that is full when the shortcut is written, the empty file stays. -/
theorem ask_torn :
    let R := EventReader.ofEvents (linkAsk "http://a")
    let inbox : Inbox := ⟨fun _ => none, [], 0⟩
    ¬ @Inbox.Whole Unicode.ascii (arrayAt "Items".toList (askBody R []).1) inbox
      (@ask Unicode.ascii ShowValue.omitted R .nobody id ⟨[], [], [], none⟩ fullDisk
        ⟨none, none, none⟩ ⟨"/Ask", true⟩ [] (Session.start inbox)).2.inbox := by
  intro R inbox hwhole
  have hbody : askBody R [] = ([("TransferType".toList, .array [.string "links"]),
      ("Items".toList, .array [.string "http://a"])], none) := by
    unfold askBody parse parseCounted maxEvents
    rfl
  have hout := (@ask_leaves Unicode.ascii ShowValue.omitted R .nobody id ⟨[], [], [], none⟩ fullDisk
    ⟨none, none, none⟩ ⟨"/Ask", true⟩ [] (Session.start inbox)).2.mp hwhole
  have htaken : @Taken Unicode.ascii R .nobody id ⟨none, none, none⟩ [] := by
    unfold Taken
    rw [hbody]
    exact ⟨by decide, nofun⟩
  have hwritten := hout htaken (by rw [hbody]; decide)
  rw [hbody] at hwritten
  have hcreated := @openNew_of_free fullDisk (@linkName Unicode.ascii "http://a") inbox rfl rfl
  have haccept : @acceptItem ShowValue.omitted (.string "http://a") = .ok "http://a".toList := rfl
  simp only [show arrayAt "Items".toList [("TransferType".toList, Value.array [.string "links"]),
    ("Items".toList, .array [.string "http://a"])] = [.string "http://a"] from rfl, WrittenOut,
    haccept, show (Session.start inbox).inbox = inbox from rfl, hcreated] at hwritten
  exact absurd hwritten.1 (by simp [fullDisk])

/-! ### Who gets in -/

/-- An Ask on which the policy was asked and accepted, with what that takes. -/
def Accepted (R : EventReader) (apple : AppleChecks) (hash : Text → Text) (c : Call) : Prop :=
  ∃ body faults, c.kind = .ask body faults ∧ visibility c.found.visibility = .contacts ∧
    (decide apple (senderRecord (askBody R body).1) c.found.leaf
      (knownHashes hash c.found.known)).1 = .accept ∧
    ∃ info, IsContact apple (senderRecord (askBody R body).1) c.found.leaf
      (knownHashes hash c.found.known) info

omit [ShowValue] in
theorem accepted_of_taken {c : Call} {body : List UInt8} {faults : LinkFaults}
    (hkind : c.kind = .ask body faults) (hvis : visibility c.found.visibility = .contacts)
    (h : Taken R apple hash c.found body) : Accepted R apple hash c := by
  have haccept : (decide apple (senderRecord (askBody R body).1) c.found.leaf
      (knownHashes hash c.found.known)).1 = .accept := by
    refine h.2 _ ?_
    rw [gate, hvis]
    rfl
  exact ⟨body, faults, hkind, hvis, haccept, decide_eq_accept_iff apple |>.mp haccept⟩

omit [ShowValue] in
private theorem discover_same :
    (discover R apple hash profile found req body s).2.conn.contactsOk = s.conn.contactsOk ∧
      s.inbox.Said (discover R apple hash profile found req body s).2.inbox ∧
      (discover R apple hash profile found req body s).1 ≠ .extracting := by
  unfold discover
  dsimp only
  rcases visibility found.visibility with _ | _
  · exact ⟨rfl, .nothing, nofun⟩
  · dsimp only
    split_ifs
    · exact ⟨rfl, .say .nothing _ _, nofun⟩
    · exact ⟨rfl, .nothing, nofun⟩

omit [ShowValue] in
private theorem upload_same {head : UploadHead} :
    (upload found req head s).2.conn.contactsOk = s.conn.contactsOk ∧
      s.inbox.Said (upload found req head s).2.inbox := by
  unfold upload
  have hreject : ∀ code reason, (reject req code reason s).2.conn.contactsOk = s.conn.contactsOk ∧
      s.inbox.Said (reject req code reason s).2.inbox :=
    fun code reason => ⟨rfl, .say .nothing _ _⟩
  dsimp only
  split_ifs
  · exact hreject _ _
  · exact hreject _ _
  · rcases head.budget with ⟨code, reason⟩ | _
    · exact hreject _ _
    · rcases head.plan with ⟨code, reason⟩ | _
      · exact hreject _ _
      · exact ⟨rfl, .nothing⟩
  · exact hreject _ _

omit [ShowValue] in
/-- What is extracted came past the policy. -/
private theorem upload_extracting {head : UploadHead}
    (h : (upload found req head s).1 = .extracting)
    (hvis : visibility found.visibility = .contacts) : s.conn.contactsOk = true := by
  unfold upload at h
  by_contra hok
  rw [if_pos ⟨hvis, hok⟩] at h
  cases h

/-- What one request does: it stores links and vouches for an Upload only as an Ask that is taken. -/
theorem step_cases (c : Call) :
    let after := (connection R apple hash profile).step s c
    (after.1.conn.contactsOk = true → s.conn.contactsOk = true ∨ Accepted R apple hash c) ∧
      (visibility c.found.visibility = .contacts →
        s.inbox.Said after.1.inbox ∨ Accepted R apple hash c) ∧
      (after.2 = .extracting → visibility c.found.visibility = .contacts →
        s.conn.contactsOk = true) := by
  intro after
  by_cases hended : s.conn.ended = true
  · have hafter : after = (s, .unheard) := if_pos hended
    rw [hafter]
    exact ⟨.inl, fun _ => .inl .nothing, fun h => by cases h⟩
  have hstep : after = (handle R apple hash profile c s.begun).swap := if_neg hended
  rw [hstep]
  unfold handle
  rcases hkind : c.kind with body | ⟨body, faults⟩ | head
  · obtain ⟨hok, hsaid, hreply⟩ := @discover_same _ R apple hash profile c.found c.req body s.begun
    exact ⟨fun h => .inl (hok.symm.trans h), fun _ => .inl hsaid, fun h => absurd h hreply⟩
  · obtain ⟨inbox, hsaid, hcases⟩ :=
      @ask_cases _ _ R apple hash profile faults c.found c.req body s.begun
    dsimp only
    rcases hcases with ⟨-, code, keep, hask⟩ | ⟨htaken, hask⟩
    · rw [hask]
      exact ⟨.inl, fun _ => .inl hsaid, nofun⟩
    · rw [hask]
      obtain ⟨hok, hreply⟩ := @acceptAsk_same _ _ profile faults c.req
        ⟨⟨s.conn.contactsOk || visibility c.found.visibility == .contacts, false, s.conn.ended⟩,
          inbox⟩ (askBody R body).1
      refine ⟨fun h => ?_, fun hvis => .inr (accepted_of_taken hkind hvis htaken),
        fun h => absurd h hreply⟩
      -- the flag was set before, or by this very Ask
      rcases Bool.or_eq_true_iff.mp (hok.symm.trans h) with hbefore | hvis
      · exact .inl hbefore
      · exact .inr (accepted_of_taken hkind (beq_iff_eq.mp hvis) htaken)
  · obtain ⟨hok, hsaid⟩ := @upload_same _ c.found c.req s.begun head
    refine ⟨fun h => .inl (hok.symm.trans h), fun _ => .inl hsaid, fun h hvis => ?_⟩
    exact @upload_extracting _ _ _ s.begun head h hvis

/-- **Contacts only, over a whole connection.**  An Upload that is extracted while the machine is
    visible to contacts only came after an Ask on the same connection that the policy accepted; and
    an Ask that stores a link while it is, is itself accepted. -/
theorem contacts_only (inbox : Inbox) (before : List Call) (c : Call) :
    let s := (connection R apple hash profile).run (Session.start inbox) before
    let after := (connection R apple hash profile).step s c
    (after.2 = .extracting → visibility c.found.visibility = .contacts →
        ∃ pre a post, before = pre ++ a :: post ∧ Accepted R apple hash a) ∧
      (visibility c.found.visibility = .contacts →
        (after.1.inbox.entries ≠ s.inbox.entries ∨
          ∃ stored url, .linkStored stored url ∈ s.inbox.since after.1.inbox) →
        Accepted R apple hash c) := by
  intro s after
  obtain ⟨-, hstores, hextracts⟩ := @step_cases _ _ R apple hash profile s c
  constructor
  · intro hextracting hvis
    have hok : s.conn.contactsOk = true := hextracts hextracting hvis
    -- the flag was not set at the start, so one of the requests set it
    obtain ⟨pre, a, post, hbefore, hunset, hset⟩ :=
      Machine.exists_switch (P := fun s : Session => s.conn.contactsOk = true)
        (s := Session.start inbox) (by simp [Session.start]) hok
    have hflag := (@step_cases _ _ R apple hash profile _ a).1 (hset [] (List.nil_prefix))
    exact ⟨pre, a, post, hbefore, hflag.resolve_left hunset⟩
  · intro hvis hstored
    refine (hstores hvis).resolve_left fun hsaid => ?_
    rcases hstored with hentries | ⟨stored, url, hmem⟩
    · exact hentries hsaid.sameFiles.1
    · exact hsaid.not_stored stored url hmem

end

end Omdrop.Receiver
