import Omdrop.Receiver.Links
import Omdrop.Text.Fields
import Omdrop.Text.Lines

namespace Omdrop.Receiver

open Omdrop.Text Omdrop.Proto

/-!
# The receiver's log

Every record of the log is one line: a stamp, how serious it is, and a message in which every
character that could end a line or disguise one is escaped (`emitted_isLine`), so that the lines of
a log are its records (`linesOn_logText`).  The messages of level INFO are listed; the others are
whatever they are.
-/

/-! ### Escaping -/

/-- The longest message that is written, in bytes. -/
@[irreducible] def maxMessageBytes : Nat := 32 * 1024

/-- Separators of lines and paragraphs, marks of direction, and characters without width. -/
def disguiseRanges : List (Nat × Nat) :=
  [(0x2028, 0x2028), (0x2029, 0x2029), (0x200b, 0x200f), (0x202a, 0x202e), (0x2066, 0x2069),
    (0xfeff, 0xfeff)]

/-- A character as the log shows it. -/
def escapeChar (c : Char) : Text :=
  if Text.isControl c then "\\x".toList ++ hex 2 c.toNat
  else if inRanges disguiseRanges c then "\\u".toList ++ hex 4 c.toNat
  else [c]

/-- As many characters as there is room for. -/
def takeBytes (room : Nat) : Text → Text
  | []     => []
  | c :: t =>
    let size := (utf8 [c]).length
    if size ≤ room then c :: takeBytes (room - size) t else []

/-- A message as the log shows it. -/
def escape (message : Text) : Text :=
  let out := message.flatMap escapeChar
  if maxMessageBytes < (utf8 out).length then
    let kept := takeBytes maxMessageBytes out
    kept ++ " [... ".toList ++ decimal ((utf8 out).length - (utf8 kept).length) ++
      " more bytes]".toList
  else out

/-! ### Stamps -/

/-- A time of day on a date, as it is where the receiver runs. -/
structure LocalTime where
  year : Int
  month : Nat
  day : Nat
  hour : Nat
  minute : Nat
  second : Nat
  valid : month < 100 ∧ day < 100 ∧ hour < 100 ∧ minute < 100 ∧ second < 100

/-- The clock: seconds and milliseconds since the epoch, and the time where that is known. -/
structure Clock where
  secs : Nat
  millis : Nat
  known : Option LocalTime
  valid : millis < 1000

/-- A year, with four digits at least. -/
def yearText (year : Int) : Text :=
  if year < 0 then '-' :: zeroPadded 3 year.natAbs else zeroPadded 4 year.toNat

/-- The stamp of a record. -/
def asctime (clock : Clock) : Text :=
  match clock.known with
  | none   => decimal clock.secs ++ ',' :: zeroPadded 3 clock.millis
  | some t =>
    yearText t.year ++ '-' :: zeroPadded 2 t.month ++ '-' :: zeroPadded 2 t.day ++ ' ' ::
      zeroPadded 2 t.hour ++ ':' :: zeroPadded 2 t.minute ++ ':' :: zeroPadded 2 t.second ++ ',' ::
      zeroPadded 3 clock.millis

/-- How a level is written. -/
def Level.asStr : Level → Text
  | .debug   => "DEBUG"
  | .info    => "INFO"
  | .warning => "WARNING"
  | .error   => "ERROR"

/-! ### The messages -/

/-- A sender's address, with the interface it is reached by. -/
structure Host where
  ip : Text
  zone : Option Text
  address : ip.head?.any (fun c => c == ':' || c.isDigit || ('a' ≤ c && c ≤ 'f')) = true

/-- How it is written. -/
def Host.text (host : Host) : Text :=
  match host.zone with
  | some zone => host.ip ++ '%' :: zone
  | none      => host.ip

/-- Letters, digits and some marks. -/
def isLabelChar (c : Char) : Bool := c.isAlphanum || c == '-' || c == '_' || c == '.'

/-- The `TransferID` of an upload as the log shows it. -/
def transferLabel (header : Text) : Text :=
  let label := ((header.filter isLabelChar).take 64).dropWhile (· == '.')
  if label = [] then "upload" else label

/-- The longest list of stored names on a line, in bytes. -/
@[irreducible] def maxStoredLineBytes : Nat := 16 * 1024

/-- The lines of the rest of the names, when `lines` are full and `line` has some names already. -/
def storedLinesFrom (lines : List Text) (line : Text) : List Text → List Text
  | []            => if line ≠ [] ∨ lines = [] then lines ++ [line] else lines
  | name :: names =>
    if line ≠ [] ∧ maxStoredLineBytes < (utf8 line).length + 2 + (utf8 name).length then
      storedLinesFrom (lines ++ [line]) name names
    else storedLinesFrom lines (if line = [] then name else line ++ ", ".toList ++ name) names

/-- The names that were stored, as lines that are not too long. -/
def storedLines (names : List Text) : List Text := storedLinesFrom [] [] names

/-- What is logged at level INFO. -/
inductive Info
  | connection (peer : Host) (port : Nat)
  | handshakeClosed (peer : Host) (port : Nat)
  | handshakeFailed (peer : Host) (port : Nat) (error : Text)
  | session (peer : Host) (port : Nat) (version suite : Text) (certificates : Nat)
  | timedOut (peer : Host)
  | request (peer : Host) (requestLine : Text) (status : Nat)
  | errorSent (peer : Host) (status : Nat) (message : Text)
  | withheld (why detail : Text)
  | asked (sender model types : Text) (files : Nat) (listing : Text)
  | accepted (why : Text)
  | linkStored (stored url : Text)
  | uploadBudget (header : Text) (percent free limit : Nat)
  | uploadRead (header : Text) (wire : Nat) (totalBytes : Text)
  | uploadDecoded (header : Text) (bytes : Nat) (magic : Text)
  | uploadStored (header names : Text)
  | identity (source note : Text)
  | removed (count : Nat) (dest : Text)
  | config (path summary : Text)
  | serving (sid name model iface : Text) (port : Nat) (dest : Text)

/-- The message of an upload. -/
def uploadText (header rest : Text) : Text :=
  "upload ".toList ++ transferLabel header ++ ": ".toList ++ rest

/-- An address with a port. -/
def peerText (peer : Host) (port : Nat) : Text := '[' :: peer.text ++ "]:".toList ++ decimal port

/-- The text of a message. -/
def Info.text : Info → Text
  | .connection peer port => "connection from ".toList ++ peerText peer port
  | .handshakeClosed peer port =>
    "TLS handshake with ".toList ++ peerText peer port ++ " failed: connection closed".toList
  | .handshakeFailed peer port error =>
    "TLS handshake with ".toList ++ peerText peer port ++ " failed: ".toList ++ error
  | .session peer port version suite certificates =>
    "TLS with ".toList ++ peerText peer port ++ ": ".toList ++ version ++ ", ".toList ++ suite ++
      ", client certificate: ".toList ++
      if certificates = 0 then "none".toList
      else decimal certificates ++ "-certificate chain".toList
  | .timedOut peer => peer.text ++ " Request timed out: TimeoutError('timed out')".toList
  | .request peer requestLine status =>
    peer.text ++ " \"".toList ++ requestLine ++ "\" ".toList ++ decimal status ++ " -".toList
  | .errorSent peer status message =>
    peer.text ++ " code ".toList ++ decimal status ++ ", message ".toList ++ message
  | .withheld why detail => "discovery withheld (contacts only): ".toList ++ why ++ detail
  | .asked sender model types files listing =>
    "ask from ".toList ++ sender ++ " (".toList ++ model ++ "): type ".toList ++ types ++
      ", ".toList ++ decimal files ++ " item(s): ".toList ++ listing
  | .accepted why => "ask accepted: ".toList ++ why
  | .linkStored stored url => "link stored as ".toList ++ stored ++ " -> ".toList ++ url
  | .uploadBudget header percent free limit =>
    uploadText header (decimal percent ++ "% of ".toList ++ decimal free ++
      " free bytes allows ".toList ++ decimal limit ++ " bytes".toList)
  | .uploadRead header wire totalBytes =>
    uploadText header
      (decimal wire ++ " bytes dvzip (TotalBytes ".toList ++ totalBytes ++ ")".toList)
  | .uploadDecoded header bytes magic =>
    uploadText header ("decoded to ".toList ++ decimal bytes ++ " bytes, magic ".toList ++ magic)
  | .uploadStored header names => uploadText header ("stored ".toList ++ names)
  | .identity source note => "identity: ".toList ++ source ++ note
  | .removed count dest =>
    "removed ".toList ++ decimal count ++ " unfinished upload file(s) left in ".toList ++ dest
  | .config path summary => "config ".toList ++ path ++ ": ".toList ++ summary
  | .serving sid name model iface port dest =>
    "serving ".toList ++ sid ++ "._airdrop._tcp.local as ".toList ++ name ++ " (".toList ++ model ++
      ") on [".toList ++ iface ++ "]:".toList ++ decimal port ++ ", receiving into ".toList ++ dest

/-- A record of the log. -/
inductive LogRecord
  | info (message : Info)
  | other (level : Level) (text : Text) (serious : level ≠ .info)

/-- How serious it is. -/
def LogRecord.level : LogRecord → Level
  | .info _        => .info
  | .other level _ _ => level

/-- Its message. -/
def LogRecord.text : LogRecord → Text
  | .info message => message.text
  | .other _ text _ => text

/-- The line of a message, without its end. -/
def logLine (clock : Clock) (level : Level) (message : Text) : Text :=
  asctime clock ++ ' ' :: level.asStr ++ " root: ".toList ++ escape message

/-- What is written for a record. -/
def emitted (clock : Clock) (r : LogRecord) : Text := logLine clock r.level r.text ++ ['\n']

/-- The text of a log. -/
def logText (log : List (Clock × LogRecord)) : Text := log.flatMap fun x => emitted x.1 x.2

/-! ### What an escape leaves -/

/-- Is a character shown as it is? -/
def IsPlain (c : Char) : Prop := escapeChar c = [c]

instance (c : Char) : Decidable (IsPlain c) := inferInstanceAs (Decidable (escapeChar c = [c]))

theorem isPlain_iff {c : Char} :
    IsPlain c ↔ Text.isControl c = false ∧ inRanges disguiseRanges c = false := by
  have hlong : ∀ mark t : Text, mark.length = 2 → mark ++ t ≠ [c] := by
    intro mark t hmark heq
    have hlen := congrArg List.length heq
    rw [List.length_append, hmark, List.length_singleton] at hlen
    omega
  unfold IsPlain escapeChar
  split_ifs with hcontrol hdisguise
  · exact iff_of_false (hlong _ _ rfl) fun h => by simp [hcontrol] at h
  · exact iff_of_false (hlong _ _ rfl) fun h => by simp [hdisguise] at h
  · exact iff_of_true rfl ⟨eq_false_of_ne_true hcontrol, eq_false_of_ne_true hdisguise⟩

/-- What is printed in ASCII is shown as it is. -/
theorem isPlain_of_ascii {c : Char} (h : 0x20 ≤ c.toNat ∧ c.toNat < 0x7f) : IsPlain c := by
  have hlow : ∀ r ∈ disguiseRanges, 0x7f ≤ r.1 := by decide
  rw [isPlain_iff]
  constructor
  · unfold Text.isControl
    rw [Bool.or_eq_false_iff, Bool.and_eq_false_iff]
    simp only [decide_eq_false_iff_not]
    omega
  · rw [inRanges, List.any_eq_false]
    intro r hr
    have := hlow r hr
    simp only [Bool.and_eq_true, decide_eq_true_eq]
    omega

theorem isPlain_of_isDigit {c : Char} (h : c.isDigit = true) : IsPlain c := by
  rw [isDigit_iff] at h
  exact isPlain_of_ascii (by omega)

theorem mem_hex {width n : Nat} {c : Char} (h : c ∈ hex width n) :
    ∃ d < 16, c = Char.ofNat (digitCode d) := by
  obtain ⟨code, hcode, rfl⟩ := List.mem_map.mp h
  rw [padded, List.leftpad, List.mem_append] at hcode
  rcases hcode with hcode | hcode
  · exact ⟨0, by decide, by rw [List.eq_of_mem_replicate hcode]; rfl⟩
  · obtain ⟨d, hd, rfl⟩ := digitVal_of_mem_numeral (by omega) (by omega) hcode
    exact ⟨d, hd, rfl⟩

private theorem isPlain_of_mem_escapeChar {c d : Char} (h : d ∈ escapeChar c) : IsPlain d := by
  have hhex : ∀ {width n : Nat}, d ∈ hex width n → IsPlain d := fun hd => by
    have hdigit : ∀ k < 16, IsPlain (Char.ofNat (digitCode k)) := by decide
    obtain ⟨k, hk, rfl⟩ := mem_hex hd
    exact hdigit k hk
  have hx : ∀ d ∈ "\\x".toList, IsPlain d := by decide
  have hu : ∀ d ∈ "\\u".toList, IsPlain d := by decide
  unfold escapeChar at h
  split_ifs at h with hcontrol hdisguise
  · exact (List.mem_append.mp h).elim (hx d) hhex
  · exact (List.mem_append.mp h).elim (hu d) hhex
  · rw [List.mem_singleton] at h
    rw [h]
    exact isPlain_iff.mpr ⟨eq_false_of_ne_true hcontrol, eq_false_of_ne_true hdisguise⟩

theorem flatMap_escapeChar {t : Text} (h : ∀ c ∈ t, IsPlain c) : t.flatMap escapeChar = t := by
  induction t with
  | nil => rfl
  | cons c t ih =>
    rw [List.forall_mem_cons] at h
    rw [List.flatMap_cons, ih h.2, h.1]
    rfl

theorem takeBytes_isPrefix (room : Nat) (t : Text) : takeBytes room t <+: t := by
  induction t generalizing room with
  | nil => exact List.prefix_refl _
  | cons c t ih =>
    rw [takeBytes]
    split
    · exact List.prefix_cons_inj c |>.mpr (ih _)
    · exact List.nil_prefix

/-- No more is cut off than has to be. -/
theorem prefix_takeBytes {front : Text} {room : Nat} (h : (utf8 front).length ≤ room)
    (rest : Text) : front <+: takeBytes room (front ++ rest) := by
  induction front generalizing room with
  | nil => exact List.nil_prefix
  | cons c front ih =>
    have hsize : (utf8 (c :: front)).length = (utf8 [c]).length + (utf8 front).length := by
      rw [← List.length_append, ← utf8_append]
      rfl
    rw [hsize] at h
    rw [List.cons_append, takeBytes, if_pos (by omega)]
    exact List.prefix_cons_inj c |>.mpr (ih (by omega))

/-- What a message starts with is in the log, if it is plain and not too long. -/
theorem prefix_escape {front : Text} (hplain : ∀ c ∈ front, IsPlain c)
    (h : (utf8 front).length ≤ maxMessageBytes) (rest : Text) :
    front <+: escape (front ++ rest) := by
  unfold escape
  rw [List.flatMap_append, flatMap_escapeChar hplain]
  dsimp only
  split
  · have hkept := prefix_takeBytes h (rest.flatMap escapeChar)
    rw [List.append_assoc, List.append_assoc]
    exact hkept.trans (List.prefix_append _ _)
  · exact List.prefix_append _ _

/-- A plain message is written as it is. -/
theorem escape_of_plain {t : Text} (hplain : ∀ c ∈ t, IsPlain c)
    (h : (utf8 t).length ≤ maxMessageBytes) : escape t = t := by
  unfold escape
  rw [flatMap_escapeChar hplain]
  dsimp only
  rw [if_neg (by omega)]

/-- The log has no other characters. -/
theorem isPlain_of_mem_escape {message : Text} {c : Char} (h : c ∈ escape message) : IsPlain c := by
  have hout : ∀ c ∈ message.flatMap escapeChar, IsPlain c := by
    intro c hc
    obtain ⟨d, -, hd⟩ := List.mem_flatMap.mp hc
    exact isPlain_of_mem_escapeChar hd
  have hsays : ∀ c ∈ " [... ".toList ++ " more bytes]".toList, IsPlain c := by decide
  unfold escape at h
  dsimp only at h
  split at h
  · rw [List.mem_append, List.mem_append, List.mem_append] at h
    rcases h with ((h | h) | h) | h
    · exact hout c ((takeBytes_isPrefix _ _).subset h)
    · exact hsays c (List.mem_append_left _ h)
    · exact isPlain_of_isDigit (isDigit_of_mem_decimal h)
    · exact hsays c (List.mem_append_right _ h)
  · exact hout c h

/-- The characters of a stamp. -/
private theorem mem_asctime {clock : Clock} {c : Char} (h : c ∈ asctime clock) :
    c.isDigit = true ∨ c ∈ "-:, ".toList := by
  have hyear : ∀ {year : Int}, c ∈ yearText year → c.isDigit = true ∨ c ∈ "-:, ".toList := by
    intro year h
    unfold yearText at h
    split at h
    · rcases List.mem_cons.mp h with rfl | h
      · exact .inr (by decide)
      · exact .inl (isDigit_of_mem_zeroPadded h)
    · exact .inl (isDigit_of_mem_zeroPadded h)
  have hmark : ∀ d ∈ "-:, ".toList, c = d → c.isDigit = true ∨ c ∈ "-:, ".toList := by
    rintro d hd rfl
    exact .inr hd
  have hnumber : ∀ {width n : Nat}, c ∈ zeroPadded width n → c.isDigit = true ∨ c ∈ "-:, ".toList :=
    fun h => .inl (isDigit_of_mem_zeroPadded h)
  have hthen : ∀ {front back : Text} {d : Char}, d ∈ "-:, ".toList →
      (c ∈ front → c.isDigit = true ∨ c ∈ "-:, ".toList) →
      (c ∈ back → c.isDigit = true ∨ c ∈ "-:, ".toList) →
        c ∈ front ++ d :: back → c.isDigit = true ∨ c ∈ "-:, ".toList := by
    intro front back d hd hfront hback h
    rcases List.mem_append.mp h with h | h
    · exact hfront h
    · rcases List.mem_cons.mp h with rfl | h
      · exact .inr hd
      · exact hback h
  unfold asctime at h
  split at h
  · exact hthen (by decide) (fun h => .inl (isDigit_of_mem_decimal h)) hnumber h
  · exact hthen (by decide) (hthen (by decide) (hthen (by decide) (hthen (by decide)
      (hthen (by decide) (hthen (by decide) hyear hnumber) hnumber) hnumber) hnumber) hnumber)
        hnumber h

/-- **A record is one line**, without controls. -/
theorem emitted_isLine (clock : Clock) (r : LogRecord) :
    ∀ c ∈ logLine clock r.level r.text, Text.isControl c = false := by
  have hlevel : ∀ level : Level, ∀ c ∈ ' ' :: level.asStr ++ " root: ".toList,
      Text.isControl c = false := by
    intro level
    cases level <;> decide
  have hstamp : ∀ c ∈ "-:, ".toList, Text.isControl c = false := by decide
  intro c h
  rw [logLine, List.append_assoc, List.append_assoc, List.mem_append, ← List.append_assoc,
    List.mem_append] at h
  rcases h with h | h | h
  · rcases mem_asctime h with hdigit | hmark
    · exact (isPlain_iff.mp (isPlain_of_isDigit hdigit)).1
    · exact hstamp c hmark
  · exact hlevel r.level c h
  · exact (isPlain_iff.mp (isPlain_of_mem_escape h)).1

/-- **The lines of a log are its records.** -/
theorem linesOn_logText (log : List (Clock × LogRecord)) :
    linesOn (· == '\n') (logText log) = log.map fun x => logLine x.1 x.2.level x.2.text := by
  have hunlines : logText log = unlines (log.map fun x => logLine x.1 x.2.level x.2.text) := by
    rw [unlines, List.flatMap_map]
    rfl
  rw [hunlines]
  refine linesOn_unlines rfl fun line hline c hc => ?_
  obtain ⟨x, -, rfl⟩ := List.mem_map.mp hline
  have hcontrol := emitted_isLine x.1 x.2 c hc
  by_contra hend
  rw [Bool.not_eq_false, beq_iff_eq] at hend
  rw [hend] at hcontrol
  cases hcontrol

end Omdrop.Receiver
