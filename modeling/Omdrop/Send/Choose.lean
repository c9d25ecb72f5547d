import Mathlib.Data.List.Infix
import Mathlib.Data.List.Nodup
import Omdrop.Send.Listing
import Omdrop.Text.Unicode

namespace Omdrop.Send

open Omdrop.Text

/-!
# Who it is sent to

`chooseMac` is the sender's choice among the peers heard, and `choosePeer` the choice of the program
that runs the sender, among the rows of a listing.  `choose_iff` says for which spellings of an
address they choose the peer that has it.
-/

/-! ### Addresses -/

/-- Is it an address without its colons? -/
def fullMac (want : Text) : Bool :=
  (utf8 want).length == 12 &&
    (utf8 want).all fun b => (0x30 ≤ b && b ≤ 0x39) || (0x61 ≤ b && b ≤ 0x66)

/-- Is it, in lower case, an address rather than a name? -/
def isAddress (want : Text) : Bool := decide (':' ∈ want) || fullMac want

/-- An address without its colons. -/
def Mac.bare (mac : Mac) : Text := mac.text.filter (· ≠ ':')

/-- A MAC is six pairs of digits with colons between. -/
theorem isMac_form {t : Text} (h : Cli.isMac t = true) :
    ∃ a b c d e f g i j k l m, t = [a, b, ':', c, d, ':', e, f, ':', g, i, ':', j, k, ':', l, m] ∧
      ∀ x ∈ [a, b, c, d, e, f, g, i, j, k, l, m], Cli.isMacDigit x = true := by
  unfold Cli.isMac at h
  rw [Bool.and_eq_true, beq_iff_eq] at h
  obtain ⟨hlen, hall⟩ := h
  match t, hlen with
  | [a, b, x₁, c, d, x₂, e, f, x₃, g, i, x₄, j, k, x₅, l, m], _ =>
    simp at hall
    obtain ⟨ha, hb, rfl, hc, hd, rfl, he, hf, rfl, hg, hi, rfl, hj, hk, rfl, hl, hm⟩ := hall
    refine ⟨a, b, c, d, e, f, g, i, j, k, l, m, rfl, ?_⟩
    simp [*]

/-- A digit of an address is one of ten digits or one of six letters. -/
theorem toNat_of_isMacDigit {c : Char} (h : Cli.isMacDigit c = true) :
    48 ≤ c.toNat ∧ c.toNat ≤ 57 ∨ 97 ≤ c.toNat ∧ c.toNat ≤ 102 := by
  unfold Cli.isMacDigit at h
  simpa [Char.isDigit, Char.le_def, UInt32.le_iff_toNat_le] using h

/-- An address as a person may give it: with its colons or without, in any letter case. -/
def Spells (given : Text) (mac : Mac) : Prop :=
  given.map Char.toLower = mac.text ∨ given.map Char.toLower = mac.bare

/-- Without its colons it is of twelve digits. -/
theorem Mac.bare_spec (mac : Mac) :
    mac.bare.length = 12 ∧ ∀ x ∈ mac.bare, Cli.isMacDigit x = true := by
  obtain ⟨a, b, c, d, e, f, g, i, j, k, l, m, htext, hdigits⟩ := isMac_form mac.isMac
  have hne : ∀ x ∈ [a, b, c, d, e, f, g, i, j, k, l, m], x ≠ ':' := by
    rintro x hx rfl
    exact absurd (hdigits _ hx) (by decide)
  have hbare : mac.bare = [a, b, c, d, e, f, g, i, j, k, l, m] := by
    unfold Mac.bare
    rw [htext]
    simp only [List.forall_mem_cons] at hne
    simp [hne]
  rw [hbare]
  exact ⟨rfl, hdigits⟩

/-- With them it is of 17 characters. -/
theorem Mac.length_text (mac : Mac) : mac.text.length = 17 := by
  obtain ⟨a, b, c, d, e, f, g, i, j, k, l, m, htext, -⟩ := isMac_form mac.isMac
  rw [htext]
  rfl

/-- Every third character is a colon. -/
theorem Mac.colon_at (mac : Mac) {k : Nat} (hk : k < 17) (h3 : k % 3 = 2) :
    mac.text[k]? = some ':' := by
  obtain ⟨a, b, c, d, e, f, g, i, j, k', l, m, htext, -⟩ := isMac_form mac.isMac
  have hcolon : k = 2 ∨ k = 5 ∨ k = 8 ∨ k = 11 ∨ k = 14 := by omega
  rw [htext]
  rcases hcolon with rfl | rfl | rfl | rfl | rfl <;> rfl

/-- A MAC's text holds a colon. -/
theorem Mac.colon_mem (mac : Mac) : ':' ∈ mac.text :=
  List.mem_of_getElem? (mac.colon_at (by decide : 2 < 17) rfl)

/-- The digits of a MAC hold no colon. -/
theorem Mac.colon_not_mem_bare (mac : Mac) : ':' ∉ mac.bare := fun h =>
  absurd (mac.bare_spec.2 _ h) (by decide)

/-- **No address has another's twelve digits in a row**, for there is a colon among any three
    characters of it. -/
theorem Mac.not_infix_bare (m mac : Mac) : ¬ mac.bare <:+: m.text := by
  rintro ⟨pre, post, h⟩
  have hlen := congrArg List.length h
  rw [List.length_append, List.length_append, mac.bare_spec.1, m.length_text] at hlen
  -- the first colon behind what stands in front of the digits
  have hcolon := m.colon_at (k := pre.length + (2 + 2 * pre.length) % 3) (by omega) (by omega)
  rw [← h, List.append_assoc, List.getElem?_append_right (by omega), Nat.add_sub_cancel_left,
    List.getElem?_append_left (by rw [mac.bare_spec.1]; omega)] at hcolon
  exact mac.colon_not_mem_bare (List.mem_of_getElem? hcolon)

/-- Only the address itself has all of an address. -/
theorem Mac.infix_iff (m mac : Mac) : mac.text <:+: m.text ↔ m = mac := by
  constructor
  · intro h
    have heq := h.eq_of_length (by rw [mac.length_text, m.length_text])
    cases m
    cases mac
    simp_all
  · rintro rfl
    exact List.infix_rfl

/-- A MAC's text is an address. -/
private theorem isAddress_text (mac : Mac) : isAddress mac.text = true := by
  unfold isAddress
  rw [decide_eq_true mac.colon_mem, Bool.true_or]

/-- The twelve digits of a MAC are a full one. -/
private theorem fullMac_bare (mac : Mac) : fullMac mac.bare = true := by
  have hascii : ∀ c ∈ mac.bare, c.toNat < 0x80 := fun c hc => by
    have := toNat_of_isMacDigit (mac.bare_spec.2 c hc)
    omega
  unfold fullMac
  rw [utf8_ascii hascii, List.length_map, mac.bare_spec.1, Bool.and_eq_true]
  refine ⟨rfl, List.all_eq_true.mpr fun b hb => ?_⟩
  obtain ⟨c, hc, rfl⟩ := List.mem_map.mp hb
  have hdigit := toNat_of_isMacDigit (mac.bare_spec.2 c hc)
  simp only [Bool.or_eq_true, Bool.and_eq_true, decide_eq_true_eq, UInt8.le_iff_toNat_le,
    UInt8.toNat_ofNat']
  show (48 ≤ _ ∧ _ ≤ 57) ∨ (97 ≤ _ ∧ _ ≤ 102)
  omega

/-- The twelve digits of a MAC are an address. -/
private theorem isAddress_bare (mac : Mac) : isAddress mac.bare = true := by
  unfold isAddress
  rw [fullMac_bare, Bool.or_true]

section

variable {given : Text} {mac : Mac}

/-- No other character becomes a colon. -/
private theorem toLower_eq_colon (c : Char) : c.toLower = ':' ↔ c = ':' := by
  constructor
  · intro h
    have hcode := toNat_toLower c
    rw [h] at hcode
    have hcolon : ':'.toNat = 58 := rfl
    exact Char.toNat_inj.mp (by omega)
  · rintro rfl
    rfl

/-- The spelling with colons is the one that has a colon. -/
theorem Spells.colon_mem_iff (h : Spells given mac) :
    ':' ∈ given ↔ given.map Char.toLower = mac.text := by
  have hmap : ':' ∈ given ↔ ':' ∈ given.map Char.toLower := by
    rw [List.mem_map]
    constructor
    · exact fun hmem => ⟨_, hmem, rfl⟩
    · rintro ⟨c, hc, hlower⟩
      rwa [(toLower_eq_colon c).mp hlower] at hc
  rw [hmap]
  constructor
  · intro hmem
    refine h.resolve_right fun hbare => ?_
    rw [hbare] at hmem
    exact mac.colon_not_mem_bare hmem
  · intro htext
    rw [htext]
    exact mac.colon_mem

/-- A spelling is ASCII text. -/
theorem Spells.ascii (h : Spells given mac) : ∀ c ∈ given, c.toNat < 0x80 := by
  intro c hc
  have hmem : c.toLower ∈ mac.text := by
    have hmem := List.mem_map_of_mem (f := Char.toLower) hc
    rcases h with h | h
    · rwa [h] at hmem
    · rw [h] at hmem
      exact (List.mem_filter.mp hmem).1
  have hcode : c.toLower.toNat < 0x80 := by
    by_cases hcolon : c.toLower = ':'
    · rw [hcolon]
      decide
    · have hbare : c.toLower ∈ mac.bare := List.mem_filter.mpr ⟨hmem, by simpa using hcolon⟩
      have := toNat_of_isMacDigit (mac.bare_spec.2 _ hbare)
      omega
  have := toNat_toLower c
  omega

/-- One entry has a key, if no key stands twice. -/
private theorem filter_key {β : Type} {entries : List β} {key : β → Mac}
    (hnodup : (entries.map key).Nodup) {e : β} (he : e ∈ entries) :
    entries.filter (fun x => key x = key e) = [e] := by
  induction entries with
  | nil => cases he
  | cons x xs ih =>
    rw [List.map_cons, List.nodup_cons] at hnodup
    rcases List.mem_cons.mp he with rfl | he
    · have hrest : xs.filter (fun x => key x = key e) = [] :=
        List.filter_eq_nil_iff.mpr fun y hy => by
          have hne : key y ≠ key e := fun h => hnodup.1 (h ▸ List.mem_map_of_mem hy)
          simpa using hne
      rw [List.filter_cons_of_pos (by simp), hrest]
    · have hne : key x ≠ key e := fun h => hnodup.1 (h ▸ List.mem_map_of_mem he)
      rw [List.filter_cons_of_neg (by simpa using hne), ih hnodup.2 he]

/-- What a spelling matches among entries of which no address stands twice. -/
theorem Spells.filter {β : Type} {entries : List β} {key : β → Mac}
    (hnodup : (entries.map key).Nodup) {e : β} (he : e ∈ entries) (hgiven : Spells given (key e)) :
    entries.filter (fun x => given.map Char.toLower <:+: (key x).text) =
      if ':' ∈ given then [e] else [] := by
  split_ifs with hcolon
  · simp only [hgiven.colon_mem_iff.mp hcolon, Mac.infix_iff]
    exact filter_key hnodup he
  · rw [hgiven.resolve_left (mt hgiven.colon_mem_iff.mpr hcolon)]
    exact List.filter_eq_nil_iff.mpr fun x _ => by simpa using (key x).not_infix_bare (key e)

end

/-! ### The rows of a plain listing -/

/-- A row without an answer is read as it is. -/
private theorem parseRow_plain (port : Nat) (mac : Mac) (rssi : Option Int) :
    Cli.parseRow (row port mac.text rssi none false) = some ⟨mac.text, rssiText rssi, []⟩ := by
  obtain ⟨k, hk⟩ := signal_eq rssi
  have hform : row port mac.text rssi none false = mac.text ++
      (("  ".toList ++ List.replicate k ' ') ++ (rssiText rssi ++
        (" dBm  ".toList ++ (endpoint port mac.text ++ [])))) := by
    have hdbm : " dBm  ".toList = " dBm".toList ++ "  ".toList := rfl
    have hopen : "  [".toList = "  ".toList ++ "[".toList := rfl
    unfold row endpoint
    rw [hk, hdbm, hopen]
    simp only [Bool.false_eq_true, if_false, List.append_nil, List.append_assoc]
  have hspace : ∀ c ∈ "  ".toList ++ List.replicate k ' ', Cli.isSpace c = true := by
    intro c hc
    rcases List.mem_append.mp hc with hc | hc
    · have htwo : ∀ c ∈ "  ".toList, Cli.isSpace c = true := by decide
      exact htwo c hc
    · rw [List.eq_of_mem_replicate hc]
      rfl
  rw [hform, Cli.parseRow_line mac.isMac (by simp) hspace (isSignal_rssiText rssi)
    (by simp [endpoint]) (fun c => isSpace_endpoint) (by simp)]
  rfl

/-- It ends with a digit. -/
theorem row_plain_eq (port : Nat) (mac : Mac) (rssi : Option Int) :
    ∃ front c, row port mac.text rssi none false = front ++ [c] ∧ c.isDigit = true := by
  have hne := decimal_ne_nil port
  refine ⟨mac.text ++ "  ".toList ++ signal rssi ++ "  [".toList ++ (linkLocal mac.text).getD [] ++
    "%awdl0]:".toList ++ (decimal port).dropLast, (decimal port).getLast hne, ?_,
    isDigit_of_mem_decimal (List.getLast_mem hne)⟩
  unfold row
  rw [if_neg (by decide), List.append_nil, List.append_assoc _ _ [_],
    List.dropLast_append_getLast]

/-- No row of it holds a line feed. -/
private theorem newline_not_mem_row_plain (port : Nat) (mac : Mac) (rssi : Option Int) :
    '\n' ∉ row port mac.text rssi none false := by
  have hrow : '\n' ∉ row port mac.text rssi (some []) true := newline_not_mem_row (by decide)
  rw [row_eq, List.mem_append, not_or] at hrow
  exact hrow.1

/-- **A plain listing is read as the peers heard.** -/
theorem rows_plain {port : Nat} {stream : Bool} {heard : Peers} {out : Text}
    (hheard : heard.entries ≠ []) (h : list port false stream heard [] = some out) :
    Cli.rows ((fromUtf8Lossy (utf8 out)).rdropWhile (· == '\n')) =
      heard.entries.map fun e => ⟨e.1.text, rssiText e.2, []⟩ := by
  have hout : out = unlines (heard.entries.map fun e => row port e.1.text e.2 none false) := by
    unfold list at h
    rw [if_pos (by simp), if_neg (by simp), if_neg hheard] at h
    exact (Option.some.inj h).symm
  have hcr (e : Mac × Option Int) : stripCr (row port e.1.text e.2 none false) =
      row port e.1.text e.2 none false := by
    obtain ⟨front, c, hrow, hc⟩ := row_plain_eq port e.1 e.2
    have hne : c ≠ '\r' := by
      rintro rfl
      cases hc
    unfold stripCr
    rw [if_neg]
    rw [hrow]
    simpa using hne
  have hlines : ∀ l ∈ heard.entries.map fun e => row port e.1.text e.2 none false,
      l ≠ [] ∧ '\n' ∉ l ∧ stripCr l = l := by
    intro l hl
    obtain ⟨e, -, rfl⟩ := List.mem_map.mp hl
    refine ⟨?_, newline_not_mem_row_plain port e.1 e.2, hcr e⟩
    obtain ⟨front, c, hrow, -⟩ := row_plain_eq port e.1 e.2
    rw [hrow]
    simp
  unfold Cli.rows
  rw [hout, fromUtf8Lossy_utf8, strLines_trimmed hlines, List.filterMap_map]
  simp only [Function.comp_def, parseRow_plain, List.filterMap_eq_map']

section Choices

variable [Unicode]

/-! ### The sender's choice -/

/-- The one that matches. -/
def pick (given : Text) : List Text → Except (List Text) Text
  | []      => .error [given ++ " is not in the peer table; --list shows what is".toList]
  | [mac]   => .ok mac
  | several => .error (("\"".toList ++ given ++ "\" matches more than one device:".toList) ::
      several.map ("    ".toList ++ ·))

/-- What is said when nobody answers to a name. -/
def nobodyAnswers (given : Text) (names : List (Text × Option Text)) : List Text :=
  let named := names.filterMap fun a => (a.2.filter (· ≠ [])).map fun n => (a.1, n)
  ("no device answering to \"".toList ++ given ++ "\" is receiving right now.".toList) ::
    if named = [] then
      ["  no peer would give a name: a device is named only while it is receiving, ".toList ++
        "so open AirDrop on it first.".toList]
    else "  these named themselves:".toList :: named.map fun (m, n) =>
      "    ".toList ++ n ++ "  (".toList ++ m ++ ")".toList

/-- The peer that a text given for it means, among those heard and the answers they gave; without a
    text, the only one heard. -/
def chooseMac (heard : Peers) (names : List (Text × Option Text)) :
    Option Text → Except (List Text) Text
  | some given =>
    let want := Unicode.toLowercase given
    if isAddress want then pick given ((heard.macs.map Mac.text).filter (want <:+: ·))
    else
      let found := (names.filter fun a =>
        a.2.any fun n => n ≠ [] && want <:+: Unicode.toLowercase n).map Prod.fst
      if found = [] then .error (nobodyAnswers given names) else pick given found
  | none       =>
    match heard.entries with
    | [(only, _)] => .ok only.text
    | []          => .error [noDevices]
    | several     => .error ("several peers heard; choose one with --mac:".toList ::
        several.map fun (m, rssi) => "  ".toList ++ m.text ++ "  ".toList ++ signal rssi)

/-! ### The choice of the program that runs it -/

/-- A control character as a shell writes it. -/
def controlEscape (c : Char) : Text :=
  match c with
  | '\n'   => "\\n".toList
  | '\t'   => "\\t".toList
  | '\r'   => "\\r".toList
  | '\x07' => "\\a".toList
  | '\x08' => "\\b".toList
  | '\x0b' => "\\v".toList
  | '\x0c' => "\\f".toList
  | '\x1b' => "\\E".toList
  | _      => (utf8 [c]).flatMap fun b => '\\' :: (padded 8 3 b.toNat).map Char.ofNat

/-- Text between single quotes. -/
def singleQuoted (t : Text) : Text :=
  '\'' :: t.flatMap (fun c => if c = '\'' then "'\\''".toList else [c]) ++ ['\'']

/-- The runs of control characters and of others, each in its quotes. -/
def quotedRuns (t : Text) : Text :=
  (t.splitBy fun a b => isControl a == isControl b).flatMap fun run =>
    if run.any isControl then "$'".toList ++ run.flatMap controlEscape ++ ['\'']
    else singleQuoted run

/-- A word as it is typed into a shell. -/
def shellQuote (t : Text) : Text :=
  let has (cs : String) := t.any (· ∈ cs.toList)
  if t = [] then "''".toList
  else if t.any isControl then
    (if t.head?.any isControl then "''".toList else []) ++ quotedRuns t
  else if !(has " !\"$&'()*;<=>?[\\^`|" || t.head?.any (· ∈ ['#', '~'])) then t
  else if '\'' ∈ t ∧ !has "$`\\\"!" then '"' :: t ++ ['"']
  else singleQuoted t

/-- What is said when several rows match: the commands to choose among them. -/
def severalMatch (want : Text) (payload : List Text) (matching : List Cli.Row) : Text :=
  let quoted := if payload = [] then " ''".toList else payload.flatMap (' ' :: shellQuote ·)
  (if want = [] then "Several Apple devices were found".toList
    else "Several devices match \"".toList ++ want ++ "\"".toList) ++ ". Choose one:".toList ++
  matching.flatMap fun r => "\n  omdrop send --to ".toList ++ r.mac ++ quoted ++ "   (".toList ++
    r.rssi ++ " dBm".toList ++ (if r.name = [] then [] else ", ".toList ++ r.name) ++ ")".toList

/-- The address of the peer that a text means among the rows of a listing, or of what was found when
    the names were looked up for so many seconds; otherwise what is said. -/
def choosePeer (list : Int × List UInt8) (findByName : Text → Text → Text × Int) (nameWait : Nat)
    (given : Text) (payload : List Text) : Except Text Text :=
  let want := Unicode.toLowercase given
  let byName := want ≠ [] && !(':' ∈ want) && !fullMac want
  let (listing, rc) := if byName then findByName want given
    else ((fromUtf8Lossy list.2).rdropWhile (· == '\n'), list.1)
  let rows := Cli.rows listing
  if rc ≠ 0 ∧ rc ≠ 1 then .error listing
  else if rows = [] then
    if byName then .error ("No Apple device was heard in ".toList ++ decimal nameWait ++
      " seconds. Open AirDrop on \"".toList ++ given ++
      "\" so it can be heard, then try again.".toList)
    else .error ("No nearby Apple device found. A window is what finds them, ".toList ++
      "so open one first:  omdrop on 10m".toList)
  else
    let matching := rows.filter fun row =>
      let name := Unicode.toLowercase row.name
      if want = [] then true
      else if byName then
        want <:+: name && name ≠ "(no response)".toList && name ≠ "(anonymous)".toList
      else want <:+: row.mac
    let exact := rows.filter fun row => byName && Unicode.toLowercase row.name = want
    match if exact = [] then matching else exact with
    | []      =>
      if byName then .error ("No device called \"".toList ++ given ++ "\" answered in ".toList ++
        decimal nameWait ++ " seconds. A device gives its name\nonly while it is ready to ".toList ++
        "receive, so open AirDrop on it and try again. What answered:\n".toList ++
        joinLines ((listing.splitOn '\n').map ("  ".toList ++ ·)))
      else .error ("No device matching \"".toList ++ want ++
        "\" was found. See what is nearby:  omdrop peers".toList)
    | [row]   => .ok row.mac
    | several => .error (severalMatch want payload several)

/-! ### Which spellings choose a peer -/

/-- Upper case letters of ASCII text have their lower case, and nothing else in it changes. -/
def LowersAscii : Prop :=
  ∀ t : Text, (∀ c ∈ t, c.toNat < 0x80) → Unicode.toLowercase t = t.map Char.toLower

section

variable {heard : Peers} {mac : Mac} {given : Text}

/-- Either spelling is taken for an address. -/
theorem Spells.isAddress (hgiven : Spells given mac) (hlower : LowersAscii) :
    isAddress (Unicode.toLowercase given) = true := by
  rw [hlower given hgiven.ascii]
  rcases hgiven with h | h
  · rw [h, isAddress_text]
  · rw [h, isAddress_bare]

/-- The sender chooses the peer if the colons are given. -/
theorem chooseMac_eq (hlower : LowersAscii) (hmac : mac ∈ heard.macs) (hgiven : Spells given mac)
    (names : List (Text × Option Text)) :
    chooseMac heard names (some given) = if ':' ∈ given then .ok mac.text
      else .error [given ++ " is not in the peer table; --list shows what is".toList] := by
  have hfilter : (heard.macs.map Mac.text).filter (Unicode.toLowercase given <:+: ·) =
      (if ':' ∈ given then [mac] else []).map Mac.text := by
    rw [List.filter_map, hlower given hgiven.ascii]
    refine congrArg _ ?_
    have hnodup : (heard.macs.map id).Nodup := by
      rw [List.map_id]
      exact heard.nodup
    exact @Spells.filter _ _ _ id hnodup _ hmac hgiven
  unfold chooseMac
  dsimp only
  rw [if_pos (hgiven.isAddress hlower), hfilter]
  split_ifs <;> rfl

/-- The program that runs the sender chooses it if the colons are given. -/
theorem choosePeer_eq (hlower : LowersAscii) (hmac : mac ∈ heard.macs) (hgiven : Spells given mac)
    {port : Nat} {stream : Bool} {out : Text}
    (hout : list port false stream heard [] = some out)
    (findByName : Text → Text → Text × Int) (nameWait : Nat) (payload : List Text) :
    choosePeer (0, utf8 out) findByName nameWait given payload =
      if ':' ∈ given then .ok mac.text
      else .error ("No device matching \"".toList ++ mac.bare ++
        "\" was found. See what is nearby:  omdrop peers".toList) := by
  obtain ⟨e, he, rfl⟩ := List.mem_map.mp hmac
  have hheard : heard.entries ≠ [] := List.ne_nil_of_mem he
  have hwant : Unicode.toLowercase given = given.map Char.toLower := hlower given hgiven.ascii
  have haddress := hgiven.isAddress hlower
  have hbyName : (Unicode.toLowercase given ≠ [] && !(':' ∈ Unicode.toLowercase given) &&
      !fullMac (Unicode.toLowercase given)) = false := by
    unfold isAddress at haddress
    rcases Bool.or_eq_true_iff.mp haddress with h | h
    · rw [h, Bool.not_true, Bool.and_false, Bool.false_and]
    · rw [h, Bool.not_true, Bool.and_false]
  have hnil : Unicode.toLowercase given ≠ [] := by
    intro hnil
    rw [hnil] at haddress
    cases haddress
  have hrows := rows_plain hheard hout
  have hmatch := Spells.filter heard.nodup he hgiven
  unfold choosePeer
  dsimp only
  simp only [hbyName, Bool.false_eq_true, if_false, hrows, if_neg hnil, Bool.false_and,
    List.filter_map, Function.comp_def]
  rw [if_neg (by simp), if_neg (by simpa using hheard), List.filter_false, List.map_nil, if_pos rfl,
    hwant, hmatch]
  split_ifs with hcolon
  · rfl
  · rw [← hgiven.resolve_left (mt hgiven.colon_mem_iff.mpr hcolon)]
    rfl

/-- **Which spellings choose a peer.**  The address of a peer heard is given, with its colons or
    without, in any letter case.  Both programs take it for an address.  They choose the peer if and
    only if it has its colons; otherwise both refuse, and in no case is another peer chosen. -/
theorem choose_iff (hlower : LowersAscii) (hmac : mac ∈ heard.macs) (hgiven : Spells given mac)
    {port : Nat} {stream : Bool} {out : Text} (hout : list port false stream heard [] = some out)
    (names : List (Text × Option Text)) (findByName : Text → Text → Text × Int) (nameWait : Nat)
    (payload : List Text) :
    isAddress (Unicode.toLowercase given) = true ∧
      (chooseMac heard names (some given) = .ok mac.text ↔ ':' ∈ given) ∧
      (choosePeer (0, utf8 out) findByName nameWait given payload = .ok mac.text ↔ ':' ∈ given) ∧
      (∀ m, chooseMac heard names (some given) = .ok m → m = mac.text) ∧
      ∀ m, choosePeer (0, utf8 out) findByName nameWait given payload = .ok m → m = mac.text := by
  rw [chooseMac_eq hlower hmac hgiven, choosePeer_eq hlower hmac hgiven hout]
  refine ⟨hgiven.isAddress hlower, ?_⟩
  split_ifs with hcolon
  · refine ⟨iff_of_true rfl hcolon, iff_of_true rfl hcolon, ?_, ?_⟩
    · rintro m ⟨⟩
      rfl
    · rintro m ⟨⟩
      rfl
  · refine ⟨iff_of_false (by simp) hcolon, iff_of_false (by simp) hcolon, ?_, ?_⟩
    · rintro m ⟨⟩
    · rintro m ⟨⟩

end

end Choices

/-- A peer, and a listing of it alone. -/
def samplePeer : Mac := ⟨"0a:1b:2c:3d:4e:5f".toList, by decide⟩

def samplePeers : Peers := ⟨[(samplePeer, some (-47))], List.nodup_singleton _⟩

/-- With its colons it is chosen, in upper case too. -/
theorem choose_colons :
    @chooseMac .ascii samplePeers [] (some "0A:1B:2C:3D:4E:5F".toList) = .ok samplePeer.text :=
  ((@choose_iff .ascii samplePeers samplePeer _ (fun _ _ => rfl) List.mem_cons_self
    (.inl (by decide)) 8770 false _ rfl [] (fun _ _ => ([], 0)) 0 []).2.1).mpr (by decide)

/-- Its twelve digits are taken for an address, and neither program finds it. -/
theorem choose_digits :
    @isAddress (@Unicode.toLowercase .ascii "0a1b2c3d4e5f".toList) = true ∧
      @chooseMac .ascii samplePeers [] (some "0a1b2c3d4e5f".toList) =
        .error ["0a1b2c3d4e5f is not in the peer table; --list shows what is".toList] ∧
      ∃ out, list 8770 false false samplePeers [] = some out ∧
        @choosePeer .ascii (0, utf8 out) (fun _ _ => ([], 0)) 0 "0a1b2c3d4e5f".toList [] =
          .error ("No device matching \"0a1b2c3d4e5f\" was found. ".toList ++
            "See what is nearby:  omdrop peers".toList) := by
  have hlower : @LowersAscii .ascii := fun _ _ => rfl
  have hgiven : Spells "0a1b2c3d4e5f".toList samplePeer := .inr (by decide)
  have hmem : samplePeer ∈ samplePeers.macs := List.mem_cons_self
  refine ⟨@Spells.isAddress .ascii samplePeer _ hgiven hlower, ?_, _, rfl, ?_⟩
  · rw [@chooseMac_eq .ascii samplePeers samplePeer _ hlower hmem hgiven, if_neg (by decide)]
    rfl
  · rw [@choosePeer_eq .ascii samplePeers samplePeer _ hlower hmem hgiven 8770 false _ rfl,
      if_neg (by decide)]
    rfl

end Omdrop.Send
