import Mathlib.Data.List.AList
import Omdrop.Text.Json
import Omdrop.Text.Lines
import Omdrop.Text.Utf8

namespace Omdrop.Identity

open Omdrop.Text

/-!
# The identity contract

The formats of the files and the cache that the identity commands share: settings, the window
file and the payload of the cache key.  `lookup_parseSettings` says that the last line that sets
a key decides it, and `Payload` carries the order of its times.
-/

/-- The characters that end a line. -/
def isLineEnd (c : Char) : Bool :=
  c == '\n' || c == '\r' || c == '\x0b' || c == '\x0c' || c == '\x1c' || c == '\x1d' ||
    c == '\x1e' || c == '\x85' || c == '\u2028' || c == '\u2029'

/-- The lines of a text. -/
def splitlines (text : Text) : List Text := linesOn isLineEnd text

/-- Settings by their keys. -/
abbrev Settings := AList fun _ : Text => Text

/-- Read one line of settings. -/
def Settings.addLine (out : Settings) (line : Text) : Settings :=
  match splitOnce line with
  | some (k, v) => out.insert k v
  | none        => out

/-- `key=value` lines; the last occurrence of a key wins; lines without `=` are ignored. -/
def parseSettings (text : Text) : Settings := (splitlines text).foldl Settings.addLine ∅

/-- What the last of some lines that speaks of a key says about it. -/
def lastValue (key : Text) (lines : List Text) : Option Text :=
  lines.reverse.findSome? (valueOf key)

/-- A line that sets a key decides, and else what was there. -/
private theorem lookup_addLine (out : Settings) (line key : Text) :
    (out.addLine line).lookup key = (valueOf key line).or (out.lookup key) := by
  unfold Settings.addLine valueOf
  cases splitOnce line with
  | none => rfl
  | some kv =>
    obtain ⟨k, v⟩ := kv
    by_cases h : k = key
    · subst h
      simp [AList.lookup_insert]
    · simp [h, AList.lookup_insert_ne (Ne.symm h)]

/-- The last line that sets a key decides, and else what was there. -/
private theorem lookup_foldl_addLine (lines : List Text) (out : Settings) (key : Text) :
    (lines.foldl Settings.addLine out).lookup key = (lastValue key lines).or (out.lookup key) := by
  induction lines generalizing out with
  | nil => rfl
  | cons line lines ih =>
    rw [List.foldl_cons, ih, lookup_addLine, ← Option.or_assoc]
    simp [lastValue, List.findSome?_append]

/-- **The last line decides.** -/
theorem lookup_parseSettings (text key : Text) :
    (parseSettings text).lookup key = lastValue key (splitlines text) := by
  show ((splitlines text).foldl Settings.addLine ∅).lookup key = _
  rw [lookup_foldl_addLine, AList.lookup_empty, Option.or_none]

/-- Lines that hold no line end are read as they were written. -/
theorem splitlines_unlines {lines : List Text} (h : ∀ l ∈ lines, Unbroken isLineEnd l) :
    splitlines (unlines lines) = lines := linesOn_unlines rfl h

/-! ### The window file -/

/-- 32 lower-case hexadecimal digits. -/
def isFetchId (s : Text) : Bool :=
  s.length == 32 && s.all fun c => c.isDigit || ('a' ≤ c && c ≤ 'f')

/-- What a parsed window file says. -/
inductive Window
  | onePassword (fetchId : Text) (hardExpiry : Int)
  | disk
  | selfSigned
  deriving DecidableEq, Repr

/-- The name of a source. -/
def Window.source : Window → Text
  | onePassword .. => "1password"
  | disk           => "disk"
  | selfSigned     => "self-signed"

/-- The largest signed 64-bit integer. -/
def maxI64 : Nat := 2 ^ 63 - 1

/-- A decimal, or the largest integer when it is larger. -/
def parseExpiry (digits : Text) : Nat := min ((ofDecimal digits).getD maxI64) maxI64

/-- The window file's contents, or `none` when it is unparseable. -/
def parseWindow (text : Text) : Option Window :=
  let fields := parseSettings text
  match fields.lookup "source".toList with
  | none => none
  | some source =>
    if source = "disk".toList then some .disk
    else if source = "self-signed".toList then some .selfSigned
    else if source = "1password".toList then
      let fetchId : Text := (fields.lookup "fetch_id".toList).getD []
      let expiry : Text := (fields.lookup "hard_expiry".toList).getD []
      if !isFetchId fetchId || !allDigits expiry then none
      else some (.onePassword fetchId (parseExpiry expiry))
    else none

/-- The window file as the commands see it. -/
inductive WindowState
  | absent
  | unparseable
  | parsed (window : Window)
  deriving DecidableEq, Repr

/-! ### The payload of the cache key -/

/-- The first line of a payload. -/
def magic : List UInt8 := utf8 "OMDROP-IDENTITY 1".toList

/-- The longest that a payload is good for, in seconds. -/
def maxLifetime : Int := 86400

/-- The most bytes of one of its parts. -/
def maxPart : Int := 16384

/-- The most bytes of a payload. -/
def maxPayload : Nat := 32767

/-- The members of its header. -/
def headerKeys : List Text :=
  ["certificate", "fetch_id", "fetched_at", "hard_expiry", "key", "period_ends", "record"]

/-- A parsed cache payload. -/
structure Payload where
  fetchId : Text
  fetchedAt : Int
  periodEnds : Int
  hardExpiry : Int
  certificate : List UInt8
  key : List UInt8
  record : List UInt8
  isFetchId : isFetchId fetchId = true
  ordered : 0 ≤ fetchedAt ∧ fetchedAt ≤ periodEnds ∧ periodEnds ≤ hardExpiry
  lifetime : hardExpiry - fetchedAt ≤ maxLifetime

/-- A JSON integer that is at least zero. -/
def nonnegInt (v : Json) : Option Int := v.asI64.filter (0 ≤ ·)

/-- The bytes before the first line feed, and those after it. -/
def splitLine (data : List UInt8) : Option (List UInt8 × List UInt8) :=
  match data.dropWhile (· ≠ 10) with
  | []        => none
  | _ :: rest => some (data.takeWhile (· ≠ 10), rest)

/-- The length of a part. -/
def partLength (v : Json) : Option Nat :=
  (nonnegInt v).bind fun n => if 1 ≤ n ∧ n ≤ maxPart then some n.toNat else none

variable [SerdeJson]

/-- The cache payload, or `none` when it is malformed. -/
def parsePayload (data : List UInt8) : Option Payload := do
  if data.length > maxPayload then none
  let (first, rest) ← splitLine data
  if first ≠ magic then none
  let (header, body) ← splitLine rest
  let fields ← SerdeJson.members header
  -- a duplicate key is malformed
  if ¬ (fields.map Prod.fst).Nodup then none
  if fields.length ≠ headerKeys.length ∨ ¬ headerKeys.all (fields.map Prod.fst).contains then none
  let field (k : String) := fields.lookup k.toList
  let fetchId ← (← field "fetch_id").asStr
  let t0 ← nonnegInt (← field "fetched_at")
  let t1 ← nonnegInt (← field "period_ends")
  let t2 ← nonnegInt (← field "hard_expiry")
  let c ← partLength (← field "certificate")
  let k ← partLength (← field "key")
  let r ← partLength (← field "record")
  if body.length ≠ c + k + r then none
  if h : isFetchId fetchId = true ∧ (0 ≤ t0 ∧ t0 ≤ t1 ∧ t1 ≤ t2) ∧ t2 - t0 ≤ maxLifetime then
    some {
      fetchId, fetchedAt := t0, periodEnds := t1, hardExpiry := t2
      certificate := body.take c
      key := (body.drop c).take k
      record := body.drop (c + k)
      isFetchId := h.1, ordered := h.2.1, lifetime := h.2.2 }
  else none

/-- The header of a payload: compact JSON with its keys sorted. -/
def payloadHeader (fetchId : Text) (fetchedAt periodEnds hardExpiry : Int)
    (certificate key record : List UInt8) : Text :=
  "\x7b\"certificate\":".toList ++ decimal certificate.length ++
  ",\"fetch_id\":".toList ++ SerdeJson.quote fetchId ++
  ",\"fetched_at\":".toList ++ decimalInt fetchedAt ++
  ",\"hard_expiry\":".toList ++ decimalInt hardExpiry ++
  ",\"key\":".toList ++ decimal key.length ++
  ",\"period_ends\":".toList ++ decimalInt periodEnds ++
  ",\"record\":".toList ++ decimal record.length ++ "\x7d".toList

/-- Frame a payload; `none` when the result would not parse. -/
def encodePayload (fetchId : Text) (fetchedAt periodEnds hardExpiry : Int)
    (certificate key record : List UInt8) : Option (List UInt8) :=
  let header := payloadHeader fetchId fetchedAt periodEnds hardExpiry certificate key record
  let data := magic ++ 10 :: utf8 header ++ 10 :: certificate ++ key ++ record
  (parsePayload data).map fun _ => data

end Omdrop.Identity
