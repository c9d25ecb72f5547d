import Omdrop.Cli.Rows
import Omdrop.Text.Utf8

namespace Omdrop.Send

open Omdrop.Text

/-!
# Nearby peers

A peer is known by its address, a `Mac`; `linkLocal` is where it answers.  `row` is the line that
a listing has for it, and `parseRow_row` what that line is read as.
-/

/-- A hardware address, as it is written in lower case. -/
structure Mac where
  text : Text
  isMac : Cli.isMac text = true
  deriving DecidableEq

/-! ### Where a peer answers -/

/-- One byte of an address: at most two characters. -/
def parseOctet (part : Text) : Option Nat :=
  if part.isEmpty ∨ 2 < (utf8 part).length then none
  else
    -- a plus sign may stand before a digit
    let digits := if part.head? = some '+' ∧ 1 < part.length then part.drop 1 else part
    if digits.isEmpty then none else value 16 (digits.map Char.toNat)

/-- The six bytes of an address. -/
def parseMac (mac : Text) : Option (List Nat) :=
  match mac.splitOn ':' with
  | [a, b, c, d, e, f] => [a, b, c, d, e, f].mapM parseOctet
  | _                  => none

/-- The segments of the address that a peer with that hardware address has on its link. -/
def eui64LinkLocal : List Nat → List Nat
  | [a, b, c, d, e, f] => [0xfe80, 0, 0, 0, (a ^^^ 0x02) * 256 + b, c * 256 + 0xff, 0xfe * 256 + d,
      e * 256 + f]
  | _ => []

/-- Where a run of zeros starts, and how long it is. -/
structure Span where
  start : Nat
  len : Nat

/-- The first of the longest runs of zeros: the run that is going on, the longest one so far, and
    the segments from the `i`-th on. -/
def zeroRun (current longest : Span) (i : Nat) : List Nat → Span
  | []      => longest
  | s :: ss =>
    if s = 0 then
      let current : Span := ⟨if current.len = 0 then i else current.start, current.len + 1⟩
      zeroRun current (if longest.len < current.len then current else longest) (i + 1) ss
    else zeroRun ⟨0, 0⟩ longest (i + 1) ss

/-- Segments with colons between them. -/
def showSegments (ss : List Nat) : Text := [':'].intercalate (ss.map (hex 1))

/-- An address that holds no IPv4 address, as it is written. -/
def showIpv6 (ss : List Nat) : Text :=
  let run := zeroRun ⟨0, 0⟩ ⟨0, 0⟩ 0 ss
  if 1 < run.len then
    showSegments (ss.take run.start) ++ "::".toList ++ showSegments (ss.drop (run.start + run.len))
  else showSegments ss

/-- Where a peer answers, as it is written. -/
def linkLocal (mac : Text) : Option Text := (parseMac mac).map (showIpv6 <| eui64LinkLocal ·)

/-! ### Its row -/

/-- A signal, four characters wide. -/
def signal : Option Int → Text
  | some r => (decimalInt r).leftpad 4 ' ' ++ " dBm".toList
  | none   => "   ? dBm"

/-- What is shown of an answer: whether there was none, whether it came without a name, or the
    name. -/
def shown : Option Text → Text
  | some [] => "(anonymous)"
  | some n  => n
  | none    => "(no response)"

/-- A peer's line in a listing, with its answer when names were asked for. -/
def row (port : Nat) (mac : Text) (rssi : Option Int) (got : Option Text) (named : Bool) : Text :=
  mac ++ "  ".toList ++ signal rssi ++ "  [".toList ++ (linkLocal mac).getD [] ++
    "%awdl0]:".toList ++ decimal port ++ if named then "  ".toList ++ shown got else []

/-- A signal as it stands in a row. -/
def rssiText : Option Int → Text
  | some r => decimalInt r
  | none   => "?"

/-! ### What a row is read as -/

theorem isSignal_rssiText (rssi : Option Int) : Cli.IsSignal (rssiText rssi) := by
  cases rssi with
  | none => exact .inl rfl
  | some n => exact .inr ⟨n, rfl⟩

/-- A printed signal is white space and then the signal. -/
theorem signal_eq (rssi : Option Int) :
    ∃ k, signal rssi = List.replicate k ' ' ++ (rssiText rssi ++ " dBm".toList) := by
  cases rssi with
  | none => exact ⟨3, rfl⟩
  | some n => exact ⟨4 - (decimalInt n).length, List.append_assoc _ _ _⟩

/-- Hexadecimal digits are no white space. -/
theorem isSpace_hex {n : Nat} {c : Char} (h : c ∈ hex 1 n) : Cli.isSpace c = false := by
  have hdigit : ∀ d < 16, Cli.isSpace (Char.ofNat (digitCode d)) = false := by decide
  obtain ⟨code, hcode, rfl⟩ := List.mem_map.mp h
  unfold padded List.leftpad at hcode
  rcases List.mem_append.mp hcode with hzero | hcode
  · rw [List.eq_of_mem_replicate hzero]
    rfl
  · obtain ⟨d, hd, rfl⟩ := digitVal_of_mem_numeral (by omega) (by omega) hcode
    exact hdigit d hd

theorem isSpace_showSegments {ss : List Nat} {c : Char} (h : c ∈ showSegments ss) :
    Cli.isSpace c = false := by
  unfold showSegments at h
  induction ss with
  | nil => simp at h
  | cons s ss ih =>
    cases ss with
    | nil =>
      rw [List.map_singleton, List.intercalate_singleton] at h
      exact isSpace_hex h
    | cons s' ss =>
      rw [List.map_cons, List.map_cons, List.intercalate_cons_cons, List.append_assoc] at h
      rcases List.mem_append.mp h with h | h
      · exact isSpace_hex h
      · rcases List.mem_append.mp h with h | h
        · rw [List.mem_singleton.mp h]
          rfl
        · exact ih h

/-- An address is no white space. -/
private theorem isSpace_showIpv6 {ss : List Nat} {c : Char} (h : c ∈ showIpv6 ss) :
    Cli.isSpace c = false := by
  unfold showIpv6 at h
  dsimp only at h
  split_ifs at h
  · rw [List.append_assoc] at h
    rcases List.mem_append.mp h with h | h
    · exact isSpace_showSegments h
    · rcases List.mem_append.mp h with h | h
      · have hcolon : ∀ c ∈ "::".toList, Cli.isSpace c = false := by decide
        exact hcolon c h
      · exact isSpace_showSegments h
  · exact isSpace_showSegments h

/-- Where a peer is dialled: an address, the interface and the port. -/
def endpoint (port : Nat) (mac : Text) : Text :=
  "[".toList ++ (linkLocal mac).getD [] ++ "%awdl0]:".toList ++ decimal port

theorem isSpace_endpoint {port : Nat} {mac : Text} {c : Char} (h : c ∈ endpoint port mac) :
    Cli.isSpace c = false := by
  have hfixed : ∀ c ∈ "[".toList ++ "%awdl0]:".toList, Cli.isSpace c = false := by decide
  unfold endpoint at h
  rcases List.mem_append.mp h with h | h
  · rcases List.mem_append.mp h with h | h
    · rcases List.mem_append.mp h with h | h
      · exact hfixed c (List.mem_append_left _ h)
      · cases hll : parseMac mac with
        | none => simp [linkLocal, hll] at h
        | some bytes =>
          rw [linkLocal, hll] at h
          exact isSpace_showIpv6 h
    · exact hfixed c (List.mem_append_right _ h)
  · exact Cli.isSpace_of_isDigit (isDigit_of_mem_decimal h)

/-- A line that ends in any text, where a row has what is shown of an answer. -/
private theorem parseRow_front (port : Nat) (mac : Mac) (rssi : Option Int) (t : Text) :
    Cli.parseRow (row port mac.text rssi none false ++ ("  ".toList ++ t)) =
      some ⟨mac.text, rssiText rssi, t.dropWhile Cli.isSpace⟩ := by
  obtain ⟨k, hk⟩ := signal_eq rssi
  have hform : row port mac.text rssi none false ++ ("  ".toList ++ t) = mac.text ++
      (("  ".toList ++ List.replicate k ' ') ++ (rssiText rssi ++
        (" dBm  ".toList ++ (endpoint port mac.text ++ ("  ".toList ++ t))))) := by
    have hdbm : " dBm  ".toList = " dBm".toList ++ "  ".toList := rfl
    have hopen : "  [".toList = "  ".toList ++ "[".toList := rfl
    unfold row endpoint
    rw [hk, hdbm, hopen]
    simp only [Bool.false_eq_true, if_false, List.append_nil, List.append_assoc]
  have hspace : ∀ c ∈ "  ".toList ++ List.replicate k ' ', Cli.isSpace c = true := by
    intro c hc
    have : c = ' ' := by
      rcases List.mem_append.mp hc with hc | hc
      · have htwo : ∀ c ∈ "  ".toList, c = ' ' := by decide
        exact htwo c hc
      · exact List.eq_of_mem_replicate hc
    rw [this]
    rfl
  have htail : ("  ".toList ++ t).dropWhile Cli.isSpace = t.dropWhile Cli.isSpace := rfl
  rw [hform, Cli.parseRow_line mac.isMac (by simp) hspace (isSignal_rssiText rssi)
    (by simp [endpoint]) (fun c => isSpace_endpoint) (by simp +decide), htail]

theorem row_eq (port : Nat) (mac : Text) (rssi : Option Int) (got : Option Text) :
    row port mac rssi got true = row port mac rssi none false ++ ("  ".toList ++ shown got) := by
  unfold row
  simp

private theorem shown_ne_nil (got : Option Text) : shown got ≠ [] := by
  unfold shown
  split <;> simp_all

/-- A row is one line, if what is shown in it is. -/
theorem newline_not_mem_row {port : Nat} {mac : Mac} {rssi : Option Int} {got : Option Text}
    (h : '\n' ∉ shown got) : '\n' ∉ row port mac.text rssi got true := by
  have hmac : '\n' ∉ mac.text := by
    have hdigit : ∀ c i, (if i % 3 == 2 then c == ':' else Cli.isMacDigit c) = true → c ≠ '\n' := by
      rintro c i hc rfl
      split_ifs at hc
      · exact absurd hc (by decide)
      · exact absurd hc (by decide)
    intro hmem
    have hall := mac.isMac
    unfold Cli.isMac at hall
    rw [Bool.and_eq_true, List.all_eq_true] at hall
    obtain ⟨i, hi⟩ := List.mem_iff_getElem?.mp hmem
    have hzip : ('\n', i) ∈ mac.text.zipIdx := List.mk_mem_zipIdx_iff_getElem?.mpr hi
    exact hdigit _ _ (hall.2 _ hzip) rfl
  have hdigits (n : Nat) : '\n' ∉ decimal n := fun hmem => by
    simpa using isDigit_of_mem_decimal hmem
  have hsignal : '\n' ∉ signal rssi := by
    obtain ⟨k, hk⟩ := signal_eq rssi
    have hrssi : '\n' ∉ rssiText rssi := by
      cases rssi with
      | none => decide
      | some n =>
        unfold rssiText decimalInt
        by_cases hn : n < 0
        · simp [hn, hdigits]
        · simp [hn, hdigits]
    simp [hk, hrssi, List.mem_replicate]
  have hendpoint : '\n' ∉ endpoint port mac.text := fun hmem =>
    absurd (isSpace_endpoint hmem) (by decide)
  have hform : row port mac.text rssi got true = mac.text ++ ("  ".toList ++ (signal rssi ++
      ("  ".toList ++ (endpoint port mac.text ++ ("  ".toList ++ shown got))))) := by
    have hopen : "  [".toList = "  ".toList ++ "[".toList := rfl
    unfold row endpoint
    rw [hopen]
    simp only [if_true, List.append_assoc]
  rw [hform]
  simp only [List.mem_append, not_or]
  exact ⟨hmac, by decide, hsignal, by decide, hendpoint, by decide, h⟩

/-- **A row is read back**, but for white space before the name and a carriage return behind
    it. -/
theorem parseRow_row (port : Nat) (mac : Mac) (rssi : Option Int) (got : Option Text) :
    Cli.parseRow (stripCr (row port mac.text rssi got true)) =
      some ⟨mac.text, rssiText rssi, (stripCr (shown got)).dropWhile Cli.isSpace⟩ := by
  have hstrip : stripCr (row port mac.text rssi got true) =
      row port mac.text rssi none false ++ ("  ".toList ++ stripCr (shown got)) := by
    have hne := shown_ne_nil got
    rw [row_eq]
    unfold stripCr
    rw [List.getLast?_append_of_ne_nil _ (by simp), List.getLast?_append_of_ne_nil _ hne]
    split_ifs
    · rw [List.dropLast_append_of_ne_nil (by simp), List.dropLast_append_of_ne_nil hne]
    · rfl
  rw [hstrip, parseRow_front]

/-- What is shown comes back as it is, if it neither starts with white space nor ends with a
    carriage return. -/
theorem dropWhile_stripCr_iff {t : Text} (hne : t ≠ []) :
    (stripCr t).dropWhile Cli.isSpace = t ↔
      (∀ c, t.head? = some c → Cli.isSpace c = false) ∧ t.getLast? ≠ some '\r' := by
  constructor
  · intro h
    have hlen := congrArg List.length h
    have hdrop := (List.dropWhile_suffix Cli.isSpace (l := stripCr t)).length_le
    have hlast : t.getLast? ≠ some '\r' := by
      intro hlast
      unfold stripCr at hlen hdrop
      rw [if_pos hlast] at hlen hdrop
      have hpos := List.length_pos_iff.mpr hne
      rw [List.length_dropLast] at hdrop
      omega
    refine ⟨fun c hc => ?_, hlast⟩
    unfold stripCr at h
    rw [if_neg hlast] at h
    obtain ⟨d, ds, rfl⟩ := List.exists_cons_of_ne_nil hne
    obtain rfl : d = c := by simpa using hc
    by_contra hspace
    rw [List.dropWhile_cons_of_pos (by simpa using hspace)] at h
    have := (List.dropWhile_suffix Cli.isSpace (l := ds)).length_le
    rw [h, List.length_cons] at this
    omega
  · rintro ⟨hhead, hlast⟩
    unfold stripCr
    rw [if_neg hlast]
    obtain ⟨d, ds, rfl⟩ := List.exists_cons_of_ne_nil hne
    exact List.dropWhile_cons_of_neg (by rw [hhead d rfl]; decide)

end Omdrop.Send
