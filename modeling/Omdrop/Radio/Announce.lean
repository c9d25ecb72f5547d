import Omdrop.Text.Fields
import Omdrop.Text.Json
import Omdrop.Text.Utf8

namespace Omdrop.Radio

open Omdrop.Text

/-!
# Announce settings

How the receiver is announced: the burst and the interval that the `up` hook asks for on its
standard output, kept as a line in the run directory and read from there by the supervisor.
What is read is in range whatever the text (`parse_cases`), and `announce_codec` puts the
line, its reader and the decimal interval of the announcer together.
-/

/-- The announcer's burst and interval. -/
structure Announce where
  count : Nat
  intervalUs : Nat
  periodS : Nat
  plain : Bool
  mdns : Bool
deriving DecidableEq

namespace Announce

/-- 40 frames for each interval are what reaches the other devices through four active slots of
    sixteen. -/
instance : Inhabited Announce := ⟨40, 20000, 6, false, true⟩

/-- Every number is within its range. -/
structure Valid (a : Announce) : Prop where
  count : 1 ≤ a.count ∧ a.count ≤ 256
  intervalUs : 1000 ≤ a.intervalUs ∧ a.intervalUs ≤ 1000000
  periodS : 1 ≤ a.periodS ∧ a.periodS ≤ 60

theorem valid_default : Valid default := ⟨by decide, by decide, by decide⟩

/-! ### From the hook -/

/-- A member of an object in place of a default, or its name when its value is of no use. -/
def slot {α : Type} (read : Json → Option α) (v : Json) (key : Text) (d : α) : α × List Text :=
  match v.get key with
  | none   => (d, [])
  | some x =>
    match read x with
    | some y => (y, [])
    | none   => (d, [key])

/-- A number from `lo` to `hi`. -/
def num (lo hi : Nat) (x : Json) : Option Nat := x.asU64.filter fun n => lo ≤ n ∧ n ≤ hi

/-- What the log says of the members that are of no use. -/
def ignored (bad : List Text) : List Text :=
  if bad = [] then []
  else ["up: ignored invalid ".toList ++ [',', ' '].intercalate bad ++
    "; using defaults for them".toList]

/-- The settings that the hook's output asks for, and what is logged of it. -/
def fromUpStdout [SerdeJson] (out : List UInt8) : Announce × List Text :=
  let d : Announce := default
  let text := trim (fromUtf8Lossy out)
  if text = [] then (d, [])
  else
    match SerdeJson.value (utf8 text) with
    | some (.obj members) =>
      let v := Json.obj members
      let mdns := slot Json.asBool v "mdns" d.mdns
      match v.get "announce" with
      | none => ({ d with mdns := mdns.1 }, ignored mdns.2)
      | some (.obj members') =>
        let an := Json.obj members'
        let count := slot (num 1 256) an "count" d.count
        let intervalUs := slot (num 1000 1000000) an "interval_us" d.intervalUs
        let periodS := slot (num 1 60) an "period_s" d.periodS
        let plain := slot Json.asBool an "plain" d.plain
        (⟨count.1, intervalUs.1, periodS.1, plain.1, mdns.1⟩,
          ignored (mdns.2 ++ count.2 ++ intervalUs.2 ++ periodS.2 ++ plain.2))
      | some _ =>
        ({ d with mdns := mdns.1 },
          ["up: announce is not an object; using the default announcer".toList])
    | _ => (d, ["up: stdout is not a JSON object; using the default announcer".toList])

theorem slot_num {lo hi d : Nat} (hd : lo ≤ d ∧ d ≤ hi) (v : Json) (key : Text) :
    lo ≤ (slot (num lo hi) v key d).1 ∧ (slot (num lo hi) v key d).1 ≤ hi := by
  unfold slot
  split
  · exact hd
  · split
    · rename_i hread
      simpa using (Option.filter_eq_some_iff.mp hread).2
    · exact hd

/-- Whatever the hook prints, the settings are in range. -/
theorem valid_fromUpStdout [SerdeJson] (out : List UInt8) : (fromUpStdout out).1.Valid := by
  have hmdns : ∀ b, Valid { (default : Announce) with mdns := b } :=
    fun _ => ⟨valid_default.count, valid_default.intervalUs, valid_default.periodS⟩
  simp only [fromUpStdout]
  split
  · exact valid_default
  · split
    · split
      · exact hmdns _
      · exact ⟨slot_num valid_default.count _ _, slot_num valid_default.intervalUs _ _,
          slot_num valid_default.periodS _ _⟩
      · exact hmdns _
    · exact valid_default

/-! ### The line -/

/-- The fields of the line. -/
def fields (a : Announce) : List Text :=
  [decimal a.count, decimal a.intervalUs, decimal a.periodS, decimal a.plain.toNat,
    decimal a.mdns.toNat]

/-- The line that is kept. -/
def line (a : Announce) : Text :=
  decimal a.count ++ ' ' :: decimal a.intervalUs ++ ' ' :: decimal a.periodS ++
    ' ' :: decimal a.plain.toNat ++ ' ' :: decimal a.mdns.toNat ++ ['\n']

/-- The fields tell the settings. -/
private theorem fields_injective {a b : Announce} (h : a.fields = b.fields) : a = b := by
  have hback : ∀ {m n}, decimal m = decimal n → m = n := fun {m n} hmn => by
    simpa using congrArg ofDecimal hmn
  have hflag : ∀ {b c : Bool}, decimal b.toNat = decimal c.toNat → b = c := fun {b c} hbc => by
    have hnat := hback hbc
    cases b <;> cases c <;> first | rfl | exact absurd hnat (by decide)
  simp only [fields, List.cons.injEq, and_true] at h
  obtain ⟨hcount, hinterval, hperiod, hplain, hmdns⟩ := h
  obtain ⟨count, intervalUs, periodS, plain, mdns⟩ := a
  rw [Announce.mk.injEq]
  exact ⟨hback hcount, hback hinterval, hback hperiod, hflag hplain, hflag hmdns⟩

theorem splitWhitespace_line (a : Announce) : splitWhitespace a.line = a.fields := by
  have hspace : isWhitespace ' ' = true := by decide
  have hend : isWhitespace '\n' = true := by decide
  simp only [line, fields, List.append_assoc, List.cons_append,
    splitWhitespace_decimal _ hspace, splitWhitespace_decimal _ hend, splitWhitespace_nil]

/-- The number in a field, if it is from `lo` to `hi`. -/
def numAt (f : List Text) (i lo hi : Nat) : Option Nat :=
  (((f[i]?).filter isUint).bind (parseUnsigned 64)).filter fun n => lo ≤ n ∧ n ≤ hi

/-- The flag in a field. -/
def flagAt (f : List Text) (i : Nat) : Option Bool :=
  match f[i]? with
  | some ['1'] => some true
  | some ['0'] => some false
  | _          => none

/-- The settings that are kept, or the default when there are none or they do not hold up. -/
def parse (s : Option Text) : Announce :=
  match s with
  | none   => default
  | some s =>
    let f := splitWhitespace s
    match numAt f 0 1 256, numAt f 1 1000 1000000, numAt f 2 1 60, flagAt f 3, flagAt f 4 with
    | some count, some intervalUs, some periodS, some plain, some mdns =>
      if f.length = 5 then ⟨count, intervalUs, periodS, plain, mdns⟩ else default
    | _, _, _, _, _ => default

theorem numAt_eq_some {f : List Text} {i lo hi n : Nat} (hhi : hi < 10 ^ 12) :
    numAt f i lo hi = some n ↔ f[i]? = some (decimal n) ∧ lo ≤ n ∧ n ≤ hi := by
  have hwidth : ∀ {m}, m < 10 ^ 12 → m < 2 ^ 64 := fun h => h.trans (by decide)
  constructor
  · intro h
    obtain ⟨h, hrange⟩ := Option.filter_eq_some_iff.mp h
    obtain ⟨x, hx, hparse⟩ := Option.bind_eq_some_iff.mp h
    obtain ⟨hx, huint⟩ := Option.filter_eq_some_iff.mp hx
    obtain ⟨m, rfl, hlen⟩ := canonical_iff.mp huint
    have hm : m < 10 ^ 12 := lt_of_length_decimal hlen
    rw [parseUnsigned_decimal (hwidth hm), Option.some.injEq] at hparse
    rw [hparse] at hx
    exact ⟨hx, by simpa using hrange⟩
  · rintro ⟨hx, hrange⟩
    have hn : n < 10 ^ 12 := by omega
    have huint : isUint (decimal n) = true :=
      canonical_iff.mpr ⟨n, rfl, length_decimal_le (by omega) hn⟩
    rw [numAt, hx, Option.filter_some, if_pos huint, Option.bind_some,
      parseUnsigned_decimal (hwidth hn), Option.filter_some, if_pos (by simpa using hrange)]

theorem flagAt_eq_some {f : List Text} {i : Nat} {b : Bool} :
    flagAt f i = some b ↔ f[i]? = some (decimal b.toNat) := by
  have htrue : decimal true.toNat = ['1'] := by decide +kernel
  have hfalse : decimal false.toNat = ['0'] := by decide +kernel
  unfold flagAt
  split <;> rename_i h <;> cases b <;> simp_all

/-- **The reader in full**: settings in range whose fields these are, or the default when there
    are none. -/
theorem parse_cases (s : Text) :
    (∃ a : Announce, a.Valid ∧ splitWhitespace s = a.fields ∧ parse (some s) = a) ∨
      (¬ ∃ a : Announce, a.Valid ∧ splitWhitespace s = a.fields) ∧ parse (some s) = default := by
  by_cases h : ∃ a : Announce, a.Valid ∧ splitWhitespace s = a.fields
  · obtain ⟨a, ha, hf⟩ := h
    refine .inl ⟨a, ha, hf, ?_⟩
    have hcount : numAt a.fields 0 1 256 = some a.count :=
      (numAt_eq_some (by decide)).mpr ⟨rfl, ha.count⟩
    have hinterval : numAt a.fields 1 1000 1000000 = some a.intervalUs :=
      (numAt_eq_some (by decide)).mpr ⟨rfl, ha.intervalUs⟩
    have hperiod : numAt a.fields 2 1 60 = some a.periodS :=
      (numAt_eq_some (by decide)).mpr ⟨rfl, ha.periodS⟩
    have hplain : flagAt a.fields 3 = some a.plain := flagAt_eq_some.mpr rfl
    have hmdns : flagAt a.fields 4 = some a.mdns := flagAt_eq_some.mpr rfl
    simp only [parse, hf, hcount, hinterval, hperiod, hplain, hmdns]
    rfl
  · refine .inr ⟨h, ?_⟩
    simp only [parse]
    split
    · rename_i count intervalUs periodS plain mdns hcount hinterval hperiod hplain hmdns
      rw [numAt_eq_some (by decide)] at hcount hinterval hperiod
      rw [flagAt_eq_some] at hplain hmdns
      refine if_neg fun hlen => h ⟨⟨count, intervalUs, periodS, plain, mdns⟩,
        ⟨hcount.2, hinterval.2, hperiod.2⟩, ?_⟩
      -- five fields, each the one that the line of these settings has
      refine List.ext_getElem? fun i => ?_
      match i with
      | 0 => exact hcount.1
      | 1 => exact hinterval.1
      | 2 => exact hperiod.1
      | 3 => exact hplain
      | 4 => exact hmdns
      | i + 5 =>
        rw [List.getElem?_eq_none (by omega), List.getElem?_eq_none (by simp [fields])]
    · rfl

/-! ### The interval -/

/-- The interval in seconds, as the announcer reads it: 20000 is `0.02`. -/
def intervalArg (a : Announce) : Text :=
  let s := decimal (a.intervalUs / 1000000) ++ '.' :: zeroPadded 6 (a.intervalUs % 1000000)
  (s.rdropWhile (· == '0')).rdropWhile (· == '.')

/-- The interval is exact. -/
private theorem decimalValue_intervalArg (a : Announce) :
    decimalValue a.intervalArg = some ((a.intervalUs : ℚ) / 10 ^ 6) := by
  have hr : a.intervalUs % 1000000 < 10 ^ 6 := Nat.mod_lt _ (by decide)
  have hlen : (zeroPadded 6 (a.intervalUs % 1000000)).length = 6 :=
    length_zeroPadded (by omega) hr
  have hdigits : ∀ c ∈ zeroPadded 6 (a.intervalUs % 1000000), c.isDigit = true :=
    fun _ hc => isDigit_of_mem_zeroPadded hc
  have hvalue : ofDecimal (decimal (a.intervalUs / 1000000) ++
      zeroPadded 6 (a.intervalUs % 1000000)) = some a.intervalUs := by
    rw [ofDecimal_append, ofDecimal_decimal, Option.bind_some, ofDecimal_zeroPadded,
      Option.map_some, hlen]
    exact congrArg some (Nat.div_add_mod' _ _)
  rw [intervalArg, decimalValue_trimmed (allDigits_decimal _) hdigits, hvalue, hlen]
  rfl

example : intervalArg { (default : Announce) with intervalUs := 16400 } = "0.0164".toList := by
  decide +kernel

/-- **Announce settings**: what is kept is read back, what is read is in range whatever the text
    says, the default standing for whatever is not the line of settings in range, and the
    announcer's interval is exactly the microseconds that are set. -/
theorem announce_codec :
    (∀ a : Announce, a.Valid → parse (some a.line) = a) ∧
    (∀ s : Text, (parse (some s)).Valid ∧
      ((¬ ∃ a : Announce, a.Valid ∧ splitWhitespace s = a.fields) → parse (some s) = default)) ∧
    (∀ a : Announce, decimalValue a.intervalArg = some ((a.intervalUs : ℚ) / 10 ^ 6)) := by
  refine ⟨fun a ha => ?_, fun s => ?_, decimalValue_intervalArg⟩
  · rcases parse_cases a.line with ⟨b, hb, hfields, hparse⟩ | ⟨hnone, -⟩
    · rw [hparse]
      exact (fields_injective (splitWhitespace_line a ▸ hfields)).symm
    · exact absurd ⟨a, ha, splitWhitespace_line a⟩ hnone
  · rcases parse_cases s with ⟨a, ha, hfields, hparse⟩ | ⟨hnone, hparse⟩
    · exact ⟨hparse ▸ ha, fun h => absurd ⟨a, ha, hfields⟩ h⟩
    · exact ⟨hparse ▸ valid_default, fun _ => hparse⟩

/-- A burst of 64 frames every 16.4 milliseconds, for three seconds and without mDNS. -/
theorem announce_codec_burst :
    let a : Announce := ⟨64, 16400, 3, true, false⟩
    a.Valid ∧ a.line = "64 16400 3 1 0\n".toList ∧ parse (some a.line) = a ∧
      decimalValue a.intervalArg = some ((16400 : ℚ) / 10 ^ 6) := by
  intro a
  have hvalid : a.Valid := ⟨by decide, by decide, by decide⟩
  exact ⟨hvalid, by decide +kernel, announce_codec.1 a hvalid, announce_codec.2.2 a⟩

end Announce

end Omdrop.Radio
