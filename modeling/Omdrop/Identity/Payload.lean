import Mathlib.Data.List.Perm.Subperm
import Omdrop.Identity.Contract

namespace Omdrop.Identity

open Omdrop.Text

/-!
# The payload codec

`encodePayload` writes a magic line, a line of JSON and three parts behind one another, and
`parsePayload` takes them apart.  `parsePayload_iff` says which bytes are a payload, and of which
parts; that what is encoded comes back, and that everything `Framable` is encoded, follow.
-/

/-- A line is split off at the first newline. -/
theorem splitLine_iff {data line rest : List UInt8} :
    splitLine data = some (line, rest) ↔ data = line ++ 10 :: rest ∧ 10 ∉ line := by
  induction data generalizing line with
  | nil => simp [splitLine]
  | cons b data ih =>
    by_cases hb : b = 10
    · subst hb
      have hhere : splitLine (10 :: data) = some ([], data) := rfl
      rw [hhere]
      cases line with
      | nil => simp
      | cons c line =>
        constructor
        · intro h
          cases h
        · rintro ⟨h, hline⟩
          cases h
          simp at hline
    · have hskip : splitLine (b :: data) = (splitLine data).map fun p => (b :: p.1, p.2) := by
        simp only [splitLine, List.dropWhile_cons, List.takeWhile_cons, ne_eq, hb,
          not_false_eq_true, decide_true, if_true]
        cases data.dropWhile (· ≠ 10) <;> rfl
      rw [hskip]
      cases line with
      | nil => simp [hb]
      | cons c line =>
        constructor
        · intro h
          obtain ⟨⟨line, rest⟩, hrest, h⟩ := Option.map_eq_some_iff.mp h
          cases h
          obtain ⟨rfl, hline⟩ := ih.mp hrest
          exact ⟨rfl, by simpa [eq_comm] using ⟨hb, hline⟩⟩
        · rintro ⟨h, hline⟩
          cases h
          rw [ih.mpr ⟨rfl, fun hmem => hline (List.mem_cons_of_mem _ hmem)⟩]
          rfl

/-! ### What a payload is made of -/

/-- The parts of what is framed: what `encodePayload` is given and `parsePayload` gives. -/
structure Framed where
  fetchId : Text
  fetchedAt : Int
  periodEnds : Int
  hardExpiry : Int
  certificate : List UInt8
  key : List UInt8
  record : List UInt8
  deriving DecidableEq

/-- What a payload says. -/
def Payload.framed (p : Payload) : Framed :=
  ⟨p.fetchId, p.fetchedAt, p.periodEnds, p.hardExpiry, p.certificate, p.key, p.record⟩

namespace Framed

/-- The members of the header. -/
def fields (x : Framed) : List (Text × Json) :=
  [("certificate", .int x.certificate.length), ("fetch_id", .str x.fetchId),
    ("fetched_at", .int x.fetchedAt), ("hard_expiry", .int x.hardExpiry),
    ("key", .int x.key.length), ("period_ends", .int x.periodEnds),
    ("record", .int x.record.length)]

/-- The three parts. -/
def parts (x : Framed) : List (List UInt8) := [x.certificate, x.key, x.record]

/-- Three parts of a size that the header may state, times in their order and a fetch id. -/
structure Framable (x : Framed) : Prop where
  parts : ∀ part ∈ x.parts, 1 ≤ part.length ∧ part.length ≤ maxPart
  ordered : 0 ≤ x.fetchedAt ∧ x.fetchedAt ≤ x.periodEnds ∧ x.periodEnds ≤ x.hardExpiry
  lifetime : x.hardExpiry - x.fetchedAt ≤ maxLifetime
  fetchId : isFetchId x.fetchId = true

/-- The frame with a header in it. -/
def frame (x : Framed) (header : List UInt8) : List UInt8 :=
  magic ++ 10 :: header ++ 10 :: x.parts.flatten

end Framed

/-! ### Reading the header -/

/-- What counts as a time: an integer that is not negative and fits into 63 bits. -/
theorem nonnegInt_iff {v : Json} {n : Int} :
    nonnegInt v = some n ↔ v = .int n ∧ 0 ≤ n ∧ n < 2 ^ 63 := by
  unfold nonnegInt
  rw [Option.filter_eq_some_iff]
  cases v <;> simp only [Json.asI64, reduceCtorEq, false_and, Json.int.injEq, decide_eq_true_eq]
  rename_i m
  constructor
  · rintro ⟨h, hpos⟩
    split_ifs at h with hm
    cases h
    exact ⟨rfl, hpos, hm.2⟩
  · rintro ⟨rfl, hpos, hlt⟩
    exact ⟨if_pos ⟨by omega, hlt⟩, hpos⟩

/-- What counts as the length of a part: an integer from one to the limit. -/
private theorem partLength_iff {v : Json} {n : Nat} :
    partLength v = some n ↔ v = .int n ∧ 1 ≤ n ∧ n ≤ maxPart := by
  unfold partLength maxPart
  rw [Option.bind_eq_some_iff]
  constructor
  · rintro ⟨m, hm, h⟩
    obtain ⟨rfl, hpos, -⟩ := nonnegInt_iff.mp hm
    split_ifs at h with hrange
    cases h
    rw [Int.toNat_of_nonneg hpos]
    exact ⟨rfl, by omega⟩
  · rintro ⟨rfl, hpos, hle⟩
    refine ⟨n, nonnegInt_iff.mpr ⟨rfl, by omega, by omega⟩, ?_⟩
    rw [if_pos ⟨by omega, hle⟩, Int.toNat_natCast]

section
variable {α : Type} {v : Option Json} {a : α}

/-- A string field that goes on is there and is a string. -/
theorem bind_asStr_iff {f : Text → Option α} :
    (v.bind fun v => v.asStr.bind f) = some a ↔ ∃ s, v = some (.str s) ∧ f s = some a := by
  cases v with
  | none => simp
  | some v => cases v <;> simp [Json.asStr]

/-- A time field that goes on is there and is a time. -/
theorem bind_nonnegInt_iff {f : Int → Option α} :
    (v.bind fun v => (nonnegInt v).bind f) = some a ↔
      ∃ n, v = some (.int n) ∧ (0 ≤ n ∧ n < 2 ^ 63) ∧ f n = some a := by
  simp only [Option.bind_eq_some_iff, nonnegInt_iff]
  constructor
  · rintro ⟨v, rfl, n, ⟨rfl, hn⟩, h⟩
    exact ⟨n, rfl, hn, h⟩
  · rintro ⟨n, rfl, hn, h⟩
    exact ⟨_, rfl, n, ⟨rfl, hn⟩, h⟩

/-- A length field that goes on is there and is a length. -/
theorem bind_partLength_iff {f : Nat → Option α} :
    (v.bind fun v => (partLength v).bind f) = some a ↔
      ∃ n : Nat, v = some (.int n) ∧ (1 ≤ n ∧ n ≤ maxPart) ∧ f n = some a := by
  simp only [Option.bind_eq_some_iff, partLength_iff]
  constructor
  · rintro ⟨v, rfl, n, ⟨rfl, hn⟩, h⟩
    exact ⟨n, rfl, hn, h⟩
  · rintro ⟨n, rfl, hn, h⟩
    exact ⟨_, rfl, n, ⟨rfl, hn⟩, h⟩

end

/-- The payload of what passes the last checks. -/
def Framed.payload (x : Framed) (h : isFetchId x.fetchId = true ∧ (0 ≤ x.fetchedAt ∧
    x.fetchedAt ≤ x.periodEnds ∧ x.periodEnds ≤ x.hardExpiry) ∧
    x.hardExpiry - x.fetchedAt ≤ maxLifetime) : Payload :=
  ⟨x.fetchId, x.fetchedAt, x.periodEnds, x.hardExpiry, x.certificate, x.key, x.record,
    h.1, h.2.1, h.2.2⟩

/-- The payload that is made of a frame is of that frame. -/
theorem Framed.framed_payload (x : Framed) (h) : (x.payload h).framed = x := rfl

/-- What the members of a header and the bytes behind it make. -/
def payloadIn (fields : List (Text × Json)) (body : List UInt8) : Option Payload :=
  (fields.lookup "fetch_id".toList).bind fun v => v.asStr.bind fun fetchId =>
  (fields.lookup "fetched_at".toList).bind fun v => (nonnegInt v).bind fun t0 =>
  (fields.lookup "period_ends".toList).bind fun v => (nonnegInt v).bind fun t1 =>
  (fields.lookup "hard_expiry".toList).bind fun v => (nonnegInt v).bind fun t2 =>
  (fields.lookup "certificate".toList).bind fun v => (partLength v).bind fun c =>
  (fields.lookup "key".toList).bind fun v => (partLength v).bind fun k =>
  (fields.lookup "record".toList).bind fun v => (partLength v).bind fun r =>
  if body.length ≠ c + k + r then none
  else if h : isFetchId fetchId = true ∧ (0 ≤ t0 ∧ t0 ≤ t1 ∧ t1 ≤ t2) ∧ t2 - t0 ≤ maxLifetime then
    some (Framed.payload
      ⟨fetchId, t0, t1, t2, body.take c, (body.drop c).take k, body.drop (c + k)⟩ h)
  else none

/-- What the members of a header say of `x`. -/
structure Framed.Told (x : Framed) (fields : List (Text × Json)) : Prop where
  fetchId : fields.lookup "fetch_id".toList = some (.str x.fetchId)
  fetchedAt : fields.lookup "fetched_at".toList = some (.int x.fetchedAt)
  periodEnds : fields.lookup "period_ends".toList = some (.int x.periodEnds)
  hardExpiry : fields.lookup "hard_expiry".toList = some (.int x.hardExpiry)
  certificate : fields.lookup "certificate".toList = some (.int x.certificate.length)
  key : fields.lookup "key".toList = some (.int x.key.length)
  record : fields.lookup "record".toList = some (.int x.record.length)

/-- A payload that is read is what its header says, and its parts are the body. -/
theorem payloadIn_ok {fields : List (Text × Json)} {body : List UInt8} {p : Payload}
    (h : payloadIn fields body = some p) :
    p.framed.Told fields ∧ p.framed.Framable ∧ p.hardExpiry < 2 ^ 63 ∧
      body = p.framed.parts.flatten := by
  obtain ⟨fetchId, hid, htimes⟩ := bind_asStr_iff.mp h
  obtain ⟨t0, h0, -, hperiod⟩ := bind_nonnegInt_iff.mp htimes
  obtain ⟨t1, h1, -, hexpiry⟩ := bind_nonnegInt_iff.mp hperiod
  obtain ⟨t2, h2, hi64, hlengths⟩ := bind_nonnegInt_iff.mp hexpiry
  obtain ⟨c, hc, hcertificate, hrest⟩ := bind_partLength_iff.mp hlengths
  obtain ⟨k, hk, hkey, hlast⟩ := bind_partLength_iff.mp hrest
  obtain ⟨r, hr, hrecord, hmade⟩ := bind_partLength_iff.mp hlast
  split_ifs at hmade with hlength hgood
  cases hmade
  have hbody : body.length = c + k + r := by simpa using hlength
  have hc_length : (body.take c).length = c := by rw [List.length_take]; omega
  have hk_length : ((body.drop c).take k).length = k := by
    rw [List.length_take, List.length_drop]
    omega
  have hr_length : (body.drop (c + k)).length = r := by rw [List.length_drop]; omega
  refine ⟨⟨hid, h0, h1, h2, ?_, ?_, ?_⟩, ⟨?_, hgood.2.1, hgood.2.2, hgood.1⟩, hi64.2, ?_⟩
  · rw [hc]
    simp only [Framed.framed_payload, hc_length]
  · rw [hk]
    simp only [Framed.framed_payload, hk_length]
  · rw [hr]
    simp only [Framed.framed_payload, hr_length]
  · simp only [Framed.parts, Framed.framed_payload, List.forall_mem_cons, List.not_mem_nil, false_implies,
      implies_true, and_true, hc_length, hk_length, hr_length]
    exact ⟨hcertificate, hkey, hrecord⟩
  · simp [Framed.parts, Framed.framed_payload, ← List.drop_drop]

/-- A header that says what can be framed is read, whatever the order of its fields. -/
private theorem payloadIn_eq {x : Framed} {fields : List (Text × Json)} (htold : x.Told fields)
    (hx : x.Framable) (hi64 : x.hardExpiry < 2 ^ 63) :
    ∃ p, payloadIn fields x.parts.flatten = some p ∧ p.framed = x := by
  obtain ⟨hcertificate, hkey, hrecord, -⟩ :
      (1 ≤ x.certificate.length ∧ x.certificate.length ≤ maxPart) ∧
      (1 ≤ x.key.length ∧ x.key.length ≤ maxPart) ∧
      (1 ≤ x.record.length ∧ x.record.length ≤ maxPart) ∧ True := by
    simpa [Framed.parts] using hx.parts
  obtain ⟨h0, h1, h2⟩ := hx.ordered
  refine ⟨⟨x.fetchId, x.fetchedAt, x.periodEnds, x.hardExpiry, x.certificate, x.key, x.record,
    hx.fetchId, hx.ordered, hx.lifetime⟩, ?_, rfl⟩
  refine bind_asStr_iff.mpr ⟨_, htold.fetchId, ?_⟩
  refine bind_nonnegInt_iff.mpr ⟨_, htold.fetchedAt, ⟨h0, by omega⟩, ?_⟩
  refine bind_nonnegInt_iff.mpr ⟨_, htold.periodEnds, ⟨by omega, by omega⟩, ?_⟩
  refine bind_nonnegInt_iff.mpr ⟨_, htold.hardExpiry, ⟨by omega, hi64⟩, ?_⟩
  refine bind_partLength_iff.mpr ⟨_, htold.certificate, hcertificate, ?_⟩
  refine bind_partLength_iff.mpr ⟨_, htold.key, hkey, ?_⟩
  refine bind_partLength_iff.mpr ⟨_, htold.record, hrecord, ?_⟩
  have hlength : x.parts.flatten.length =
      x.certificate.length + x.key.length + x.record.length := by
    simp [Framed.parts, Nat.add_assoc]
  rw [if_neg (by simpa using hlength), dif_pos ⟨hx.fetchId, hx.ordered, hx.lifetime⟩]
  simp [Framed.parts, Framed.payload, ← List.append_assoc, List.take_append_of_le_length,
    List.drop_append_of_le_length]

/-- No field of the header is written twice. -/
theorem nodup_headerKeys : headerKeys.Nodup := by decide

/-- The fields of a header say the same in every order. -/
theorem told_of_perm {x : Framed} {fields : List (Text × Json)} (h : fields.Perm x.fields) :
    x.Told fields := by
  have hnodup : (fields.map Prod.fst).Nodup :=
    (h.map Prod.fst).nodup_iff.mpr nodup_headerKeys
  have hfield : ∀ e ∈ x.fields, fields.lookup e.1 = some e.2 :=
    fun e he => lookup_of_mem hnodup (h.mem_iff.mpr he)
  simp only [Framed.fields, List.forall_mem_cons] at hfield
  obtain ⟨h1, h2, h3, h4, h5, h6, h7, -⟩ := hfield
  exact ⟨h2, h3, h6, h4, h1, h5, h7⟩

/-- A header and a body say one frame only. -/
theorem Framed.Told.unique {x y : Framed} {fields : List (Text × Json)} (hx : x.Told fields)
    (hy : y.Told fields) (hparts : x.parts.flatten = y.parts.flatten) : x = y := by
  have hid : x.fetchId = y.fetchId := by simpa using hx.fetchId.symm.trans hy.fetchId
  have h0 : x.fetchedAt = y.fetchedAt := by simpa using hx.fetchedAt.symm.trans hy.fetchedAt
  have h1 : x.periodEnds = y.periodEnds := by simpa using hx.periodEnds.symm.trans hy.periodEnds
  have h2 : x.hardExpiry = y.hardExpiry := by simpa using hx.hardExpiry.symm.trans hy.hardExpiry
  have hc : x.certificate.length = y.certificate.length := by
    simpa using hx.certificate.symm.trans hy.certificate
  have hk : x.key.length = y.key.length := by simpa using hx.key.symm.trans hy.key
  -- the lengths say where a part ends
  simp only [Framed.parts, List.flatten_cons, List.flatten_nil, List.append_nil] at hparts
  obtain ⟨hcertificate, hrest⟩ := List.append_inj hparts hc
  obtain ⟨hkey, hrecord⟩ := List.append_inj hrest hk
  cases x
  cases y
  simp only at hid h0 h1 h2 hcertificate hkey hrecord
  rw [hid, h0, h1, h2, hcertificate, hkey, hrecord]

/-- Fields that say a frame, and no more of them than there are, are those of its header. -/
private theorem perm_of_told {x : Framed} {fields : List (Text × Json)}
    (hlength : fields.length = headerKeys.length) (h : x.Told fields) : fields.Perm x.fields := by
  have hmem : x.fields ⊆ fields := by
    have hfield : ∀ e ∈ x.fields, fields.lookup e.1 = some e.2 := by
      simp only [Framed.fields, List.forall_mem_cons, List.not_mem_nil, false_implies, implies_true,
        and_true]
      exact ⟨h.certificate, h.fetchId, h.fetchedAt, h.hardExpiry, h.key, h.periodEnds, h.record⟩
    intro e he
    obtain ⟨before, after, rfl, -⟩ := List.lookup_eq_some_iff.mp (hfield e he)
    simp
  have hnodup : x.fields.Nodup := List.Nodup.of_map Prod.fst nodup_headerKeys
  exact ((hnodup.subperm hmem).perm_of_length_le hlength.le).symm

section
variable [SerdeJson]

/-- A header that says what is framed: these seven members and no others, in any order. -/
structure Framed.Heads (x : Framed) (header : List UInt8) : Prop where
  line : 10 ∉ header
  members : ∃ fields, SerdeJson.members header = some fields ∧ fields.Perm x.fields

/-- The parser as one chain of what it reads. -/
theorem parsePayload_eq (data : List UInt8) :
    parsePayload data =
      if data.length > maxPayload then none
      else (splitLine data).bind fun l =>
        if l.1 ≠ magic then none
        else (splitLine l.2).bind fun m => (SerdeJson.members m.1).bind fun fields =>
          if ¬ (fields.map Prod.fst).Nodup then none
          else if fields.length ≠ headerKeys.length ∨
              ¬ headerKeys.all (fields.map Prod.fst).contains then none
          else payloadIn fields m.2 := rfl

/-- What is framed is parsed as the frame that it is, if it can be framed and fits. -/
theorem parsePayload_frame {x : Framed} {header : List UInt8} {fields : List (Text × Json)}
    (hline : 10 ∉ header) (hfields : SerdeJson.members header = some fields)
    (hperm : fields.Perm x.fields) :
    parsePayload (x.frame header) =
      if (x.frame header).length > maxPayload then none else payloadIn fields x.parts.flatten := by
  have hfirst : splitLine (x.frame header) = some (magic, header ++ 10 :: x.parts.flatten) :=
    splitLine_iff.mpr ⟨by simp [Framed.frame], by decide⟩
  have hheader : splitLine (header ++ 10 :: x.parts.flatten) = some (header, x.parts.flatten) :=
    splitLine_iff.mpr ⟨rfl, hline⟩
  have hkeys : (fields.map Prod.fst).Perm headerKeys := hperm.map Prod.fst
  have hall : headerKeys.all (fields.map Prod.fst).contains = true := by
    rw [List.all_eq_true]
    exact fun k hk => List.contains_iff_mem.mpr (hkeys.mem_iff.mpr hk)
  have hseven : ¬ (fields.length ≠ headerKeys.length ∨
      ¬ headerKeys.all (fields.map Prod.fst).contains) := by
    rw [not_or, not_not, not_not]
    exact ⟨hperm.length_eq, hall⟩
  rw [parsePayload_eq, hfirst, Option.bind_some, if_neg (not_not.mpr rfl), hheader,
    Option.bind_some, hfields, Option.bind_some,
    if_neg (not_not.mpr (hkeys.nodup_iff.mpr nodup_headerKeys)), if_neg hseven]

/-- **What is accepted.** -/
theorem parsePayload_iff {data : List UInt8} {x : Framed} :
    (∃ p, parsePayload data = some p ∧ p.framed = x) ↔
      x.Framable ∧ x.hardExpiry < 2 ^ 63 ∧ data.length ≤ maxPayload ∧
        ∃ header, x.Heads header ∧ data = x.frame header := by
  constructor
  · rintro ⟨p, hp, rfl⟩
    rw [parsePayload_eq] at hp
    split_ifs at hp with hsize
    obtain ⟨⟨first, rest⟩, hfirst, hrest⟩ := Option.bind_eq_some_iff.mp hp
    split_ifs at hrest with hmagic
    obtain ⟨⟨header, body⟩, hheader, hmembers⟩ := Option.bind_eq_some_iff.mp hrest
    obtain ⟨fields, hfields, hof⟩ := Option.bind_eq_some_iff.mp hmembers
    split_ifs at hof with hnodup hkeys
    obtain ⟨htold, hx, hi64, hbody⟩ := payloadIn_ok hof
    obtain ⟨hdata, -⟩ := splitLine_iff.mp hfirst
    obtain ⟨hlines, hline⟩ := splitLine_iff.mp hheader
    have hlength : fields.length = headerKeys.length := by
      by_contra hne
      exact hkeys (.inl hne)
    have hmagic : first = magic := not_not.mp hmagic
    refine ⟨hx, hi64, Nat.not_lt.mp hsize, header, ⟨hline, fields, hfields,
      perm_of_told hlength htold⟩, ?_⟩
    have hlines : rest = header ++ 10 :: body := hlines
    have hbody : body = p.framed.parts.flatten := hbody
    rw [hdata, hmagic, hlines, hbody]
    simp [Framed.frame]
  · rintro ⟨hx, hi64, hsize, header, ⟨hline, fields, hfields, hperm⟩, rfl⟩
    rw [parsePayload_frame hline hfields hperm, if_neg (Nat.not_lt.mpr hsize)]
    exact payloadIn_eq (told_of_perm hperm) hx hi64

/-- A header says of one framing only what it says. -/
theorem parsed_framed {x : Framed} {header : List UInt8} (hheads : x.Heads header) {p : Payload}
    (hp : parsePayload (x.frame header) = some p) : p.framed = x := by
  obtain ⟨hline, fields, hfields, hperm⟩ := hheads
  rw [parsePayload_frame hline hfields hperm] at hp
  split_ifs at hp
  obtain ⟨htold, -, -, hparts⟩ := payloadIn_ok hp
  exact htold.unique (told_of_perm hperm) hparts.symm

/-! ### What is encoded -/

/-- The line of JSON that is written. -/
def Framed.header (x : Framed) : Text :=
  payloadHeader x.fetchId x.fetchedAt x.periodEnds x.hardExpiry x.certificate x.key x.record

/-- What `encodePayload` makes of `x`. -/
def Framed.encoded (x : Framed) : Option (List UInt8) :=
  encodePayload x.fetchId x.fetchedAt x.periodEnds x.hardExpiry x.certificate x.key x.record

/-- What is encoded is a frame that parses. -/
theorem encoded_eq (x : Framed) :
    x.encoded = (parsePayload (x.frame (utf8 x.header))).map fun _ => x.frame (utf8 x.header) := by
  have hdata : magic ++ 10 :: utf8 x.header ++ 10 :: x.certificate ++ x.key ++ x.record =
      x.frame (utf8 x.header) := by
    simp [Framed.frame, Framed.parts]
  rw [← hdata]
  rfl

omit [SerdeJson] in
/-- No number is written with a newline. -/
theorem newline_not_mem_decimal (n : Nat) : '\n' ∉ decimal n := by
  intro h
  have hdigit := isDigit_of_mem_decimal h
  revert hdigit
  decide

omit [SerdeJson] in
/-- No signed number is written with a newline. -/
private theorem newline_not_mem_decimalInt (n : Int) : '\n' ∉ decimalInt n := by
  unfold decimalInt
  split_ifs
  · simpa using newline_not_mem_decimal _
  · exact newline_not_mem_decimal _

/-- The header takes one line when the quoted ID does. -/
private theorem newline_not_mem_header {x : Framed} (hquote : '\n' ∉ SerdeJson.quote x.fetchId) :
    10 ∉ utf8 x.header := by
  intro h
  have hcode : Char.ofNat (10 : UInt8).toNat ∈ x.header := mem_of_ascii_mem_utf8 (by decide) h
  have hmem : '\n' ∈ x.header := hcode
  unfold Framed.header payloadHeader at hmem
  simp only [List.mem_append, newline_not_mem_decimal, newline_not_mem_decimalInt, hquote,
    or_false] at hmem
  exact absurd hmem (by decide)

/-- **The payload codec.**  Suppose that JSON escapes line feeds and reads back the header that is
    written.  Then what is encoded is parsed to what was framed; what is encoded is everything
    `Framable` whose frame is not too long; and whatever is parsed is such a frame, with a header
    of exactly the seven members and nothing behind the three parts. -/
theorem payload_codec (x : Framed) (hi64 : x.hardExpiry < 2 ^ 63)
    (hquote : '\n' ∉ SerdeJson.quote x.fetchId)
    (hreads : SerdeJson.members (utf8 x.header) = some x.fields) :
    (∀ data, x.encoded = some data → (parsePayload data).map Payload.framed = some x) ∧
      (x.encoded.isSome ↔ x.Framable ∧ (x.frame (utf8 x.header)).length ≤ maxPayload) ∧
      ∀ data p, parsePayload data = some p →
        p.framed.Framable ∧ data.length ≤ maxPayload ∧
          ∃ header, p.framed.Heads header ∧ data = p.framed.frame header := by
  have hheads : x.Heads (utf8 x.header) :=
    ⟨newline_not_mem_header hquote, x.fields, hreads, .refl _⟩
  -- the frame is parsed exactly when it is good, and then to `x`
  have hparsed : (∃ p, parsePayload (x.frame (utf8 x.header)) = some p ∧ p.framed = x) ↔
      x.Framable ∧ (x.frame (utf8 x.header)).length ≤ maxPayload := by
    rw [parsePayload_iff]
    exact ⟨fun h => ⟨h.1, h.2.2.1⟩, fun h => ⟨h.1, hi64, h.2, _, hheads, rfl⟩⟩
  refine ⟨fun data hdata => ?_, ?_, fun data p hp => ?_⟩
  · obtain ⟨p, hp, rfl⟩ := Option.map_eq_some_iff.mp (encoded_eq x ▸ hdata)
    rw [hp, Option.map_some, parsed_framed hheads hp]
  · rw [encoded_eq, Option.isSome_map, Option.isSome_iff_exists, ← hparsed]
    exact ⟨fun ⟨p, hp⟩ => ⟨p, hp, parsed_framed hheads hp⟩, fun ⟨p, hp, _⟩ => ⟨p, hp⟩⟩
  · obtain ⟨hx, -, hsize, hheader⟩ := parsePayload_iff.mp ⟨p, hp, rfl⟩
    exact ⟨hx, hsize, hheader⟩

end

/-! ### An example -/

/-- What is framed in the sample. -/
def sampleFramed : Framed where
  fetchId := "0123456789abcdef0123456789abcdef"
  fetchedAt := 10
  periodEnds := 20
  hardExpiry := 30
  certificate := utf8 "cert"
  key := utf8 "key"
  record := utf8 "rec"

/-- JSON, as far as the header of the sample takes it. -/
@[reducible] def sampleHeaderJson : SerdeJson where
  value _ := none
  members raw :=
    if raw = utf8 ("\x7b\"certificate\":4,".toList ++
      "\"fetch_id\":\"0123456789abcdef0123456789abcdef\",".toList ++
      "\"fetched_at\":10,\"hard_expiry\":30,\"key\":3,\"period_ends\":20,\"record\":3\x7d".toList)
    then some sampleFramed.fields
    else none
  quote t := '"' :: t ++ ['"']

attribute [local instance] sampleHeaderJson in

/-- A frame of one byte a part comes back from its bytes. -/
theorem payload_codec_sample :
    (∀ data, sampleFramed.encoded = some data →
        (parsePayload data).map Payload.framed = some sampleFramed) ∧
      (sampleFramed.encoded.isSome ↔ sampleFramed.Framable ∧
        (sampleFramed.frame (utf8 sampleFramed.header)).length ≤ maxPayload) ∧
      ∀ data p, parsePayload data = some p →
        p.framed.Framable ∧ data.length ≤ maxPayload ∧
          ∃ header, p.framed.Heads header ∧ data = p.framed.frame header :=
  payload_codec sampleFramed (by decide) (by decide) (if_pos (by decide +kernel))

end Omdrop.Identity
