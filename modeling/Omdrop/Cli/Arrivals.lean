import Omdrop.Receiver.Log
import Omdrop.Text.Pieces

namespace Omdrop.Cli

open Omdrop.Text Omdrop.Proto Omdrop.Receiver

/-!
# Arrivals

The watcher reads in the receiver's log what has arrived, and looks for it in the download
directory.  Senders write into that log too: `arrivals_log` says that only the receiver's own
messages of what it stored are read as such.
-/

/-! ### Lines of the log -/

/-- What the stamp of a record may have at a place. -/
def stampChar (i : Nat) (c : Char) : Bool :=
  if i = 4 ∨ i = 7 then c == '-'
  else if i = 10 then c == ' '
  else if i = 13 ∨ i = 16 then c == ':'
  else if i = 19 then c == ','
  else c.isDigit

/-- Does a line begin as a record does? -/
def stampOk (line : Text) : Bool :=
  23 ≤ line.length && (line.take 23).zipIdx.all fun (c, i) => stampChar i c

/-- The message of a record of level INFO. -/
def receiverInfo (line : Text) : Option Text :=
  if stampOk line then afterStart " INFO root: " (line.drop 23) else none

/-- What has arrived: names that are still joined, or a link. -/
inductive ArrivalNames
  | stored (names : Text)
  | link (name : Text)
  deriving DecidableEq

/-- Does a `TransferID` look as the receiver writes it? -/
def isTid (tid : Text) : Bool := tid ≠ [] && tid.length ≤ 64 && tid.all isLabelChar

/-- Does a name look as one of a shortcut? -/
def isLinkName (name : Text) : Bool :=
  4 < (utf8 name).length && ".url".toList.isSuffixOf name && !name.contains ' ' &&
    !name.contains '/'

/-- What a line says has arrived. -/
def arrivals (line : Text) : Option ArrivalNames :=
  (receiverInfo line).bind fun msg =>
    match afterStart "upload " msg with
    | some rest =>
      (splitFirst ": stored " rest).bind fun (tid, names) =>
        if isTid tid ∧ names ≠ [] then some (.stored names) else none
    | none      =>
      (afterStart "link stored as " msg).bind fun rest =>
        (splitFirst " -> " rest).bind fun (name, url) =>
          ((afterStart "https://" url).or (afterStart "http://" url)).bind fun urlRest =>
            if isLinkName name ∧ urlRest ≠ [] ∧ ¬ urlRest.any isWhitespace then some (.link name)
            else none

/-! ### The directory -/

variable (entries : FileName → Option Entry)

/-- Is this the plain name of a regular file in the directory? -/
def arrivedFile (name : Text) : Bool :=
  name ≠ [] && !name.contains '/' && name.head? ≠ some '.' && !name.any Text.isControl &&
    (entries (utf8 name)).any Entry.isFile

/-- The first file among a name and those it becomes when pieces are joined to it, with the
    pieces behind it. -/
def firstHit (name : Text) : List Text → Option (Text × List Text)
  | []             => if arrivedFile entries name then some (name, []) else none
  | piece :: rest =>
    if arrivedFile entries name then some (name, piece :: rest)
    else firstHit (name ++ ", ".toList ++ piece) rest

/-- What is left after a hit is no more than there was. -/
private theorem length_of_firstHit {name found : Text} {ps rest : List Text}
    (h : firstHit entries name ps = some (found, rest)) : rest.length ≤ ps.length := by
  induction ps generalizing name with
  | nil =>
    unfold firstHit at h
    split_ifs at h
    cases h
    exact Nat.le_refl _
  | cons piece ps ih =>
    unfold firstHit at h
    split_ifs at h
    · cases h
      exact Nat.le_refl _
    · exact Nat.le_succ_of_le (ih h)

/-- The files that some pieces name, and the pieces that begin none. -/
def resolvePieces : List Text → List Text × List Text
  | []           => ([], [])
  | piece :: ps =>
    match _h : firstHit entries piece ps with
    | some (name, rest) => ((resolvePieces rest).map (name :: ·) id)
    | none              => ((resolvePieces ps).map id (piece :: ·))
termination_by ps => ps.length
decreasing_by
  · exact Nat.lt_succ_of_le (length_of_firstHit entries _h)
  · exact Nat.lt_succ_self _

/-- The files that arrived, and the names that matched none. -/
def resolveArrivals : ArrivalNames → List Text × List Text
  | .link name    => if arrivedFile entries name then ([name], []) else ([], [name])
  | .stored names => resolvePieces entries (pieces ',' ' ' names)

/-! ### Stamps -/

/-- A start that is there is taken off. -/
theorem afterStart_append (start t : Text) : afterStart start (start ++ t) = some t := by
  rw [afterStart, if_pos (List.prefix_append _ _), List.drop_left]

/-- A start is taken off only where it is there. -/
theorem afterStart_eq_some {start t rest : Text} (h : afterStart start t = some rest) :
    t = start ++ rest := by
  unfold afterStart at h
  split_ifs at h with hpre
  obtain ⟨more, rfl⟩ := hpre
  rw [List.drop_left] at h
  rw [Option.some.inj h]

/-- Two starts that differ in a letter exclude each other. -/
theorem afterStart_ne {a c d : Char} (h : c ≠ d) (start t : Text) :
    afterStart (a :: c :: start) (a :: d :: t) = none := by
  have hpre : ¬ a :: c :: start <+: a :: d :: t := by
    rw [List.cons_prefix_cons, List.cons_prefix_cons]
    exact fun hpre => h hpre.2.1
  rw [afterStart, if_neg hpre]

/-- A stamp holds at each place what is expected there. -/
theorem stampChar_of_stampOk {t : Text} (h : stampOk t = true) {i : Nat} {c : Char}
    (hi : i < 23) (hc : t[i]? = some c) : stampChar i c = true := by
  rw [stampOk, Bool.and_eq_true, List.all_eq_true] at h
  refine h.2 (c, i) (List.mem_zipIdx_iff_getElem?.mpr ?_)
  rw [List.getElem?_take_of_lt hi]
  exact hc

/-- A stamp begins with four digits. -/
theorem four_digits {digits rest : Text} {c : Char} (hdigits : ∀ d ∈ digits, d.isDigit = true)
    (hc : c.isDigit = false) (h : stampOk (digits ++ c :: rest) = true) :
    digits.length = 4 ∧ c = '-' := by
  have hat : (digits ++ c :: rest)[digits.length]? = some c := by simp
  rcases Nat.lt_trichotomy digits.length 4 with hlt | heq | hgt
  · have hclass := stampChar_of_stampOk h (by omega) hat
    have hdigit : stampChar digits.length c = c.isDigit := by
      unfold stampChar
      rw [if_neg (by omega), if_neg (by omega), if_neg (by omega), if_neg (by omega)]
    rw [hdigit, hc] at hclass
    cases hclass
  · have hclass := stampChar_of_stampOk h (by omega) hat
    rw [heq] at hclass
    exact ⟨heq, by simpa [stampChar] using hclass⟩
  · have hfour : (digits ++ c :: rest)[4]? = some (digits[4]) := by
      rw [List.getElem?_append_left hgt, List.getElem?_eq_getElem hgt]
    have hclass := stampChar_of_stampOk h (by omega) hfour
    have hdash : digits[4] = '-' := by simpa [stampChar] using hclass
    have hdigit := hdigits _ (List.getElem_mem hgt)
    rw [hdash] at hdigit
    cases hdigit

/-- A clock that shows a year of four digits. -/
def IsShown (clock : Clock) : Prop :=
  ∃ t, clock.known = some t ∧ 0 ≤ t.year ∧ t.year < 10000

/-- A padded number of so many digits is below that power of ten. -/
private theorem lt_of_length_zeroPadded {width n k : Nat} (h : (zeroPadded width n).length = k) :
    n < 10 ^ k := by
  have hvalue : valueFrom 10 0 ((zeroPadded width n).map Char.toNat) = some n :=
    ofDecimal_zeroPadded width n
  have hlt := (lt_of_valueFrom hvalue).2
  rwa [List.length_map, h, Nat.zero_add, Nat.one_mul] at hlt

/-- A stamp that passes shows a year of four digits. -/
private theorem isShown_of_stampOk {clock : Clock} {rest : Text}
    (h : stampOk (asctime clock ++ rest) = true) : IsShown clock := by
  unfold asctime at h
  split at h
  · rw [List.append_assoc, List.cons_append] at h
    cases (four_digits (fun d hd => isDigit_of_mem_decimal hd) (by decide) h).2
  · rename_i t ht
    refine ⟨t, ht, ?_⟩
    simp only [List.append_assoc, List.cons_append] at h
    unfold yearText at h
    split at h
    · -- a sign is no digit
      cases (@four_digits [] _ _ (by simp) (by decide) h).1
    · rename_i hyear
      have hlen := (four_digits (fun d hd => isDigit_of_mem_zeroPadded hd) (by decide) h).1
      have hlt := lt_of_length_zeroPadded hlen
      omega

/-- The stamp of a clock that shows a year of four digits. -/
theorem stampOk_asctime {clock : Clock} (h : IsShown clock) (rest : Text) :
    stampOk (asctime clock ++ rest) = true ∧ (asctime clock ++ rest).drop 23 = rest := by
  obtain ⟨t, ht, h0, h1⟩ := h
  obtain ⟨hmonth, hday, hhour, hminute, hsecond⟩ := t.valid
  have hdigit : ∀ {width n : Nat} {l : Text}, zeroPadded width n = l →
      ∀ c ∈ l, c.isDigit = true := by
    rintro width n l rfl c hc
    exact isDigit_of_mem_zeroPadded hc
  have htwo : ∀ {n : Nat}, n < 100 → ∃ a b, zeroPadded 2 n = [a, b] := fun hn =>
    List.length_eq_two.mp (length_zeroPadded (by decide) hn)
  have hyear : yearText t.year = zeroPadded 4 t.year.toNat := if_neg (by omega)
  obtain ⟨y₁, y₂, y₃, y₄, hy⟩ : ∃ a b c d, zeroPadded 4 t.year.toNat = [a, b, c, d] := by
    have hlen : (zeroPadded 4 t.year.toNat).length = 4 :=
      length_zeroPadded (by decide) (by omega)
    match zeroPadded 4 t.year.toNat, hlen with
    | [a, b, c, d], _ => exact ⟨a, b, c, d, rfl⟩
  obtain ⟨a, b, hmo⟩ := htwo hmonth
  obtain ⟨c, d, hda⟩ := htwo hday
  obtain ⟨e, f, hho⟩ := htwo hhour
  obtain ⟨g, i, hmi⟩ := htwo hminute
  obtain ⟨j, k, hse⟩ := htwo hsecond
  have hthree : (zeroPadded 3 clock.millis).length = 3 := length_zeroPadded (by decide) clock.valid
  obtain ⟨l, m, n, hms⟩ := List.length_eq_three.mp hthree
  unfold asctime
  rw [ht]
  dsimp only
  rw [hyear, hy, hmo, hda, hho, hmi, hse, hms]
  have := hdigit hy
  have := hdigit hmo
  have := hdigit hda
  have := hdigit hho
  have := hdigit hmi
  have := hdigit hse
  have := hdigit hms
  refine ⟨?_, rfl⟩
  simp_all [stampOk, stampChar, List.zipIdx]

/-- **What is read as a message of level INFO** is one. -/
theorem receiverInfo_logLine {clock : Clock} {level : Level} {message msg : Text}
    (h : receiverInfo (logLine clock level message) = some msg) :
    IsShown clock ∧ level = .info ∧ msg = escape message := by
  rw [receiverInfo, logLine, List.append_assoc, List.append_assoc] at h
  split at h
  · rename_i hstamp
    have hshown := isShown_of_stampOk hstamp
    rw [(stampOk_asctime hshown _).2] at h
    cases level with
    | info =>
      have hmsg : afterStart " INFO root: " (" INFO root: ".toList ++ escape message) =
          some (escape message) := afterStart_append _ _
      exact ⟨hshown, rfl, Option.some.inj (h.symm.trans hmsg)⟩
    | debug => cases (afterStart_ne (by decide) _ _).symm.trans h
    | warning => cases (afterStart_ne (by decide) _ _).symm.trans h
    | error => cases (afterStart_ne (by decide) _ _).symm.trans h
  · cases h

/-- What the receiver logs as information is read from the line of it. -/
theorem receiverInfo_info {clock : Clock} (h : IsShown clock) (message : Text) :
    receiverInfo (logLine clock .info message) = some (escape message) := by
  have hmsg : afterStart " INFO root: " (" INFO root: ".toList ++ escape message) =
      some (escape message) := afterStart_append _ _
  rw [receiverInfo, logLine, List.append_assoc, List.append_assoc,
    if_pos (stampOk_asctime h _).1, (stampOk_asctime h _).2]
  exact hmsg

/-! ### Messages -/

/-- A character of a label is visible, and neither a colon nor a blank. -/
theorem toNat_of_isLabelChar {c : Char} (h : isLabelChar c = true) :
    0x20 ≤ c.toNat ∧ c.toNat < 0x7f ∧ c ≠ ':' ∧ c ≠ ' ' := by
  simp only [isLabelChar, Bool.or_eq_true, beq_iff_eq] at h
  rcases h with ((h | rfl) | rfl) | rfl
  · delta Char.isAlphanum Char.isAlpha Char.isUpper Char.isLower Char.isDigit at h
    simp only [Bool.or_eq_true, Bool.and_eq_true, decide_eq_true_eq,
      UInt32.le_iff_toNat_le] at h
    have hupper : 'A'.val.toNat = 65 ∧ 'Z'.val.toNat = 90 := ⟨rfl, rfl⟩
    have hlower : 'a'.val.toNat = 97 ∧ 'z'.val.toNat = 122 := ⟨rfl, rfl⟩
    have hdigit : '0'.val.toNat = 48 ∧ '9'.val.toNat = 57 := ⟨rfl, rfl⟩
    have hcode : c.toNat = c.val.toNat := rfl
    refine ⟨by omega, by omega, ?_, ?_⟩
    · rintro rfl
      have hcolon : ':'.val.toNat = 58 := rfl
      omega
    · rintro rfl
      have hspace : ' '.val.toNat = 32 := rfl
      omega
  · decide
  · decide
  · decide

/-- Plain text at the front of a message stays as it is. -/
theorem escape_front {front : Text} (hplain : ∀ c ∈ front, IsPlain c)
    (h : (utf8 front).length ≤ maxMessageBytes) (rest : Text) :
    ∃ more, escape (front ++ rest) = front ++ more := by
  obtain ⟨more, hmore⟩ := prefix_escape hplain h rest
  exact ⟨more, hmore.symm⟩

/-- A plain character at the front stays as it is. -/
theorem escape_cons {c : Char} (h : IsPlain c) (t : Text) : ∃ more, escape (c :: t) = c :: more := by
  have hsize : (utf8 [c]).length ≤ maxMessageBytes := by
    have := c.utf8Size_le_four
    rw [utf8, List.flatMap_singleton, String.length_utf8EncodeChar, maxMessageBytes]
    omega
  exact @escape_front [c] (by simpa using h) hsize t

/-- The label of an upload looks as one. -/
theorem isTid_transferLabel (header : Text) : isTid (transferLabel header) = true := by
  unfold transferLabel
  dsimp only
  split
  · decide
  · rename_i hne
    have hsub : ((header.filter isLabelChar).take 64).dropWhile (· == '.') <:+
        (header.filter isLabelChar).take 64 := List.dropWhile_suffix _
    have hlen := hsub.length_le
    have htake : ((header.filter isLabelChar).take 64).length ≤ 64 := List.length_take_le _ _
    rw [isTid, Bool.and_eq_true, Bool.and_eq_true, List.all_eq_true]
    refine ⟨⟨by simpa using hne, by simpa using hlen.trans htake⟩, fun c hc => ?_⟩
    exact (List.mem_filter.mp (List.mem_of_mem_take (hsub.subset hc))).2

/-- A text begins with a plain character that is none of some. -/
def BeginsElse (others t : Text) : Prop := ∃ c rest, t = c :: rest ∧ IsPlain c ∧ c ∉ others

/-- What begins with another letter does so with more behind it. -/
theorem BeginsElse.append {others t : Text} (h : BeginsElse others t) (u : Text) :
    BeginsElse others (t ++ u) := by
  obtain ⟨c, rest, rfl, hc⟩ := h
  exact ⟨c, rest ++ u, rfl, hc⟩

/-- A number begins with a digit. -/
private theorem beginsElse_decimal {others : Text} (h : ∀ c ∈ others, c.isDigit = false) (n : Nat) :
    BeginsElse others (decimal n) := by
  obtain ⟨c, rest, hcons⟩ := List.exists_cons_of_ne_nil (decimal_ne_nil n)
  have hdigit : c.isDigit = true := isDigit_of_mem_decimal (by rw [hcons]; exact List.mem_cons_self)
  refine ⟨c, rest, hcons, isPlain_of_isDigit hdigit, fun hc => ?_⟩
  rw [h c hc] at hdigit
  cases hdigit

/-- A host begins with neither of the words. -/
theorem beginsElse_host (peer : Receiver.Host) : BeginsElse "ul".toList peer.text := by
  have hip : BeginsElse "ul".toList peer.ip := by
    have haddress := peer.address
    cases hcons : peer.ip with
    | nil =>
      rw [hcons] at haddress
      cases haddress
    | cons c rest =>
      rw [hcons] at haddress
      simp only [List.head?_cons, Option.any_some, Bool.or_eq_true, beq_iff_eq] at haddress
      refine ⟨c, rest, rfl, ?_⟩
      rcases haddress with (rfl | hdigit) | hletter
      · exact ⟨by decide, by decide⟩
      · refine ⟨isPlain_of_isDigit hdigit, fun hc => ?_⟩
        have hnone : ∀ d ∈ "ul".toList, d.isDigit = false := by decide
        rw [hnone c hc] at hdigit
        cases hdigit
      · have hrange : 97 ≤ c.toNat ∧ c.toNat ≤ 102 := by
          simpa [Char.le_def, UInt32.le_iff_toNat_le] using hletter
        refine ⟨isPlain_of_ascii (by omega), fun hc => ?_⟩
        have hlater : ∀ d ∈ "ul".toList, 102 < d.toNat := by decide
        have := hlater c hc
        omega
  unfold Receiver.Host.text
  split
  · exact hip.append _
  · exact hip

/-- How the messages of level INFO begin: as what was stored, or so that they cannot be read as
    that. -/
theorem info_cases (i : Info) :
    (∃ header names, i = .uploadStored header names) ∨ (∃ stored url, i = .linkStored stored url) ∨
    (∃ header rest, i.text = uploadText header rest ∧ BeginsElse ['s'] rest) ∨
    BeginsElse "ul".toList i.text := by
  have hdecimal := @beginsElse_decimal ['s'] (by decide)
  cases i with
  | uploadStored header names => exact .inl ⟨header, names, rfl⟩
  | linkStored stored url => exact .inr (.inl ⟨stored, url, rfl⟩)
  | uploadBudget header percent free limit =>
    refine .inr (.inr (.inl ⟨header, _, rfl, ?_⟩))
    exact ((((hdecimal percent).append _).append _).append _).append _ |>.append _
  | uploadRead header wire totalBytes =>
    refine .inr (.inr (.inl ⟨header, _, rfl, ?_⟩))
    exact (((hdecimal wire).append _).append _).append _
  | uploadDecoded header bytes magic =>
    exact .inr (.inr (.inl ⟨header, _, rfl, 'd', _, rfl, by decide, by decide⟩))
  | timedOut peer => exact .inr (.inr (.inr ((beginsElse_host peer).append _)))
  | request peer requestLine status =>
    have hhost := beginsElse_host peer
    exact .inr (.inr (.inr ((((hhost.append _).append _).append _).append _ |>.append _)))
  | errorSent peer status message =>
    have hhost := beginsElse_host peer
    exact .inr (.inr (.inr ((((hhost.append _).append _).append _).append _)))
  | connection | handshakeClosed | handshakeFailed | session | withheld | asked | accepted
  | identity | removed | config | serving =>
    exact .inr (.inr (.inr ⟨_, _, rfl, by decide, by decide⟩))

/-- What stands before the names of an upload is plain and short. -/
theorem plain_uploadFront (header : Text) :
    (∀ c ∈ "upload ".toList ++ transferLabel header ++ ": ".toList, IsPlain c) ∧
      (utf8 ("upload ".toList ++ transferLabel header ++ ": ".toList)).length ≤ 73 := by
  have htid := isTid_transferLabel header
  rw [isTid, Bool.and_eq_true, Bool.and_eq_true, List.all_eq_true, decide_eq_true_eq,
    decide_eq_true_eq] at htid
  have hmark : ∀ c ∈ "upload ".toList ++ ": ".toList, IsPlain c := by decide
  have hascii : ∀ c ∈ "upload ".toList ++ transferLabel header ++ ": ".toList, c.toNat < 0x80 := by
    have hfixed : ∀ c ∈ "upload ".toList ++ ": ".toList, c.toNat < 0x80 := by decide
    intro c hc
    rw [List.mem_append, List.mem_append] at hc
    rcases hc with (hc | hc) | hc
    · exact hfixed c (List.mem_append_left _ hc)
    · have hlabel := toNat_of_isLabelChar (htid.2 c hc)
      omega
    · exact hfixed c (List.mem_append_right _ hc)
  refine ⟨fun c hc => ?_, ?_⟩
  · rw [List.mem_append, List.mem_append] at hc
    rcases hc with (hc | hc) | hc
    · exact hmark c (List.mem_append_left _ hc)
    · have hlabel := toNat_of_isLabelChar (htid.2 c hc)
      exact isPlain_of_ascii (by omega)
    · exact hmark c (List.mem_append_right _ hc)
  · rw [length_utf8_of_ascii hascii, List.length_append, List.length_append]
    have hfixed : "upload ".toList.length = 7 ∧ ": ".toList.length = 2 := ⟨rfl, rfl⟩
    omega

/-- What an upload's message starts with is in the log. -/
theorem escape_uploadText (header rest : Text) :
    ∃ more, escape (uploadText header rest) = uploadText header more := by
  obtain ⟨hplain, hsize⟩ := plain_uploadFront header
  exact escape_front hplain (by rw [maxMessageBytes]; omega) rest

/-- And so is a plain character behind it. -/
private theorem escape_uploadText_cons {c : Char} (hc : IsPlain c) (header rest : Text) :
    ∃ more, escape (uploadText header (c :: rest)) = uploadText header (c :: more) := by
  obtain ⟨hplain, hsize⟩ := plain_uploadFront header
  have hplain' : ∀ d ∈ "upload ".toList ++ transferLabel header ++ ": ".toList ++ [c],
      IsPlain d := by
    intro d hd
    rcases List.mem_append.mp hd with hd | hd
    · exact hplain d hd
    · rw [List.mem_singleton.mp hd]
      exact hc
  have hsize' : (utf8 ("upload ".toList ++ transferLabel header ++ ": ".toList ++ [c])).length ≤
      maxMessageBytes := by
    have hc4 : (utf8 [c]).length ≤ 4 := by
      rw [utf8, List.flatMap_singleton, String.length_utf8EncodeChar]
      exact c.utf8Size_le_four
    rw [utf8_append, List.length_append, maxMessageBytes]
    omega
  obtain ⟨more, hmore⟩ := escape_front hplain' hsize' rest
  refine ⟨more, ?_⟩
  rw [List.append_assoc _ [c], List.append_assoc _ [c]] at hmore
  exact hmore

/-- What is read as what an upload stored. -/
theorem arrivals_stored {line n : Text} (h : arrivals line = some (.stored n)) :
    ∃ tid, receiverInfo line = some ("upload ".toList ++ (tid ++ ": stored ".toList ++ n)) ∧
      isTid tid = true ∧ n ≠ [] := by
  obtain ⟨msg, hmsg, h⟩ := Option.bind_eq_some_iff.mp h
  cases hstart : afterStart "upload " msg with
  | some rest =>
    rw [hstart] at h
    obtain ⟨⟨tid, names⟩, hsplit, h⟩ := Option.bind_eq_some_iff.mp h
    dsimp only at h
    split_ifs at h with hboth
    cases h
    exact ⟨tid, by rw [hmsg, afterStart_eq_some hstart, splitFirst_eq_some hsplit], hboth⟩
  | none =>
    rw [hstart] at h
    obtain ⟨rest, -, h⟩ := Option.bind_eq_some_iff.mp h
    obtain ⟨⟨name, url⟩, -, h⟩ := Option.bind_eq_some_iff.mp h
    obtain ⟨urlRest, -, h⟩ := Option.bind_eq_some_iff.mp h
    split_ifs at h
    cases h

/-- What is read as a link. -/
theorem arrivals_link {line n : Text} (h : arrivals line = some (.link n)) :
    ∃ url, receiverInfo line = some ("link stored as ".toList ++ (n ++ " -> ".toList ++ url)) ∧
      isLinkName n = true ∧ ∃ scheme rest, url = scheme ++ '/' :: rest ∧ ' ' ∉ rest := by
  obtain ⟨msg, hmsg, h⟩ := Option.bind_eq_some_iff.mp h
  cases hstart : afterStart "upload " msg with
  | some rest =>
    rw [hstart] at h
    obtain ⟨⟨tid, names⟩, hsplit, h⟩ := Option.bind_eq_some_iff.mp h
    dsimp only at h
    split_ifs at h
    cases h
  | none =>
    rw [hstart] at h
    obtain ⟨rest, hrest, h⟩ := Option.bind_eq_some_iff.mp h
    obtain ⟨⟨name, url⟩, hsplit, h⟩ := Option.bind_eq_some_iff.mp h
    obtain ⟨urlRest, hscheme, h⟩ := Option.bind_eq_some_iff.mp h
    split_ifs at h with hall
    cases h
    have hblank : ' ' ∉ urlRest := fun hin =>
      hall.2.2 (List.any_eq_true.mpr ⟨' ', hin, by decide⟩)
    refine ⟨url, by rw [hmsg, afterStart_eq_some hrest, splitFirst_eq_some hsplit], hall.1, ?_⟩
    rcases Option.or_eq_some_iff.mp hscheme with hstart | ⟨-, hstart⟩
    · exact ⟨"https:/".toList, urlRest, (afterStart_eq_some hstart).trans rfl, hblank⟩
    · exact ⟨"http:/".toList, urlRest, (afterStart_eq_some hstart).trans rfl, hblank⟩

/-- An upload's message, piece by piece. -/
theorem uploadText_eq (header rest : Text) :
    uploadText header rest = "upload ".toList ++ (transferLabel header ++ (": ".toList ++ rest)) :=
  (List.append_assoc _ _ _).trans (List.append_assoc _ _ _)

/-- An ID holds no colon. -/
theorem colon_not_mem {tid : Text} (h : isTid tid = true) : ':' ∉ tid := by
  intro hmem
  rw [isTid, Bool.and_eq_true, List.all_eq_true] at h
  exact (toNat_of_isLabelChar (h.2 _ hmem)).2.2.1 rfl

/-- The label of an upload ends at the first colon. -/
theorem uploadText_inj {header tid rest more : Text} (htid : isTid tid = true)
    (h : "upload ".toList ++ (tid ++ ": ".toList ++ rest) = uploadText header more) :
    rest = more := by
  have hmark : ∀ t : Text, ": ".toList ++ t = ':' :: ' ' :: t := fun _ => rfl
  have hcut := List.append_cancel_left (h.trans (uploadText_eq header more))
  have hassoc : tid ++ ": ".toList ++ rest = tid ++ (": ".toList ++ rest) := List.append_assoc _ _ _
  rw [hassoc, hmark, hmark] at hcut
  have hinj := append_cons_inj (colon_not_mem htid) (colon_not_mem (isTid_transferLabel header))
    hcut
  exact (List.cons.inj hinj.2).2

/-- What begins otherwise is neither. -/
theorem escape_beginsElse {t : Text} (h : BeginsElse "ul".toList t) :
    (∀ rest, escape t ≠ "upload ".toList ++ rest) ∧
      ∀ rest, escape t ≠ "link stored as ".toList ++ rest := by
  obtain ⟨c, t, rfl, hplain, hc⟩ := h
  obtain ⟨more, hmore⟩ := escape_cons hplain t
  rw [hmore]
  constructor
  · intro rest heq
    exact hc (by rw [(List.cons.inj heq).1]; decide)
  · intro rest heq
    exact hc (by rw [(List.cons.inj heq).1]; decide)

/-- Escaping brings no blank in. -/
private theorem blank_of_escapeChar {t : Text} (h : ' ' ∉ t) : ' ' ∉ t.flatMap escapeChar := by
  intro hmem
  obtain ⟨c, hc, hin⟩ := List.mem_flatMap.mp hmem
  have hhex : ∀ {width n : Nat}, ' ' ∉ hex width n := fun hin => by
    have hdigit : ∀ d < 16, ' ' ≠ Char.ofNat (digitCode d) := by decide
    obtain ⟨d, hd, heq⟩ := mem_hex hin
    exact hdigit d hd heq
  unfold escapeChar at hin
  split_ifs at hin
  · exact (List.mem_append.mp hin).elim (by decide) hhex
  · exact (List.mem_append.mp hin).elim (by decide) hhex
  · rw [List.mem_singleton] at hin
    exact h (hin ▸ hc)

/-- Plain text between escaped ones stays as it is. -/
theorem flatMap_escapeChar_between {front mid : Text} (a b : Text) (hfront : ∀ c ∈ front, IsPlain c)
    (hmid : ∀ c ∈ mid, IsPlain c) : (front ++ a ++ mid ++ b).flatMap escapeChar =
      front ++ (a.flatMap escapeChar ++ (mid ++ b.flatMap escapeChar)) := by
  simp [flatMap_escapeChar hfront, flatMap_escapeChar hmid]

/-- The name of a link, as it is written, ends at the first blank. -/
private theorem escape_linkText {stored url n rest : Text} (hstored : ' ' ∉ stored) (hn : ' ' ∉ n)
    (h : escape (Info.linkStored stored url).text =
      "link stored as ".toList ++ (n ++ " -> ".toList ++ rest)) :
    n = stored.flatMap escapeChar := by
  have hblank := blank_of_escapeChar hstored
  have hfront : ∀ c ∈ "link stored as ".toList, IsPlain c := by decide
  have harrow : ∀ t : Text, " -> ".toList ++ t = ' ' :: '-' :: '>' :: ' ' :: t := fun _ => rfl
  have htext : (Info.linkStored stored url).text.flatMap escapeChar = "link stored as ".toList ++
      (stored.flatMap escapeChar ++ (" -> ".toList ++ url.flatMap escapeChar)) :=
    flatMap_escapeChar_between stored url hfront (by decide)
  have hassoc : n ++ " -> ".toList ++ rest = n ++ (" -> ".toList ++ rest) := List.append_assoc _ _ _
  rw [hassoc, harrow] at h
  unfold escape at h
  rw [htext, harrow] at h
  dsimp only at h
  split at h
  · -- cut: the note of it begins with a blank too, but goes on otherwise
    have hsize : (utf8 "link stored as ".toList).length ≤ maxMessageBytes := by
      rw [maxMessageBytes]
      decide
    obtain ⟨k, hk⟩ := prefix_takeBytes hsize (stored.flatMap escapeChar ++
      ' ' :: '-' :: '>' :: ' ' :: url.flatMap escapeChar)
    have hpre := takeBytes_isPrefix maxMessageBytes ("link stored as ".toList ++
      (stored.flatMap escapeChar ++ ' ' :: '-' :: '>' :: ' ' :: url.flatMap escapeChar))
    obtain ⟨more, hmore⟩ := hpre
    rw [← hk] at h hmore
    have hmore' := List.append_cancel_left ((List.append_assoc _ _ _).symm.trans hmore)
    have hnote : ∀ t u : Text, "link stored as ".toList ++ k ++ " [... ".toList ++ t ++ u =
        "link stored as ".toList ++ (k ++ ' ' :: '[' :: ("... ".toList ++ (t ++ u))) := by
      intro t u
      exact ((List.append_assoc _ _ _).trans (List.append_assoc _ _ _)).trans
        (List.append_assoc _ _ _)
    have hcut := List.append_cancel_left ((hnote _ _).symm.trans h)
    by_cases hin : ' ' ∈ k
    · obtain ⟨a, b, rfl, ha⟩ := List.eq_append_cons_of_mem hin
      rw [List.append_assoc, List.cons_append] at hcut hmore'
      rw [← (append_cons_inj ha hn hcut).1, (append_cons_inj ha hblank hmore').1]
    · have hsame := (List.cons.inj (append_cons_inj hin hn hcut).2).1
      exact absurd hsame (by decide)
  · exact ((append_cons_inj hblank hn (List.append_cancel_left h)).1).symm

/-- Is it what a record says was stored, as the log shows it? -/
def ArrivalNames.IsOf (r : LogRecord) : ArrivalNames → Prop
  | .stored n =>
    ∃ header names, r = .info (.uploadStored header names) ∧
      escape r.text = uploadText header ("stored ".toList ++ n) ∧ (escape r.text = r.text → n = names)
  | .link n   =>
    ∃ stored url, r = .info (.linkStored stored url) ∧
      (' ' ∉ stored → n = stored.flatMap escapeChar)

/-- Only what was stored is read as stored. -/
theorem isOf_of_arrivals {clock : Clock} {r : LogRecord} {a : ArrivalNames}
    (h : arrivals (logLine clock r.level r.text) = some a) : a.IsOf r := by
  cases a with
  | stored n =>
    obtain ⟨tid, hinfo, htid, -⟩ := arrivals_stored h
    obtain ⟨-, hlevel, heq⟩ := receiverInfo_logLine hinfo
    cases r with
    | other level text serious => exact absurd hlevel serious
    | info i =>
      have hupload : "upload ".toList ++ (tid ++ ": ".toList ++ ("stored ".toList ++ n)) =
          escape i.text := by
        rw [← show _ = escape i.text from heq, List.append_assoc tid, List.append_assoc tid]
        rfl
      -- only an upload that stored something writes such a message
      rcases info_cases i with ⟨header, names, rfl⟩ | ⟨stored, url, rfl⟩ | ⟨header, rest, htext, hrest⟩
        | hother
      · obtain ⟨more, hmore⟩ := escape_uploadText header ("stored ".toList ++ names)
        have hsame := uploadText_inj htid (hupload.trans hmore)
        refine ⟨header, names, rfl, hmore.trans (by rw [hsame]), fun hplain => ?_⟩
        have hback : uploadText header ("stored ".toList ++ n) =
            uploadText header ("stored ".toList ++ names) := by
          rw [hsame]
          exact hmore.symm.trans hplain
        exact List.append_cancel_left (List.append_cancel_left hback)
      · obtain ⟨more, hmore⟩ := @escape_cons 'l' (by decide)
          ("ink stored as ".toList ++ stored ++ " -> ".toList ++ url)
        cases hupload.trans hmore
      · -- what another message of an upload goes on with does not begin with an `s`
        obtain ⟨c, rest, rfl, hplain, hc⟩ := hrest
        obtain ⟨more, hmore⟩ := escape_uploadText_cons hplain header rest
        have hsame := uploadText_inj htid (hupload.trans (by rw [htext, hmore]))
        exact absurd (List.mem_singleton.mpr (List.cons.inj hsame).1.symm) hc
      · exact absurd hupload.symm ((escape_beginsElse hother).1 _)
  | link n =>
    obtain ⟨rest, hinfo, hname, -⟩ := arrivals_link h
    obtain ⟨-, hlevel, heq⟩ := receiverInfo_logLine hinfo
    cases r with
    | other level text serious => exact absurd hlevel serious
    | info i =>
      have hlink : escape i.text = _ := heq.symm
      -- a link's message begins with another letter than an upload's
      have hupload : ∀ more, escape i.text ≠ "upload ".toList ++ more := by
        have hupload : "upload ".toList = 'u' :: "pload ".toList := rfl
        have hlink' : "link stored as ".toList = 'l' :: "ink stored as ".toList := rfl
        rw [hlink, hupload, hlink']
        intro more hmore
        rw [List.cons_append, List.cons_append] at hmore
        cases (List.cons.inj hmore).1
      have hnone : ∀ header rest, i.text ≠ uploadText header rest := by
        intro header rest htext
        obtain ⟨more, hmore⟩ := escape_uploadText header rest
        rw [← htext] at hmore
        exact hupload _ (hmore.trans (uploadText_eq header more))
      rcases info_cases i with ⟨header, names, rfl⟩ | ⟨stored, url, rfl⟩ | ⟨header, rest, htext, -⟩
        | hother
      · exact absurd rfl (hnone header ("stored ".toList ++ names))
      · refine ⟨stored, url, rfl, fun hstored => escape_linkText hstored (fun hin => ?_) hlink⟩
        simp [isLinkName, hin] at hname
      · exact absurd htext (hnone header rest)
      · exact absurd hlink ((escape_beginsElse hother).2 _)

/-- **A log tells of no other arrivals.**  Whatever the senders make the receiver write, what is
    read as arrivals is what some of its own messages of stored files say, in their order. -/
theorem arrivals_log (log : List (Clock × LogRecord)) :
    ∃ own, own.Sublist log ∧ List.Forall₂ (fun a x => a.IsOf x.2)
      ((linesOn (· == '\n') (logText log)).filterMap arrivals) own := by
  rw [linesOn_logText]
  induction log with
  | nil => exact ⟨[], List.Sublist.refl _, .nil⟩
  | cons x log ih =>
    obtain ⟨own, hsub, hown⟩ := ih
    rw [List.map_cons]
    cases h : arrivals (logLine x.1 x.2.level x.2.text) with
    | none =>
      rw [List.filterMap_cons_none h]
      exact ⟨own, hsub.cons x, hown⟩
    | some a =>
      rw [List.filterMap_cons_some h]
      exact ⟨x :: own, hsub.cons_cons x, .cons (isOf_of_arrivals h) hown⟩

end Omdrop.Cli
