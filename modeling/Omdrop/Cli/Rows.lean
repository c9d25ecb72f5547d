import Omdrop.Text.Lines
import Omdrop.Text.Space

namespace Omdrop.Cli

open Omdrop.Text

/-!
# The rows of a peer listing

`parseRow` reads a line of what `send-to-peer --list` prints; `rows` reads all of it.
`parseRow_line` says what a line in the form of a row is read as.
-/

/-- POSIX white space, and the white space outside of ASCII. -/
def isSpace (c : Char) : Bool :=
  c == ' ' || c == '\t' || c == '\n' || c == '\x0b' || c == '\x0c' || c == '\r' ||
    (0x80 ≤ c.toNat && isWhitespace c)

/-- A digit of an address, in lower case. -/
def isMacDigit (c : Char) : Bool := c.isDigit || ('a' ≤ c && c ≤ 'f')

/-- Six pairs of digits with colons between them. -/
def isMac (t : Text) : Bool :=
  t.length == 17 && t.zipIdx.all fun (c, i) => if i % 3 == 2 then c == ':' else isMacDigit c

/-- One line of a listing: the peer's address, its signal as it is printed, and its name. -/
structure Row where
  mac : Text
  rssi : Text
  name : Text
  deriving DecidableEq, Repr

/-- What follows white space, of which there has to be some. -/
def afterSpace (t : Text) : Option Text :=
  let after := t.dropWhile isSpace
  if after.length = t.length then none else some after

/-- How long a signal is: a question mark, or an integer. -/
def signalLength (t : Text) : Option Nat :=
  if t.head? = some '?' then some 1
  else
    let digitsFrom := if t.head? = some '-' then 1 else 0
    let n := ((t.drop digitsFrom).takeWhile Char.isDigit).length
    if n = 0 then none else some (digitsFrom + n)

/-- The row that a line is, if it is one. -/
def parseRow (line : Text) : Option Row := do
  if line.length < 17 then none
  else if !isMac (line.take 17) then none
  else
    let signal ← afterSpace (line.drop 17)
    let n ← signalLength signal
    let rest ← " dBm".toList.isPrefixOf? (signal.drop n)
    let endpoint ← afterSpace rest
    let len := (endpoint.takeWhile (!isSpace ·)).length
    if len = 0 then none
    else some ⟨line.take 17, signal.take n, (endpoint.drop len).dropWhile isSpace⟩

/-- The rows of a listing. -/
def rows (listing : Text) : List Row := (strLines listing).filterMap parseRow

/-! ### Lines in the form of a row -/

/-- How a signal is printed: as an integer, or as a question mark. -/
def IsSignal (t : Text) : Prop := t = ['?'] ∨ ∃ n : Int, t = decimalInt n

private theorem dropWhile_space {sp t : Text} (hsp : ∀ c ∈ sp, isSpace c = true)
    (ht : ∀ c, t.head? = some c → isSpace c = false) : (sp ++ t).dropWhile isSpace = t := by
  rw [List.dropWhile_append_of_pos hsp]
  cases t with
  | nil => rfl
  | cons c t =>
    rw [List.dropWhile_cons_of_neg]
    rw [ht c rfl]
    decide

/-- White space in front is passed over. -/
theorem afterSpace_append {sp t : Text} (hne : sp ≠ []) (hsp : ∀ c ∈ sp, isSpace c = true)
    (ht : ∀ c, t.head? = some c → isSpace c = false) : afterSpace (sp ++ t) = some t := by
  have hpos : 0 < sp.length := List.length_pos_iff.mpr hne
  unfold afterSpace
  rw [dropWhile_space hsp ht, if_neg]
  rw [List.length_append]
  omega

theorem takeWhile_digits {ds rest : Text} (hds : ∀ c ∈ ds, c.isDigit = true) :
    (ds ++ ' ' :: rest).takeWhile Char.isDigit = ds := by
  rw [List.takeWhile_append_of_pos hds, List.takeWhile_cons_of_neg (by decide), List.append_nil]

/-- A digit is no white space. -/
theorem isSpace_of_isDigit {c : Char} (h : c.isDigit = true) : isSpace c = false := by
  have hbounds : 48 ≤ c.toNat ∧ c.toNat ≤ 57 := by
    simpa [Char.isDigit, UInt32.le_iff_toNat_le] using h
  have hne (d : Char) (hd : d.toNat < 48) : (c == d) = false := by
    rw [beq_eq_false_iff_ne]
    rintro rfl
    omega
  unfold isSpace
  rw [hne _ (by decide), hne _ (by decide), hne _ (by decide), hne _ (by decide),
    hne _ (by decide), hne _ (by decide), decide_eq_false (by omega)]
  rfl

/-- A printed signal starts with no white space. -/
private theorem isSpace_head_signal {t rest : Text} (h : IsSignal t) {c : Char}
    (hc : (t ++ rest).head? = some c) : isSpace c = false := by
  rcases h with rfl | ⟨n, rfl⟩
  · obtain rfl : '?' = c := by simpa using hc
    rfl
  · unfold decimalInt at hc
    by_cases hn : n < 0
    · rw [if_pos hn] at hc
      obtain rfl : '-' = c := by simpa using hc
      rfl
    · rw [if_neg hn] at hc
      obtain ⟨d, ds, hd⟩ := List.exists_cons_of_ne_nil (decimal_ne_nil n.toNat)
      have hdigit : d.isDigit = true := isDigit_of_mem_decimal (n := n.toNat) (by simp [hd])
      rw [hd] at hc
      obtain rfl : d = c := by simpa using hc
      exact isSpace_of_isDigit hdigit

/-- A printed signal is taken as a whole. -/
private theorem signalLength_append {t : Text} (h : IsSignal t) (rest : Text) :
    signalLength (t ++ ' ' :: rest) = some t.length := by
  rcases h with rfl | ⟨n, rfl⟩
  · rfl
  · have hdigit (k : Nat) : ∀ c ∈ decimal k, c.isDigit = true := fun c => isDigit_of_mem_decimal
    have hpos (k : Nat) : (decimal k).length ≠ 0 :=
      fun h0 => decimal_ne_nil k (List.length_eq_zero_iff.mp h0)
    unfold decimalInt
    by_cases hn : n < 0
    · rw [if_pos hn]
      have hhead : ('-' :: decimal n.natAbs ++ ' ' :: rest).head? = some '-' := rfl
      unfold signalLength
      dsimp only
      rw [hhead, if_neg (by decide), if_pos rfl, List.cons_append, List.drop_succ_cons,
        List.drop_zero, takeWhile_digits (hdigit _), if_neg (hpos _), List.length_cons, Nat.add_comm]
    · rw [if_neg hn]
      obtain ⟨c, cs, hc⟩ := List.exists_cons_of_ne_nil (decimal_ne_nil n.toNat)
      have hcd : c.isDigit = true := hdigit n.toNat c (by rw [hc]; exact List.mem_cons_self)
      have hhead : (decimal n.toNat ++ ' ' :: rest).head? = some c := by
        rw [hc]
        rfl
      have hq : some c ≠ some '?' := by
        rintro ⟨⟩
        cases hcd
      have hm : some c ≠ some '-' := by
        rintro ⟨⟩
        cases hcd
      unfold signalLength
      dsimp only
      rw [hhead, if_neg hq, if_neg hm, List.drop_zero, takeWhile_digits (hdigit _),
        if_neg (hpos _), Nat.zero_add]

/-- **A line in the form of a row is read as that row**, but for white space before the name. -/
theorem parseRow_line {mac sp signal endpoint tail : Text} (hmac : isMac mac = true)
    (hne : sp ≠ []) (hsp : ∀ c ∈ sp, isSpace c = true) (hsignal : IsSignal signal)
    (hend : endpoint ≠ []) (hendpoint : ∀ c ∈ endpoint, isSpace c = false)
    (htail : ∀ c, tail.head? = some c → isSpace c = true) :
    parseRow (mac ++ (sp ++ (signal ++ (" dBm  ".toList ++ (endpoint ++ tail))))) =
      some ⟨mac, signal, tail.dropWhile isSpace⟩ := by
  have hlen : mac.length = 17 := by
    unfold isMac at hmac
    rw [Bool.and_eq_true, beq_iff_eq] at hmac
    exact hmac.1
  have hsig : signal ++ (" dBm  ".toList ++ (endpoint ++ tail)) =
      signal ++ ' ' :: ("dBm  ".toList ++ (endpoint ++ tail)) := rfl
  have hdbm : " dBm".toList.isPrefixOf? (" dBm  ".toList ++ (endpoint ++ tail)) =
      some ("  ".toList ++ (endpoint ++ tail)) := rfl
  have hendhead : ∀ c, (endpoint ++ tail).head? = some c → isSpace c = false := by
    intro c hc
    obtain ⟨d, ds, rfl⟩ := List.exists_cons_of_ne_nil hend
    obtain rfl : d = c := by simpa using hc
    exact hendpoint d List.mem_cons_self
  have htake : (endpoint ++ tail).takeWhile (!isSpace ·) = endpoint := by
    rw [List.takeWhile_append_of_pos fun c hc => by simp [hendpoint c hc]]
    cases tail with
    | nil => simp
    | cons c tail => simp [htail c rfl]
  unfold parseRow
  rw [List.take_left' hlen, List.drop_left' hlen, if_neg (by rw [List.length_append]; omega), hmac,
    if_neg (by simp), afterSpace_append hne hsp fun c => isSpace_head_signal hsignal]
  simp only [Option.bind_eq_bind, Option.bind_some]
  rw [hsig, signalLength_append hsignal, Option.bind_some, ← hsig, List.drop_left, hdbm,
    Option.bind_some, afterSpace_append (by decide) (by decide) hendhead, Option.bind_some, htake,
    if_neg (by simpa using hend), List.take_left, List.drop_left]

theorem append_of_isPrefixOf {p t u : Text} (h : p.isPrefixOf? t = some u) : p ++ u = t := by
  induction p generalizing t with
  | nil =>
    rw [List.isPrefixOf?, Option.some.injEq] at h
    exact h.symm
  | cons c p ih =>
    cases t with
    | nil => simp [List.isPrefixOf?] at h
    | cons d t =>
      rw [List.isPrefixOf?] at h
      split_ifs at h with hcd
      rw [List.cons_append, ih h, beq_iff_eq.mp hcd]

/-- A row's name is a part of its line. -/
private theorem name_subset {line : Text} {row : Row} (h : parseRow line = some row) :
    row.name ⊆ line := by
  have hafter {t u : Text} (h : afterSpace t = some u) : u ⊆ t := by
    unfold afterSpace at h
    dsimp only at h
    split_ifs at h
    obtain rfl := Option.some.inj h
    exact (List.dropWhile_suffix _).subset
  unfold parseRow at h
  split_ifs at h
  simp only [Option.bind_eq_bind, Option.bind_eq_some_iff] at h
  obtain ⟨signal, hsignal, n, _, rest, hrest, endpoint, hendpoint, h⟩ := h
  split_ifs at h
  obtain rfl := Option.some.inj h
  have hsuffix : rest ⊆ signal.drop n := by
    rw [← append_of_isPrefixOf hrest]
    exact List.subset_append_right _ _
  exact fun c hc => (List.drop_suffix 17 line).subset (hafter hsignal
    ((List.drop_suffix _ _).subset (hsuffix (hafter hendpoint
      ((List.drop_suffix _ _).subset ((List.dropWhile_suffix _).subset hc))))))

/-- No row's name holds a line feed. -/
theorem newline_not_mem_name {listing : Text} {row : Row} (h : row ∈ rows listing) :
    '\n' ∉ row.name := by
  obtain ⟨line, hline, hrow⟩ := List.mem_filterMap.mp h
  exact fun hmem => newline_not_mem_strLines hline (name_subset hrow hmem)

end Omdrop.Cli
