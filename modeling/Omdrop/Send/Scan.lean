import Omdrop.Send.Heard
import Omdrop.Text.Fields
import Omdrop.Text.Regex

namespace Omdrop.Send

open Omdrop.Text Omdrop.Text.Regex

/-!
# The scanner of the table

`findMacRssi` is written by hand in place of an expression.  It passes over any number of dashes
before a number, where the expression has at most one: what it finds is the first match of that
looser expression (`findMacRssi_eq`), and `exact_iff` says for which lines that is what the
expression gives.
-/

/-! ### The expressions -/

/-- An address. -/
def macExpr : Regex :=
  group (seq (times 2 (one Cli.isMacDigit))
    (times 5 (seq (one (· == ':')) (times 2 (one Cli.isMacDigit)))))

/-- What follows an address, with what may stand before the digits of a number. -/
def signalExpr (sign : Regex) : Regex :=
  group (alt (seq sign (plus Char.isDigit)) (one (· == '?')))

/-- An address with a reading. -/
def readingExpr (sign : Regex) : Regex :=
  seq macExpr (seq (plus isWhitespace) (seq (lit "rssi=") (seq (star isWhitespace)
    (signalExpr sign))))

/-- `([0-9a-f]{2}(?::[0-9a-f]{2}){5})\s+rssi=\s*(-?\d+|\?)` -/
def peerExpr : Regex := readingExpr (opt (one (· == '-')))

/-- `([0-9a-f]{2}(?::[0-9a-f]{2}){5})\s+rssi=\s*(-*\d+|\?)` -/
def looserExpr : Regex := readingExpr (star (· == '-'))

/-- A MAC is of 17 characters. -/
private theorem length_of_isMac {t : Text} (h : Cli.isMac t = true) : t.length = 17 := by
  rw [Cli.isMac, Bool.and_eq_true, beq_iff_eq] at h
  exact h.1

/-- The classes of the characters of an address. -/
def macClasses : List (Char → Bool) :=
  [Cli.isMacDigit, Cli.isMacDigit] ++
    (List.replicate 5 ([(· == ':')] ++ [Cli.isMacDigit, Cli.isMacDigit])).flatten

/-- The expression of a MAC matches texts of one length, letter by letter. -/
private theorem fixed_mac : Fixed (seq (times 2 (one Cli.isMacDigit))
    (times 5 (seq (one (· == ':')) (times 2 (one Cli.isMacDigit))))) macClasses :=
  ((fixed_one _).times 2).seq ((((fixed_one _).seq ((fixed_one _).times 2))).times 5)

/-- The classes say what an address is. -/
private theorem stripClasses_mac (t : Text) : stripClasses macClasses t =
    if Cli.isMac (t.take 17) = true then some (t.drop 17) else none := by
  have hclasses : macClasses = (List.range' 0 17).map fun i c =>
      if i % 3 == 2 then c == ':' else Cli.isMacDigit c := rfl
  rw [hclasses, stripClasses_range]
  rfl

/-- An address leaves no choice. -/
private theorem runs_macExpr (t : Text) : runs macExpr t =
    if Cli.isMac (t.take 17) = true then [([t.take 17], t.drop 17)] else [] := by
  rw [macExpr, runs, fixed_mac t, stripClasses_mac]
  split
  · rename_i hmac
    have hlen : (t.take 17).length = 17 := length_of_isMac hmac
    rw [List.length_take] at hlen
    have hsplit : t.length - (t.drop 17).length = 17 := by
      rw [List.length_drop]
      omega
    show [([t.take (t.length - (t.drop 17).length)], t.drop 17)] = _
    rw [hsplit]
  · rfl

/-! ### The reading -/

/-- A number with what stands before its digits, or a question mark. -/
def signalText (sign digits v : Text) : Option Text :=
  if digits.head?.any Char.isDigit then some (sign ++ digits.takeWhile Char.isDigit)
  else if v.head? = some '?' then some ['?']
  else none

/-- Where the digits of a number start when one dash may stand before them. -/
def afterDash (v : Text) : Text := if v.head? = some '-' then v.tail else v

/-- Where they start when any number of dashes may. -/
def afterDashes (v : Text) : Text := v.dropWhile (· == '-')

/-- Digits are taken as far as they go, if there is one. -/
private theorem runs_digits (t : Text) : (runs (plus Char.isDigit) t).head? =
    if t.head?.any Char.isDigit then some ([], t.dropWhile Char.isDigit) else none := by
  cases t with
  | nil => rfl
  | cons c t =>
    by_cases hc : c.isDigit = true
    · have hruns : runs (plus Char.isDigit) (c :: t) = starRuns Char.isDigit t := by
        simp [plus, runs, hc]
      rw [hruns, head_starRuns, List.head?_cons, Option.any_some, if_pos hc, List.dropWhile_cons,
        if_pos hc]
    · simp [plus, runs, hc]

/-- Where no digit comes first, the expression of digits fails. -/
theorem runs_digits_nil {t : Text} (h : t.head?.any Char.isDigit = false) :
    runs (plus Char.isDigit) t = [] := by
  cases t with
  | nil => rfl
  | cons c t =>
    have hc : c.isDigit = false := by simpa using h
    simp [plus, runs, hc]

/-- One dash before the digits is taken where there is one. -/
private theorem runs_opt_dash (v : Text) :
    runs (seq (opt (one (· == '-'))) (plus Char.isDigit)) v =
      runs (plus Char.isDigit) (afterDash v) := by
  cases v with
  | nil => rfl
  | cons c v =>
    by_cases hc : c = '-'
    · subst hc
      have hnone : runs (plus Char.isDigit) ('-' :: v) = [] := runs_digits_nil rfl
      simp [opt, afterDash, runs, hnone]
    · simp [opt, afterDash, runs, hc]

/-- All dashes before the digits are taken. -/
private theorem runs_dashes (v : Text) :
    runs (seq (star (· == '-')) (plus Char.isDigit)) v =
      runs (plus Char.isDigit) (afterDashes v) := by
  refine runs_star_seq (fun c t hc => ?_) v
  obtain rfl := beq_iff_eq.mp hc
  exact runs_digits_nil rfl

/-- What is captured of a reading: the digits from where they start, with what stands before
    them. -/
private theorem head_signalExpr {sign : Regex} {v pre digits : Text} (hv : v = pre ++ digits)
    (hruns : runs (seq sign (plus Char.isDigit)) v = runs (plus Char.isDigit) digits) :
    (runs (signalExpr sign) v).head?.map Prod.fst = (signalText pre digits v).map fun s => [s] := by
  rw [signalExpr, runs, runs, List.head?_map, List.head?_append, hruns, runs_digits, signalText]
  by_cases hdigit : digits.head?.any Char.isDigit = true
  · have hall : digits.takeWhile Char.isDigit ++ digits.dropWhile Char.isDigit = digits :=
      List.takeWhile_append_dropWhile
    have hform : v = (pre ++ digits.takeWhile Char.isDigit) ++ digits.dropWhile Char.isDigit := by
      rw [hv, List.append_assoc, hall]
    have htaken : v.take (v.length - (digits.dropWhile Char.isDigit).length) =
        pre ++ digits.takeWhile Char.isDigit := by
      conv_lhs => rw [hform]
      rw [List.length_append, Nat.add_sub_cancel, List.take_left']
      rfl
    rw [if_pos hdigit, if_pos hdigit]
    show some [v.take _] = some [_]
    rw [htaken]
  · rw [if_neg hdigit, if_neg hdigit]
    cases v with
    | nil => rfl
    | cons c v =>
      by_cases hc : c = '?'
      · subst hc
        simp [runs]
      · simp [runs, hc]

/-- Nothing is trimmed where no space comes first. -/
theorem trimStart_length {t : Text} :
    (trimStart t).length = t.length ↔ t.head?.any isWhitespace = false := by
  cases t with
  | nil => simp [trimStart]
  | cons c t =>
    by_cases hc : isWhitespace c = true
    · have hle : (t.dropWhile isWhitespace).length ≤ t.length :=
        (List.dropWhile_suffix _).length_le
      have htrim : trimStart (c :: t) = t.dropWhile isWhitespace := by
        rw [trimStart, List.dropWhile_cons, if_pos hc]
      rw [htrim]
      simp only [List.length_cons, List.head?_cons, Option.any_some, hc, Bool.true_eq_false,
        iff_false]
      omega
    · rw [trimStart, List.dropWhile_cons, if_neg hc]
      simpa using hc

/-- Between the address and the reading there is no choice. -/
private theorem runs_tail {s : Regex} (hs : ∀ c t, isWhitespace c = true → runs s (c :: t) = [])
    (rest : Text) :
    runs (seq (plus isWhitespace) (seq (lit "rssi=") (seq (star isWhitespace) s))) rest =
      (rssiTail rest).elim [] (runs s) := by
  have hlit : ∀ t, runs (seq (lit "rssi=") (seq (star isWhitespace) s)) t =
      ("rssi=".toList.isPrefixOf? t).elim [] fun u => runs s (trimStart u) := by
    intro t
    rw [(fixed_lit _).runs_seq, stripClasses_lit]
    cases "rssi=".toList.isPrefixOf? t with
    | none => rfl
    | some u => exact runs_star_seq hs u
  have hspace : ∀ c t, isWhitespace c = true →
      runs (seq (lit "rssi=") (seq (star isWhitespace) s)) (c :: t) = [] := by
    intro c t hc
    have hr : ('r' == c) = false := by
      rw [beq_eq_false_iff_ne]
      rintro rfl
      exact absurd hc (by decide)
    rw [hlit]
    show (List.isPrefixOf? ('r' :: "ssi=".toList) (c :: t)).elim [] _ = []
    rw [List.isPrefixOf?, hr]
    rfl
  rw [runs_plus_seq hspace, hlit, rssiTail]
  by_cases hhead : rest.head?.any isWhitespace = true
  · rw [if_pos hhead, if_neg (by rw [trimStart_length, hhead]; decide)]
    show ("rssi=".toList.isPrefixOf? (trimStart rest)).elim [] _ = _
    cases "rssi=".toList.isPrefixOf? (trimStart rest) <;> rfl
  · rw [if_neg hhead, if_pos (trimStart_length.mpr (by simpa using hhead))]
    rfl

/-- A way to read the sign of a number: what stands before its digits and where they start, as the
    expression for it has it. -/
structure SignRule where
  sign : Regex
  pre : Text → Text
  digits : Text → Text
  split : ∀ v, v = pre v ++ digits v
  runs_eq : ∀ v, runs (seq sign (plus Char.isDigit)) v = runs (plus Char.isDigit) (digits v)
  space : ∀ c v, isWhitespace c = true → digits (c :: v) = c :: v

/-- At most one dash. -/
def SignRule.dash : SignRule where
  sign := opt (one (· == '-'))
  pre v := if v.head? = some '-' then ['-'] else []
  digits := afterDash
  split v := by
    unfold afterDash
    cases v with
    | nil => rfl
    | cons c v => by_cases hc : c = '-' <;> simp [hc]
  runs_eq := runs_opt_dash
  space c v hc := by
    have hdash : c ≠ '-' := by
      rintro rfl
      exact absurd hc (by decide)
    simp [afterDash, hdash]

/-- Any number of dashes. -/
def SignRule.dashes : SignRule where
  sign := star (· == '-')
  pre v := v.takeWhile (· == '-')
  digits := afterDashes
  split v := List.takeWhile_append_dropWhile.symm
  runs_eq := runs_dashes
  space c v hc := by
    have hdash : (c == '-') = false := by
      rw [beq_eq_false_iff_ne]
      rintro rfl
      exact absurd hc (by decide)
    simp [afterDashes, hdash]

/-- What is captured behind an address, by a rule for the sign. -/
def SignRule.signal (rule : SignRule) (rest : Text) : Option Text :=
  (rssiTail rest).bind fun v => signalText (rule.pre v) (rule.digits v) v

/-- **What an expression captures at a place.** -/
theorem head_readingExpr (rule : SignRule) (t : Text) :
    (runs (readingExpr rule.sign) t).head?.map Prod.fst =
      if Cli.isMac (t.take 17) = true then
        (rule.signal (t.drop 17)).map fun s => [t.take 17, s]
      else none := by
  have hspace : ∀ c v, isWhitespace c = true → runs (signalExpr rule.sign) (c :: v) = [] := by
    intro c v hc
    have hdigit : c.isDigit = false := by
      by_contra h
      rw [isWhitespace_of_isDigit (by simpa using h)] at hc
      cases hc
    have hmark : (c == '?') = false := by
      rw [beq_eq_false_iff_ne]
      rintro rfl
      exact absurd hc (by decide)
    rw [signalExpr, runs, runs, rule.runs_eq, rule.space c v hc, runs_digits_nil (by simpa)]
    simp [runs, hmark]
  rw [readingExpr, runs, runs_macExpr]
  split
  · rw [List.flatMap_singleton]
    show ((runs _ (t.drop 17)).map fun x => ([t.take 17] ++ x.1, x.2)).head?.map Prod.fst = _
    rw [runs_tail hspace, List.head?_map, Option.map_map, SignRule.signal]
    cases rssiTail (t.drop 17) with
    | none => rfl
    | some v =>
      have hsignal := head_signalExpr (rule.split v) (rule.runs_eq v)
      have hcaps : (runs (signalExpr rule.sign) v).head?.map (fun x => [t.take 17] ++ x.1) =
          ((runs (signalExpr rule.sign) v).head?.map Prod.fst).map ([t.take 17] ++ ·) := by
        rw [Option.map_map]
        rfl
      show (runs (signalExpr rule.sign) v).head?.map (fun x => [t.take 17] ++ x.1) =
        (signalText (rule.pre v) (rule.digits v) v).map fun s => [t.take 17, s]
      rw [hcaps, hsignal, Option.map_map]
      rfl
  · rfl

/-! ### Places -/

/-- What an expression captures at a place: the address and the reading. -/
def capturesAt (rule : SignRule) (t : Text) : Option (Text × Text) :=
  if Cli.isMac (t.take 17) = true then (rule.signal (t.drop 17)).map fun s => (t.take 17, s)
  else none

/-- What it captures at the first place where it matches. -/
def firstCaptures (rule : SignRule) : Text → Option (Text × Text)
  | []     => none
  | c :: t => (capturesAt rule (c :: t)).or (firstCaptures rule t)

/-- The expression captures what the search by hand finds. -/
theorem first_readingExpr (rule : SignRule) (line : Text) :
    first (readingExpr rule.sign) line = (firstCaptures rule line).map fun x => [x.1, x.2] := by
  have hplace : ∀ t, (runs (readingExpr rule.sign) t).head?.map Prod.fst =
      (capturesAt rule t).map fun x => [x.1, x.2] := by
    intro t
    rw [head_readingExpr, capturesAt]
    split
    · rw [Option.map_map]
      rfl
    · rfl
  induction line with
  | nil =>
    rw [first, hplace]
    rfl
  | cons c t ih =>
    have hhere := hplace (c :: t)
    rw [first, firstCaptures, ih]
    cases hcaps : capturesAt rule (c :: t) with
    | none =>
      rw [hcaps, Option.map_none, Option.map_eq_none_iff] at hhere
      rw [hhere]
      rfl
    | some x =>
      rw [hcaps, Option.map_some, Option.map_eq_some_iff] at hhere
      obtain ⟨y, hy, hxy⟩ := hhere
      rw [hy]
      exact congrArg some hxy

/-- The expression captures two texts just where the search by hand finds these. -/
theorem captures_iff (rule : SignRule) (line m s : Text) :
    first (readingExpr rule.sign) line = some [m, s] ↔
      firstCaptures rule line = some (m, s) := by
  rw [first_readingExpr]
  cases firstCaptures rule line with
  | none => simp
  | some x => simp [Prod.ext_iff]

/-- The number of dashes in front. -/
def dashCount (s : Text) : Nat := (s.takeWhile (· == '-')).length

/-- Dashes before digits are all dashes that there are. -/
theorem takeWhile_dashes {pre : Text} (hpre : ∀ c ∈ pre, c = '-') (digits : Text) :
    (pre ++ digits.takeWhile Char.isDigit).takeWhile (· == '-') = pre ∧
      (pre ++ digits.takeWhile Char.isDigit).dropWhile (· == '-') =
        digits.takeWhile Char.isDigit := by
  have hall : ∀ c ∈ pre, (c == '-') = true := fun c hc => beq_iff_eq.mpr (hpre c hc)
  have hhead : ∀ c, (digits.takeWhile Char.isDigit).head? = some c → (c == '-') = false := by
    intro c hc
    have hdigit := List.mem_takeWhile_imp (List.mem_of_mem_head? hc)
    rw [beq_eq_false_iff_ne]
    rintro rfl
    cases hdigit
  rw [List.takeWhile_append_of_pos hall, List.dropWhile_append_of_pos hall]
  cases hd : digits.takeWhile Char.isDigit with
  | nil => simp
  | cons c t =>
    have hc := hhead c (by rw [hd]; rfl)
    simp [hc]

/-- What is captured is a number with its sign, or a question mark. -/
theorem signalText_cases {pre digits v s : Text} (h : signalText pre digits v = some s) :
    digits.head?.any Char.isDigit = true ∧ s = pre ++ digits.takeWhile Char.isDigit ∨
      digits.head?.any Char.isDigit = false ∧ v.head? = some '?' ∧ s = ['?'] := by
  unfold signalText at h
  split at h
  · rename_i hdigit
    exact .inl ⟨hdigit, (Option.some.inj h).symm⟩
  · rename_i hdigit
    split at h
    · rename_i hmark
      exact .inr ⟨by simpa using hdigit, hmark, (Option.some.inj h).symm⟩
    · cases h

/-- A signal shows the dashes that were read before it, or is unknown. -/
private theorem dashCount_of_signalText {pre digits v s : Text} (hpre : ∀ c ∈ pre, c = '-')
    (h : signalText pre digits v = some s) : s = ['?'] ∨ dashCount s = pre.length := by
  rcases signalText_cases h with ⟨-, rfl⟩ | ⟨-, -, rfl⟩
  · exact .inr (by rw [dashCount, (takeWhile_dashes hpre digits).1])
  · exact .inl rfl

/-- Where more than one dash is read, two come first. -/
private theorem two_dashes {v : Text} (h : 1 < (SignRule.dashes.pre v).length) :
    ∃ w, v = '-' :: '-' :: w := by
  obtain _ | ⟨c, _ | ⟨d, w⟩⟩ := v
  · cases h
  · have hle := (List.takeWhile_prefix (l := [c]) (· == '-')).length_le
    have hone : (SignRule.dashes.pre [c]).length ≤ 1 := hle
    omega
  · by_cases hc : c = '-'
    · by_cases hd : d = '-'
      · exact ⟨w, by rw [hc, hd]⟩
      · simp [SignRule.dashes, hc, hd] at h
    · simp [SignRule.dashes, hc] at h

/-- Where at most one dash is read, both rules read the same. -/
private theorem few_dashes {v : Text} (h : ¬ 1 < (SignRule.dashes.pre v).length) :
    SignRule.dash.pre v = SignRule.dashes.pre v ∧
      SignRule.dash.digits v = SignRule.dashes.digits v := by
  obtain _ | ⟨c, _ | ⟨d, w⟩⟩ := v
  · exact ⟨rfl, rfl⟩
  · by_cases hc : c = '-' <;>
      simp [SignRule.dash, SignRule.dashes, afterDash, afterDashes, hc]
  · by_cases hc : c = '-'
    · by_cases hd : d = '-'
      · simp [SignRule.dashes, hc, hd] at h
      · simp [SignRule.dash, SignRule.dashes, afterDash, afterDashes, hc, hd]
    · simp [SignRule.dash, SignRule.dashes, afterDash, afterDashes, hc]

/-- With one dash or none the two rules agree, and with more the expression does not match. -/
theorem signal_dash_iff {v s : Text} :
    signalText (SignRule.dash.pre v) (SignRule.dash.digits v) v = some s ↔
      signalText (SignRule.dashes.pre v) (SignRule.dashes.digits v) v = some s ∧
        dashCount s ≤ 1 := by
  have hdashes : ∀ c ∈ SignRule.dashes.pre v, c = '-' := fun c hc =>
    beq_iff_eq.mp (List.mem_takeWhile_imp (p := (· == '-')) hc)
  have hcount : ∀ {s}, signalText (SignRule.dashes.pre v) (SignRule.dashes.digits v) v = some s →
      s = ['?'] ∨ dashCount s = (SignRule.dashes.pre v).length := fun h =>
    dashCount_of_signalText hdashes h
  by_cases hmany : 1 < (SignRule.dashes.pre v).length
  · obtain ⟨w, rfl⟩ : ∃ w, v = '-' :: '-' :: w := two_dashes hmany
    have hstrict : signalText (SignRule.dash.pre ('-' :: '-' :: w))
        (SignRule.dash.digits ('-' :: '-' :: w)) ('-' :: '-' :: w) = none := rfl
    rw [hstrict]
    refine ⟨fun h => (nomatch h), fun ⟨hs, hone⟩ => ?_⟩
    rcases signalText_cases hs with ⟨-, rfl⟩ | ⟨-, hmark, -⟩
    · rw [dashCount, (takeWhile_dashes hdashes _).1] at hone
      omega
    · cases hmark
  · have hsame : SignRule.dash.pre v = SignRule.dashes.pre v ∧
        SignRule.dash.digits v = SignRule.dashes.digits v := few_dashes hmany
    rw [hsame.1, hsame.2]
    refine ⟨fun h => ⟨h, ?_⟩, fun h => h.1⟩
    rcases hcount h with rfl | h
    · decide
    · omega

/-- **The looser expression's first match** is the expression's, unless it has more dashes. -/
theorem firstCaptures_dash (line : Text) :
    (firstCaptures .dashes line = none → firstCaptures .dash line = none) ∧
    ∀ m s, firstCaptures .dashes line = some (m, s) → dashCount s ≤ 1 →
      firstCaptures .dash line = some (m, s) := by
  have hplace : ∀ t m s, capturesAt .dash t = some (m, s) ↔
      capturesAt .dashes t = some (m, s) ∧ dashCount s ≤ 1 := by
    intro t m s
    unfold capturesAt SignRule.signal
    split
    · cases rssiTail (t.drop 17) with
      | none => simp
      | some v =>
        rw [Option.bind_some, Option.bind_some, Option.map_eq_some_iff, Option.map_eq_some_iff]
        constructor
        · rintro ⟨s', hs, heq⟩
          obtain ⟨rfl, rfl⟩ := Prod.mk.inj heq
          obtain ⟨hs, hcount⟩ := signal_dash_iff.mp hs
          exact ⟨⟨s', hs, rfl⟩, hcount⟩
        · rintro ⟨⟨s', hs, heq⟩, hcount⟩
          obtain ⟨rfl, rfl⟩ := Prod.mk.inj heq
          exact ⟨s', signal_dash_iff.mpr ⟨hs, hcount⟩, rfl⟩
    · simp
  induction line with
  | nil => exact ⟨fun _ => rfl, fun m s h => (nomatch h)⟩
  | cons c t ih =>
    simp only [firstCaptures]
    cases hloose : capturesAt .dashes (c :: t) with
    | none =>
      have hstrict : capturesAt .dash (c :: t) = none := by
        by_contra hne
        obtain ⟨⟨m, s⟩, hms⟩ := Option.ne_none_iff_exists'.mp hne
        rw [((hplace _ m s).mp hms).1] at hloose
        cases hloose
      rw [hstrict]
      exact ih
    | some x =>
      refine ⟨fun h => (nomatch h), fun m s h hcount => ?_⟩
      obtain rfl := Option.some.inj h
      rw [(hplace _ m s).mpr ⟨hloose, hcount⟩]
      rfl

/-! ### Signals -/

/-- The number behind the dashes. -/
def number (s : Text) : Nat := (ofDecimal (s.dropWhile (· == '-'))).getD 0

/-- What the scanner makes of what is captured. -/
def shownSignal (s : Text) : Option Int :=
  if s = ['?'] then none
  else
    let n : Int := min (number s) (2 ^ 63 - 1)
    some (if s.head? = some '-' then -n else n)

/-- What the expression's capture stands for: unknown, or an integer. -/
def signalOf (s : Text) : Option Int :=
  if s = ['?'] then none
  else if s.head? = some '-' then some (-(ofDecimal s.tail).getD 0)
  else some ((ofDecimal s).getD 0)

/-- A signed number of sixty-four bits. -/
def FitsI64 (v : Int) : Prop := -2 ^ 63 ≤ v ∧ v < 2 ^ 63

/-- The number of dashes and digits is that of the digits. -/
private theorem number_of_digits {pre : Text} (hpre : ∀ c ∈ pre, c = '-') (digits : Text) :
    number (pre ++ digits.takeWhile Char.isDigit) =
      (ofDecimal (digits.takeWhile Char.isDigit)).getD 0 := by
  rw [number, (takeWhile_dashes hpre digits).2]

/-- Digits are taken exactly when one comes first. -/
theorem takeWhile_ne_nil {t : Text} :
    t.takeWhile Char.isDigit ≠ [] ↔ t.head?.any Char.isDigit = true := by
  cases t with
  | nil => simp
  | cons c t => by_cases hc : c.isDigit = true <;> simp [hc]

/-- The signal that is read is the one that is shown of its text. -/
private theorem readSignal_eq (v : Text) :
    readSignal v =
      (signalText (SignRule.dashes.pre v) (SignRule.dashes.digits v) v).map shownSignal := by
  have hdashes : ∀ c ∈ SignRule.dashes.pre v, c = '-' := fun c hc =>
    beq_iff_eq.mp (List.mem_takeWhile_imp (p := (· == '-')) hc)
  -- a question mark says that the signal is not known
  by_cases hmark : v.head? = some '?'
  · obtain ⟨w, rfl⟩ : ∃ w, v = '?' :: w := List.head?_eq_some_iff.mp hmark
    rfl
  · rw [readSignal, if_neg hmark, signalText, if_neg hmark]
    by_cases hdigit : (SignRule.dashes.digits v).head?.any Char.isDigit = true
    · -- there are digits behind the dashes
      have hne := takeWhile_ne_nil.mpr hdigit
      obtain ⟨n, hn⟩ := ofDecimal_of_isDigit fun c hc =>
        List.mem_takeWhile_imp (l := SignRule.dashes.digits v) hc
      have hnumber : number (SignRule.dashes.pre v ++
          (SignRule.dashes.digits v).takeWhile Char.isDigit) = n := by
        rw [number_of_digits hdashes, hn]
        rfl
      -- digits are no question mark
      have hquestion : SignRule.dashes.pre v ++
          (SignRule.dashes.digits v).takeWhile Char.isDigit ≠ ['?'] := by
        intro h
        rcases List.append_eq_singleton_iff.mp h with ⟨-, hdigits⟩ | ⟨-, hdigits⟩
        · have hmem : '?' ∈ (SignRule.dashes.digits v).takeWhile Char.isDigit := by
            rw [hdigits]
            exact List.mem_singleton_self _
          have hisDigit : Char.isDigit '?' = true := List.mem_takeWhile_imp hmem
          cases hisDigit
        · exact hne hdigits
      -- one dash or many: the number is negative
      have hsign : (SignRule.dashes.pre v ++
          (SignRule.dashes.digits v).takeWhile Char.isDigit).head? = some '-' ↔
            v.head? = some '-' := by
        conv_rhs => rw [SignRule.dashes.split v]
        cases hpre : SignRule.dashes.pre v with
        | nil =>
          obtain ⟨c, w, hcw⟩ := List.exists_cons_of_ne_nil hne
          have hv : SignRule.dashes.digits v =
              (c :: w) ++ (SignRule.dashes.digits v).dropWhile Char.isDigit := by
            rw [← hcw, List.takeWhile_append_dropWhile]
          rw [List.nil_append, List.nil_append, hcw, hv]
          rfl
        | cons c w => rfl
      have hread : (if (SignRule.dashes.digits v).takeWhile Char.isDigit = [] then none
          else (ofDecimal ((SignRule.dashes.digits v).takeWhile Char.isDigit)).map fun value =>
            let n : Int := min value (2 ^ 63 - 1)
            some (if v.head? = some '-' then -n else n)) =
          some (some (if v.head? = some '-' then -min (n : Int) (2 ^ 63 - 1)
            else min (n : Int) (2 ^ 63 - 1))) := by
        rw [if_neg hne, hn]
        rfl
      rw [if_pos hdigit, Option.map_some, shownSignal, if_neg hquestion, hnumber]
      simp only [hsign]
      exact hread
    · have hnil : (SignRule.dashes.digits v).takeWhile Char.isDigit = [] := by
        by_contra h
        exact hdigit (takeWhile_ne_nil.mp h)
      rw [if_neg hdigit]
      exact if_pos hnil

/-- **What the scanner finds** is the first match of the looser expression. -/
theorem findMacRssi_eq (line : Text) :
    (findMacRssi line).map (fun x => (x.1.text, x.2)) =
      (firstCaptures .dashes line).map fun x => (x.1, shownSignal x.2) := by
  induction line with
  | nil => rfl
  | cons c t ih =>
    rw [findMacRssi, firstCaptures, capturesAt]
    split
    · rename_i hmac
      have hrssi : rssiAfter ((c :: t).drop 17) =
          (SignRule.dashes.signal ((c :: t).drop 17)).map shownSignal := by
        rw [rssiAfter, SignRule.signal, Option.map_bind]
        exact congrArg _ (funext readSignal_eq)
      cases hsignal : SignRule.dashes.signal ((c :: t).drop 17) with
      | none =>
        rw [hsignal] at hrssi
        rw [hrssi]
        exact ih
      | some s =>
        rw [hsignal] at hrssi
        rw [hrssi]
        rfl
    · exact ih

/-! ### Exactness -/

/-- Does the scanner find what the expression matches first? -/
structure Exact (line : Text) : Prop where
  nothing : first peerExpr line = none → findMacRssi line = none
  found : ∀ m s, first peerExpr line = some [m, s] →
    ∃ mac rssi, findMacRssi line = some (mac, rssi) ∧ mac.text = m ∧
      (rssi = none ↔ signalOf s = none) ∧ ∀ v, signalOf s = some v → FitsI64 v → rssi = some v

/-- The first match of the looser expression has one dash at most and a number above the smallest
    of sixty-four bits, or the expression's own first match, behind it, says the same. -/
def Sound (line : Text) : Prop :=
  ∀ m s, first looserExpr line = some [m, s] →
    (dashCount s ≤ 1 ∧ signalOf s ≠ some (-2 ^ 63)) ∨
    (1 < dashCount s ∧ ∃ s', first peerExpr line = some [m, s'] ∧ signalOf s' ≠ none ∧
      ∀ v, signalOf s' = some v → FitsI64 v → v = -min (number s : Int) (2 ^ 63 - 1))

/-- Is what the scanner makes of the second capture what the first one stands for? -/
def Agrees (s s' : Text) : Prop :=
  (shownSignal s' = none ↔ signalOf s = none) ∧
    ∀ v, signalOf s = some v → FitsI64 v → shownSignal s' = some v

/-- A line is read exactly when its captures by both rules say the same. -/
private theorem exact_iff_captures (line : Text) : Exact line ↔
    (firstCaptures .dash line = none → firstCaptures .dashes line = none) ∧
    ∀ m s, firstCaptures .dash line = some (m, s) →
      ∃ s', firstCaptures .dashes line = some (m, s') ∧ Agrees s s' := by
  have hscan := findMacRssi_eq line
  have hfirst : first peerExpr line = (firstCaptures .dash line).map fun x => [x.1, x.2] :=
    first_readingExpr .dash line
  have hnothing : first peerExpr line = none ↔ firstCaptures .dash line = none := by
    rw [hfirst, Option.map_eq_none_iff]
  have hfound : ∀ m s, first peerExpr line = some [m, s] ↔
      firstCaptures .dash line = some (m, s) := captures_iff .dash line
  have hnone : findMacRssi line = none ↔ firstCaptures .dashes line = none := by
    rw [← Option.map_eq_none_iff, hscan, Option.map_eq_none_iff]
  constructor
  · rintro ⟨hn, hf⟩
    refine ⟨fun h => hnone.mp (hn (hnothing.mpr h)), fun m s h => ?_⟩
    obtain ⟨mac, rssi, hfind, rfl, hunknown, hvalue⟩ := hf m s ((hfound m s).mpr h)
    rw [hfind] at hscan
    obtain ⟨⟨m', s'⟩, hcaps, heq⟩ := Option.map_eq_some_iff.mp hscan.symm
    have hpair : m' = mac.text ∧ shownSignal s' = rssi := Prod.mk.inj heq
    obtain ⟨rfl, rfl⟩ := hpair
    exact ⟨s', hcaps, hunknown, hvalue⟩
  · rintro ⟨hn, hf⟩
    refine ⟨fun h => hnone.mpr (hn (hnothing.mp h)), fun m s h => ?_⟩
    obtain ⟨s', hcaps, hunknown, hvalue⟩ := hf m s ((hfound m s).mp h)
    rw [hcaps] at hscan
    obtain ⟨⟨mac, rssi⟩, hfind, heq⟩ := Option.map_eq_some_iff.mp hscan
    have hpair : mac.text = m ∧ rssi = shownSignal s' := Prod.mk.inj heq
    obtain ⟨rfl, rfl⟩ := hpair
    exact ⟨mac, _, hfind, rfl, hunknown, hvalue⟩

/-- A capture with one dash at most stands for its number, with the sign. -/
private theorem signalOf_eq {s : Text} (h : dashCount s ≤ 1) : signalOf s =
    if s = ['?'] then none
    else some (if s.head? = some '-' then -(number s : Int) else number s) := by
  unfold signalOf number
  cases s with
  | nil => rfl
  | cons c t =>
    by_cases hc : c = '-'
    · subst hc
      have hnil : t.takeWhile (· == '-') = [] := by
        simpa [dashCount] using h
      have hrest : t.dropWhile (· == '-') = t := by
        have hall := List.takeWhile_append_dropWhile (p := (· == '-')) (l := t)
        rwa [hnil, List.nil_append] at hall
      have htail : ('-' :: t).dropWhile (· == '-') = t := by
        rw [List.dropWhile_cons_of_pos (by decide), hrest]
      rw [htail]
      rfl
    · have hself : (c :: t).dropWhile (· == '-') = c :: t :=
        List.dropWhile_cons_of_neg (by simpa using hc)
      have hhead : (c :: t).head? ≠ some '-' := by simpa using hc
      rw [hself, if_neg hhead, if_neg hhead]

/-- With one dash at most a capture is misread only when it is the smallest number. -/
private theorem agrees_self {s : Text} (h : dashCount s ≤ 1) :
    Agrees s s ↔ signalOf s ≠ some (-2 ^ 63) := by
  rw [Agrees, signalOf_eq h, shownSignal]
  by_cases hmark : s = ['?']
  · simp [hmark]
  · rw [if_neg hmark, if_neg hmark]
    simp only [reduceCtorEq, true_and, Option.some.injEq, forall_eq', FitsI64, ne_eq]
    split <;> omega

/-- With more it is read as minus the number. -/
theorem agrees_many {s s' : Text} (h : 1 < dashCount s') : Agrees s s' ↔
    signalOf s ≠ none ∧
      ∀ v, signalOf s = some v → FitsI64 v → v = -min (number s' : Int) (2 ^ 63 - 1) := by
  have hmark : s' ≠ ['?'] := by
    rintro rfl
    cases h
  have hhead : s'.head? = some '-' := by
    cases s' with
    | nil => cases h
    | cons c t =>
      by_contra hc
      have hnil : (c :: t).takeWhile (· == '-') = [] :=
        List.takeWhile_cons_of_neg (by simpa using hc)
      rw [dashCount, hnil] at h
      cases h
  have hshown : shownSignal s' = some (-min (number s' : Int) (2 ^ 63 - 1)) := by
    rw [shownSignal, if_neg hmark]
    exact congrArg some (if_pos hhead)
  rw [Agrees, hshown]
  refine and_congr ?_ ?_
  · simp [eq_comm]
  · exact forall_congr' fun v => forall_congr' fun _ => forall_congr' fun _ => by
      rw [Option.some.injEq, eq_comm]

/-- **The scanner is exact** when no reading has more than one dash before it. -/
theorem exact_iff (line : Text) : Exact line ↔ Sound line := by
  have hfirst : ∀ m s, first peerExpr line = some [m, s] ↔
      firstCaptures .dash line = some (m, s) := captures_iff .dash line
  have hloose : ∀ m s, first looserExpr line = some [m, s] ↔
      firstCaptures .dashes line = some (m, s) := captures_iff .dashes line
  obtain ⟨hnone, hone⟩ := firstCaptures_dash line
  simp only [exact_iff_captures, Sound, hfirst, hloose]
  cases hcaps : firstCaptures .dashes line with
  | none => simp [hnone hcaps]
  | some x =>
    obtain ⟨m, s⟩ := x
    -- with one dash at most both expressions read the same
    by_cases hcount : dashCount s ≤ 1
    · have hself := agrees_self hcount
      have hfew : ¬ 1 < dashCount s := by omega
      rw [hone m s hcaps hcount]
      constructor
      · rintro ⟨-, hf⟩ m' s' heq
        obtain ⟨rfl, rfl⟩ := Prod.mk.inj (Option.some.inj heq)
        obtain ⟨s', hs', hagrees⟩ := hf m s rfl
        obtain ⟨-, rfl⟩ := Prod.mk.inj (Option.some.inj hs')
        exact .inl ⟨hcount, hself.mp hagrees⟩
      · intro hsound
        refine ⟨fun h => h, fun m' s' heq => ?_⟩
        obtain ⟨rfl, rfl⟩ := Prod.mk.inj (Option.some.inj heq)
        rcases hsound m s rfl with ⟨-, hmin⟩ | ⟨hmany, -⟩
        · exact ⟨s, rfl, hself.mpr hmin⟩
        · exact absurd hmany hfew
    · -- with more of them the number has another sign or none
      have hmany : 1 < dashCount s := by omega
      constructor
      · rintro ⟨hn, hf⟩ m' s' heq
        obtain ⟨rfl, rfl⟩ := Prod.mk.inj (Option.some.inj heq)
        refine .inr ⟨hmany, ?_⟩
        cases hstrict : firstCaptures .dash line with
        | none => cases hn hstrict
        | some y =>
          obtain ⟨s', hs', hagrees⟩ := hf y.1 y.2 hstrict
          obtain ⟨hm, rfl⟩ := Prod.mk.inj (Option.some.inj hs')
          have hvalue := (agrees_many hmany).mp hagrees
          exact ⟨y.2, by rw [hm], hvalue⟩
      · intro hsound
        rcases hsound m s rfl with ⟨hle, -⟩ | ⟨-, s', hstrict, hvalue⟩
        · exact absurd hle hcount
        · rw [hstrict]
          refine ⟨fun h => (nomatch h), fun m' s'' heq => ?_⟩
          obtain ⟨rfl, rfl⟩ := Prod.mk.inj (Option.some.inj heq)
          exact ⟨s, rfl, (agrees_many hmany).mpr hvalue⟩

/-- Two dashes: the expression has no match, and the scanner has the number. -/
theorem twoDashes_not_exact : ¬ Exact "aa:bb:cc:dd:ee:ff rssi=--5".toList := by
  intro h
  have hnone : findMacRssi "aa:bb:cc:dd:ee:ff rssi=--5".toList = none := h.nothing (by decide)
  have hfound : (findMacRssi "aa:bb:cc:dd:ee:ff rssi=--5".toList).map Prod.snd =
      some (some (-5)) := by decide
  rw [hnone] at hfound
  cases hfound

end Omdrop.Send
