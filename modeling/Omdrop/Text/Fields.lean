import Mathlib.Algebra.Order.Field.Rat
import Mathlib.Tactic.FieldSimp
import Omdrop.Text.Space

namespace Omdrop.Text

/-!
# Fields

A line of fields with white space between them, and the decimals that stand in them.  A
decimal is **canonical** when it is digits only and has no zero in front:
`canonical_iff` says that it is then the decimal of a number.
-/

/-- The fields of a line. -/
def splitWhitespace (t : Text) : List Text := (t.splitOnP isWhitespace).filter (· ≠ [])

@[simp] theorem splitWhitespace_nil : splitWhitespace [] = [] := by
  simp [splitWhitespace]

/-- The first field ends before the first white space. -/
private theorem splitWhitespace_cons {field : Text} (hne : field ≠ [])
    (hfield : ∀ c ∈ field, isWhitespace c = false) {sep : Char} (hsep : isWhitespace sep = true)
    (rest : Text) : splitWhitespace (field ++ sep :: rest) = field :: splitWhitespace rest := by
  rw [splitWhitespace, List.splitOnP_append_cons_of_forall_mem hfield sep hsep rest,
    List.filter_cons_of_pos (by simpa using hne)]
  rfl

/-! ### Decimals of a fixed form -/

/-- Decimal digits without a zero in front, at most `max` of them. -/
def canonical (max : Nat) (t : Text) : Bool :=
  t.length ≤ max && allDigits t && (t.head? != some '0' || t.length == 1)

/-- A decimal of at most twelve digits: what a number in a state file may be. -/
def isUint (t : Text) : Bool := canonical 12 t

/-- A number below `2 ^ bits`; a plus sign may stand in front. -/
def parseUnsigned (bits : Nat) (t : Text) : Option Nat :=
  let digits := if t.head? = some '+' then t.tail else t
  if allDigits digits then (ofDecimal digits).filter (· < 2 ^ bits) else none

/-- A number in decimal, padded with zeros to `width`. -/
def zeroPadded (width n : Nat) : Text := (padded 10 width n).map Char.ofNat

/-- What a decimal fraction stands for: its digits, over ten for each place behind the point. -/
def decimalValue (t : Text) : Option ℚ :=
  let whole := t.takeWhile (· ≠ '.')
  let fraction := (t.dropWhile (· ≠ '.')).tail
  if allDigits whole ∧ ('.' ∉ t ∨ allDigits fraction) then
    (ofDecimal (whole ++ fraction)).map fun n : Nat => (n : ℚ) / 10 ^ fraction.length
  else none

/-- The digits are the characters from 48 to 57. -/
theorem isDigit_iff {c : Char} : c.isDigit = true ↔ 48 ≤ c.toNat ∧ c.toNat ≤ 57 := by
  simp [Char.isDigit, UInt32.le_iff_toNat_le]

/-- Digits are the decimal of the number that their values make. -/
private theorem eq_map_digitCode {t : Text} (h : ∀ c ∈ t, c.isDigit = true) :
    t = ((t.map fun c => c.toNat - 48).map digitCode).map Char.ofNat := by
  rw [List.map_map, List.map_map]
  conv_lhs => rw [← List.map_id t]
  apply List.map_congr_left
  intro c hc
  have hcode := isDigit_iff.mp (h c hc)
  have hdigit : digitCode (c.toNat - 48) = c.toNat := by
    unfold digitCode
    rw [if_pos (by omega)]
    omega
  show c = Char.ofNat (digitCode (c.toNat - 48))
  rw [hdigit, Char.ofNat_toNat]

/-- Digits with a first one that is not zero are the decimal of the number that they make. -/
private theorem eq_decimal_of_digits {t : Text} (hne : t ≠ []) (hdigits : ∀ c ∈ t, c.isDigit = true)
    (hhead : t.head? ≠ some '0') :
    t = decimal (Nat.ofDigits 10 (t.map fun c => c.toNat - 48).reverse) := by
  set ds := (t.map fun c => c.toNat - 48).reverse with hds
  have hlast : ∀ h : ds ≠ [], ds.getLast h ≠ 0 := by
    intro _
    -- the digit of the highest weight comes first in the text
    obtain ⟨c, t', rfl⟩ := List.exists_cons_of_ne_nil hne
    have hcode := isDigit_iff.mp (hdigits c (by simp))
    have hc48 : c.toNat ≠ 48 := by
      intro h48
      apply hhead
      rw [List.head?_cons, ← Char.ofNat_toNat c, h48]
    simp only [hds, List.map_cons, List.reverse_cons, List.getLast_concat]
    omega
  have hlt : ∀ d ∈ ds, d < 10 := by
    intro d hd
    rw [hds, List.mem_reverse, List.mem_map] at hd
    obtain ⟨c, hc, rfl⟩ := hd
    have := isDigit_iff.mp (hdigits c hc)
    omega
  have hback : Nat.digits 10 (Nat.ofDigits 10 ds) = ds :=
    Nat.digits_ofDigits 10 (by omega) ds hlt hlast
  have hpos : Nat.ofDigits 10 ds ≠ 0 := by
    intro h0
    rw [h0, Nat.digits_zero] at hback
    exact hne (by simpa [hds] using hback.symm)
  rw [decimal, numeral, if_neg hpos, hback, hds, List.reverse_reverse]
  exact eq_map_digitCode hdigits

/-- No zero stands in front of a decimal. -/
private theorem head_decimal {n : Nat} (hn : n ≠ 0) : (decimal n).head? ≠ some '0' := by
  have hne : Nat.digits 10 n ≠ [] := by simpa [Nat.digits_eq_nil_iff_eq_zero] using hn
  have hlast := Nat.getLast_digit_ne_zero 10 hn
  have hlt : (Nat.digits 10 n).getLast hne < 10 :=
    Nat.digits_lt_base (by omega) (List.getLast_mem hne)
  rw [decimal, numeral, if_neg hn, List.head?_map, List.head?_map, List.head?_reverse,
    List.getLast?_eq_some_getLast hne, Option.map_some, Option.map_some, Ne, Option.some.injEq]
  intro hc
  have hcode := congrArg Char.toNat hc
  rw [(isDigit_digitCode _ hlt).2, digitCode, if_pos hlt] at hcode
  have h48 : '0'.toNat = 48 := rfl
  exact hlast (by omega)

/-- **A canonical decimal is the decimal of a number.** -/
theorem canonical_iff {max : Nat} {t : Text} :
    canonical max t = true ↔ ∃ n, t = decimal n ∧ (decimal n).length ≤ max := by
  constructor
  · intro h
    simp only [canonical, allDigits, Bool.and_eq_true, decide_eq_true_eq, Bool.not_eq_true',
      List.isEmpty_eq_false_iff, List.all_eq_true, Bool.or_eq_true, bne_iff_ne, ne_eq,
      beq_iff_eq] at h
    obtain ⟨⟨hlen, hne, hdigits⟩, hzero⟩ := h
    suffices h : ∃ n, t = decimal n by
      obtain ⟨n, rfl⟩ := h
      exact ⟨n, rfl, hlen⟩
    by_cases hhead : t.head? = some '0'
    · -- a zero in front stands alone
      obtain ⟨c, rfl⟩ := List.length_eq_one_iff.mp (hzero.resolve_left fun h => h hhead)
      rw [List.head?_cons, Option.some.injEq] at hhead
      exact ⟨0, by rw [hhead]; rfl⟩
    · exact ⟨_, eq_decimal_of_digits hne hdigits hhead⟩
  · rintro ⟨n, rfl, hlen⟩
    have hhead : (decimal n).head? ≠ some '0' ∨ (decimal n).length = 1 := by
      by_cases hn : n = 0
      · exact .inr (by rw [hn]; rfl)
      · exact .inl (head_decimal hn)
    simp only [canonical, hlen, decide_true, allDigits_decimal, Bool.and_self, Bool.true_and,
      Bool.or_eq_true, bne_iff_ne, beq_iff_eq]
    exact hhead

/-- A decimal is read back when its number fits. -/
theorem parseUnsigned_decimal {bits n : Nat} (h : n < 2 ^ bits) :
    parseUnsigned bits (decimal n) = some n := by
  have hhead : (decimal n).head? ≠ some '+' := by
    intro hplus
    have := isDigit_of_mem_decimal (List.mem_of_mem_head? hplus)
    exact absurd this (by decide)
  simp [parseUnsigned, hhead, h]

/-- A number of so many digits is below that power of ten. -/
theorem lt_of_length_decimal {n k : Nat} (h : (decimal n).length ≤ k) : n < 10 ^ k := by
  by_cases hn : n = 0
  · rw [hn]
    positivity
  · rw [decimal, numeral, if_neg hn, List.length_map, List.length_map, List.length_reverse] at h
    exact (Nat.digits_length_le_iff (by omega) n).mp h

/-- A number is a field of a line. -/
theorem splitWhitespace_decimal (n : Nat) {sep : Char} (hsep : isWhitespace sep = true)
    (rest : Text) : splitWhitespace (decimal n ++ sep :: rest) = decimal n :: splitWhitespace rest :=
  splitWhitespace_cons (decimal_ne_nil n)
    (fun _ hc => isWhitespace_of_isDigit (isDigit_of_mem_decimal hc)) hsep rest

/-! ### Decimals side by side -/

/-- Digits stand for a number. -/
theorem ofDecimal_of_isDigit {t : Text} (h : ∀ c ∈ t, c.isDigit = true) :
    ∃ n, ofDecimal t = some n := by
  unfold ofDecimal value
  suffices h' : ∀ acc, ∃ n, valueFrom 10 acc (t.map Char.toNat) = some n from h' 0
  induction t with
  | nil => exact fun acc => ⟨acc, rfl⟩
  | cons c t ih =>
    intro acc
    rw [List.forall_mem_cons] at h
    have hcode := isDigit_iff.mp h.1
    have hval : digitVal 10 c.toNat = some (c.toNat - 48) := by
      simp only [digitVal, hcode, and_self, if_true, Option.filter_eq_some_iff,
        decide_eq_true_eq, true_and]
      omega
    rw [List.map_cons, valueFrom, hval, Option.bind_some]
    exact ih h.2 _

/-- A value goes on from what was read before. -/
private theorem valueFrom_eq (base acc : Nat) (codes : List Nat) :
    valueFrom base acc codes =
      (value base codes).map fun n => acc * base ^ codes.length + n := by
  suffices h : ∀ a b, valueFrom base (a + b) codes =
      (valueFrom base b codes).map fun n => a * base ^ codes.length + n from h acc 0
  induction codes with
  | nil => simp [valueFrom]
  | cons c cs ih =>
    intro a b
    simp only [valueFrom]
    cases digitVal base c with
    | none => rfl
    | some d =>
      have hacc : (a + b) * base + d = a * base + (b * base + d) := by ring
      rw [Option.bind_some, Option.bind_some, hacc, ih, List.length_cons, pow_succ']
      simp only [Nat.mul_assoc]

/-- The value of two pieces of digits. -/
theorem ofDecimal_append (t u : Text) : ofDecimal (t ++ u) =
    (ofDecimal t).bind fun m => (ofDecimal u).map fun n => m * 10 ^ u.length + n := by
  unfold ofDecimal
  rw [List.map_append, value, valueFrom_append]
  refine Option.bind_congr fun m _ => ?_
  rw [valueFrom_eq, List.length_map]

/-- Zeros are worth nothing. -/
theorem ofDecimal_zeros (k : Nat) : ofDecimal (List.replicate k '0') = some 0 := by
  have h48 : '0'.toNat = 48 := rfl
  rw [ofDecimal, List.map_replicate, h48, ← List.append_nil (List.replicate k 48),
    value_zeros_append (by omega) (by omega)]
  rfl

/-- Padding is zeros before the number. -/
theorem zeroPadded_eq (width n : Nat) :
    zeroPadded width n = List.replicate (width - (decimal n).length) '0' ++ decimal n := by
  rw [zeroPadded, padded, List.leftpad, List.map_append, List.map_replicate, decimal,
    List.length_map]

/-- A padded number is worth what the number is. -/
theorem ofDecimal_zeroPadded (width n : Nat) : ofDecimal (zeroPadded width n) = some n := by
  rw [zeroPadded_eq, ofDecimal_append, ofDecimal_zeros, ofDecimal_decimal]
  simp

/-- A number that fits is padded to the width. -/
theorem length_zeroPadded {width n : Nat} (hw : 0 < width) (h : n < 10 ^ width) :
    (zeroPadded width n).length = width := by
  rw [zeroPadded, List.length_map]
  exact length_padded (by omega) hw h

/-- Padding is of digits. -/
theorem isDigit_of_mem_zeroPadded {width n : Nat} {c : Char} (hc : c ∈ zeroPadded width n) :
    c.isDigit = true := by
  rw [zeroPadded_eq] at hc
  rcases List.mem_append.mp hc with hc | hc
  · rw [List.eq_of_mem_replicate hc]
    rfl
  · exact isDigit_of_mem_decimal hc

/-! ### Fractions -/

/-- Digits hold no point. -/
theorem point_not_mem {t : Text} (h : allDigits t = true) : '.' ∉ t := by
  simp only [allDigits, Bool.and_eq_true, List.all_eq_true] at h
  exact fun hp => absurd (h.2 _ hp) (by decide)

/-- The value of digits without a point. -/
private theorem decimalValue_whole {w : Text} (hw : allDigits w = true) :
    decimalValue w = (ofDecimal w).map fun n : Nat => (n : ℚ) := by
  have hne : ∀ c ∈ w, decide (c ≠ '.') = true := fun c hc =>
    decide_eq_true fun h => point_not_mem hw (h ▸ hc)
  have htake : w.takeWhile (· ≠ '.') = w := List.takeWhile_eq_self_iff.mpr hne
  have hdrop : w.dropWhile (· ≠ '.') = [] := List.dropWhile_eq_nil_iff.mpr hne
  simp only [decimalValue, htake, hdrop, List.tail_nil, List.append_nil, List.length_nil, hw,
    point_not_mem hw, not_false_eq_true, true_or, and_self, if_true, pow_zero, div_one]

/-- The value of digits with a point between. -/
private theorem decimalValue_fraction {w f : Text} (hw : allDigits w = true)
    (hf : allDigits f = true) :
    decimalValue (w ++ '.' :: f) = (ofDecimal (w ++ f)).map fun n : Nat => (n : ℚ) / 10 ^ f.length := by
  have hne : ∀ c ∈ w, decide (c ≠ '.') = true := fun c hc =>
    decide_eq_true fun h => point_not_mem hw (h ▸ hc)
  have htake : (w ++ '.' :: f).takeWhile (· ≠ '.') = w := by
    rw [List.takeWhile_append_of_pos hne]
    simp
  have hdrop : (w ++ '.' :: f).dropWhile (· ≠ '.') = '.' :: f := by
    rw [List.dropWhile_append_of_pos hne]
    simp
  simp only [decimalValue, htake, hdrop, List.tail_cons, hw, hf, or_true, and_self, if_true]

/-- Zeros at the end of a fraction, and the point when nothing is left behind it, change
    nothing. -/
theorem decimalValue_trimmed {w f : Text} (hw : allDigits w = true)
    (hf : ∀ c ∈ f, c.isDigit = true) :
    decimalValue (((w ++ '.' :: f).rdropWhile (· == '0')).rdropWhile (· == '.')) =
      (ofDecimal (w ++ f)).map fun n : Nat => (n : ℚ) / 10 ^ f.length := by
  induction f using List.reverseRecOn with
  | nil =>
    -- the whole number is left
    have hlast : w.rdropWhile (· == '.') = w := by
      rw [List.rdropWhile_eq_self_iff]
      exact fun h hdot => point_not_mem hw (beq_iff_eq.mp hdot ▸ List.getLast_mem h)
    rw [List.rdropWhile_concat_neg _ _ _ (by decide), List.rdropWhile_concat_pos _ _ _ (by decide),
      hlast, decimalValue_whole hw, List.append_nil]
    simp
  | append_singleton f c ih =>
    rw [List.forall_mem_append, List.forall_mem_singleton] at hf
    have hassoc : w ++ '.' :: (f ++ [c]) = (w ++ '.' :: f) ++ [c] := by simp
    by_cases hc : c = '0'
    · subst hc
      rw [hassoc, List.rdropWhile_concat_pos _ _ _ (by decide), ih hf.1, ← List.append_assoc,
        ofDecimal_append (w ++ f)]
      have hzero : ofDecimal ['0'] = some 0 := ofDecimal_zeros 1
      cases ofDecimal (w ++ f) with
      | none => rfl
      | some n =>
        simp only [hzero, Option.map_some, Option.bind_some, List.length_append,
          List.length_singleton, Option.some.injEq]
        push_cast
        field_simp
        simp
        ring
    · have hpoint : c ≠ '.' := by
        rintro rfl
        exact absurd hf.2 (by decide)
      have hfc : allDigits (f ++ [c]) = true := by
        simp only [allDigits, Bool.and_eq_true, Bool.not_eq_true', List.isEmpty_eq_false_iff,
          List.all_eq_true, List.forall_mem_append, List.forall_mem_singleton]
        exact ⟨by simp, hf⟩
      rw [hassoc, List.rdropWhile_concat_neg _ _ _ (by simpa using hc),
        List.rdropWhile_concat_neg _ _ _ (by simpa using hpoint), ← hassoc,
        decimalValue_fraction hw hfc]

end Omdrop.Text
