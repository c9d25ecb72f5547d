import Omdrop.Text.Digits

namespace Omdrop

/-!
# Text

Text is a list of characters; a string literal stands for its characters.
-/

/-- Text, character by character. -/
abbrev Text := List Char

instance : Coe String Text := ⟨String.toList⟩

instance : LawfulBEq Text := inferInstance

-- decided along the text, not over all characters that there are
instance (priority := 1100) {p : Char → Prop} [DecidablePred p] (t : Text) :
    Decidable (∀ c ∈ t, p c) := List.decidableBAll p t

namespace Text

/-- A number in decimal. -/
def decimal (n : Nat) : Text := (numeral 10 n).map Char.ofNat

/-- An integer in decimal. -/
def decimalInt (n : Int) : Text := if n < 0 then '-' :: decimal n.natAbs else decimal n.toNat

/-- The number that a decimal stands for. -/
def ofDecimal (t : Text) : Option Nat := value 10 (t.map Char.toNat)

/-- Is this all ASCII digits, and not empty? -/
def allDigits (t : Text) : Bool := !t.isEmpty && t.all Char.isDigit

/-- Is this a control character? -/
def isControl (c : Char) : Bool := c.toNat < 0x20 || (0x7f ≤ c.toNat && c.toNat < 0xa0)

/-- Are two texts the same, whatever the case of their ASCII letters? -/
def eqIgnoreAsciiCase (s t : Text) : Bool := s.map Char.toLower == t.map Char.toLower

/-- A number in lower-case hexadecimal, padded with zeros to `width`. -/
def hex (width n : Nat) : Text := (padded 16 width n).map Char.ofNat

theorem isDigit_digitCode : ∀ d < 10, (Char.ofNat (digitCode d)).isDigit = true ∧
    (Char.ofNat (digitCode d)).toNat = digitCode d := by
  decide

/-- Decimals are made of digits. -/
theorem isDigit_of_mem_decimal {n : Nat} {c : Char} (hc : c ∈ decimal n) : c.isDigit = true := by
  obtain ⟨code, hcode, rfl⟩ := List.mem_map.mp hc
  obtain ⟨d, hd, rfl⟩ := digitVal_of_mem_numeral (by omega) (by omega) hcode
  exact (isDigit_digitCode d hd).1

theorem decimal_ne_nil (n : Nat) : decimal n ≠ [] := by
  unfold decimal
  rw [Ne, List.map_eq_nil_iff]
  exact numeral_ne_nil n

theorem length_decimal_le {n k : Nat} (hk : 0 < k) (h : n < 10 ^ k) : (decimal n).length ≤ k := by
  rw [decimal, List.length_map]
  exact length_numeral_le (by omega) hk h

@[simp] theorem allDigits_decimal (n : Nat) : allDigits (decimal n) = true := by
  unfold allDigits
  have hne : (decimal n).isEmpty = false := by simpa using decimal_ne_nil n
  have hall : (decimal n).all Char.isDigit = true := by
    rw [List.all_eq_true]
    exact fun c hc => isDigit_of_mem_decimal hc
  rw [hne, hall]
  rfl

/-- **Decimals read back.** -/
@[simp] theorem ofDecimal_decimal (n : Nat) : ofDecimal (decimal n) = some n := by
  have hcodes : (decimal n).map Char.toNat = numeral 10 n := by
    unfold decimal
    rw [List.map_map]
    conv_rhs => rw [← List.map_id (numeral 10 n)]
    apply List.map_congr_left
    intro code hcode
    obtain ⟨d, hd, rfl⟩ := digitVal_of_mem_numeral (by omega) (by omega) hcode
    exact (isDigit_digitCode d hd).2
  unfold ofDecimal
  rw [hcodes]
  exact value_numeral (by omega) (by omega) n

end Text

end Omdrop
