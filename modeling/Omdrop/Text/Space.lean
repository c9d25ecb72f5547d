import Mathlib.Data.List.DropRight
import Omdrop.Text.Basic

namespace Omdrop.Text

/-!
# White space

The characters that count as white space, and the trimming of text.
-/

/-- Is this white space? -/
def isWhitespace (c : Char) : Bool :=
  (0x9 ≤ c.toNat && c.toNat ≤ 0xd) || c.toNat == 0x20 || c.toNat == 0x85 || c.toNat == 0xa0 ||
    c.toNat == 0x1680 || (0x2000 ≤ c.toNat && c.toNat ≤ 0x200a) || c.toNat == 0x2028 ||
    c.toNat == 0x2029 || c.toNat == 0x202f || c.toNat == 0x205f || c.toNat == 0x3000

/-- Text from its first character that is no white space. -/
def trimStart (t : Text) : Text := t.dropWhile isWhitespace

/-- Text up to its last character that is no white space. -/
def trimEnd (t : Text) : Text := t.rdropWhile isWhitespace

/-- Text without the white space around it. -/
def trim (t : Text) : Text := trimEnd (trimStart t)

/-- A digit is no white space. -/
theorem isWhitespace_of_isDigit {c : Char} (h : c.isDigit = true) : isWhitespace c = false := by
  have hdigit : 48 ≤ c.toNat ∧ c.toNat ≤ 57 := Char.isDigit_iff_toNat.mp h
  simp only [isWhitespace, Bool.or_eq_false_iff, Bool.and_eq_false_iff, decide_eq_false_iff_not,
    beq_eq_false_iff_ne]
  omega

theorem trim_subset (t : Text) : trim t ⊆ t := by
  intro c hc
  have hc' : c ∈ trimStart t := (List.rdropWhile_prefix _ _).subset hc
  exact (List.dropWhile_suffix _).subset hc'

end Omdrop.Text
