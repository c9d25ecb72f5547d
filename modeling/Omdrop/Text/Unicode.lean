import Mathlib.Tactic.SplitIfs
import Omdrop.Text.Basic

namespace Omdrop

/-- What is used of the tables of Unicode: normal form C, lower case, and the rendering of text
    between quotes for a reader of the program's messages. -/
class Unicode where
  nfc : Text → Text
  toLowercase : Text → Text
  debug : Text → Text

/-- The tables as far as ASCII text needs them; its quotes, backslashes and controls are not
    escaped. -/
abbrev Unicode.ascii : Unicode where
  nfc t := t
  toLowercase t := t.map Char.toLower
  debug t := '"' :: t ++ ['"']

/-- A letter in lower case comes 32 places later, and nothing else changes. -/
theorem toNat_toLower (c : Char) : c.toLower.toNat = c.toNat ∨
    (65 ≤ c.toNat ∧ c.toNat ≤ 90) ∧ c.toLower.toNat = c.toNat + 32 := by
  unfold Char.toLower
  split_ifs with hupper
  · have hge : 65 ≤ c.val.toNat := UInt32.le_iff_toNat_le.mp hupper.1
    have hle : c.val.toNat ≤ 90 := UInt32.le_iff_toNat_le.mp hupper.2
    refine .inr ⟨⟨hge, hle⟩, ?_⟩
    show (c.val + ('a'.val - 'A'.val)).toNat = c.val.toNat + 32
    have hshift : ('a'.val - 'A'.val).toNat = 32 := rfl
    rw [UInt32.toNat_add, hshift]
    omega
  · exact .inl rfl

end Omdrop
