import Omdrop.Text.Basic

namespace Omdrop.Proto

open Omdrop.Text

/-!
# Text shown in messages

`pyRepr` and `pyBytesRepr` show text and bytes the way the messages do: between quotes, with
what cannot be printed escaped.
-/

/-- The ranges of characters, controls apart, that are shown as an escape. -/
def unprintableRanges : List (Nat × Nat) :=
  [(0xa0, 0xa0), (0xad, 0xad), (0x600, 0x605), (0x61c, 0x61c), (0x6dd, 0x6dd), (0x70f, 0x70f),
    (0x1680, 0x1680), (0x180e, 0x180e), (0x2000, 0x200f), (0x2028, 0x202f), (0x205f, 0x2064),
    (0x2066, 0x206f), (0x3000, 0x3000), (0xe000, 0xf8ff), (0xfeff, 0xfeff), (0xfff9, 0xfffb),
    (0xf0000, 0x10ffff)]

/-- Does the character lie in one of the ranges? -/
def inRanges (ranges : List (Nat × Nat)) (c : Char) : Bool :=
  ranges.any fun (lo, hi) => lo ≤ c.toNat && c.toNat ≤ hi

/-- Controls, format characters, separators other than the space, and private use are not
    printable. -/
def pyPrintable (c : Char) : Bool := !(isControl c || inRanges unprintableRanges c)

/-- The quote that needs fewer escapes. -/
def pyQuote (single double : Bool) : Char := if single && !double then '"' else '\''

/-- One character between quotes. -/
def pyChar (quote c : Char) : Text :=
  if c = '\\' then "\\\\"
  else if c = '\n' then "\\n"
  else if c = '\r' then "\\r"
  else if c = '\t' then "\\t"
  else if c = quote then ['\\', c]
  else if !pyPrintable c then
    if c.toNat ≤ 0xff then "\\x".toList ++ hex 2 c.toNat
    else if c.toNat ≤ 0xffff then "\\u".toList ++ hex 4 c.toNat
    else "\\U".toList ++ hex 8 c.toNat
  else [c]

/-- Text between quotes. -/
def pyRepr (s : Text) : Text :=
  let quote := pyQuote (s.contains '\'') (s.contains '"')
  quote :: s.flatMap (pyChar quote) ++ [quote]

/-- One byte between quotes. -/
def pyByte (quote : Char) (byte : UInt8) : Text :=
  let c := Char.ofNat byte.toNat
  if c = '\\' then "\\\\"
  else if c = '\n' then "\\n"
  else if c = '\r' then "\\r"
  else if c = '\t' then "\\t"
  else if c = quote then ['\\', quote]
  else if 0x20 ≤ byte ∧ byte ≤ 0x7e then [c]
  else "\\x".toList ++ hex 2 byte.toNat

/-- Bytes between quotes. -/
def pyBytesRepr (b : List UInt8) : Text :=
  let quote := pyQuote (b.contains 0x27) (b.contains 0x22)
  'b' :: quote :: b.flatMap (pyByte quote) ++ [quote]

end Omdrop.Proto
