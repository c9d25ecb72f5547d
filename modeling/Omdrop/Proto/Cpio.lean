import Omdrop.Machine.Fallible
import Omdrop.Text.Unicode
import Omdrop.Text.Utf8
import Omdrop.Proto.Error
import Omdrop.Proto.Repr

namespace Omdrop.Proto

open Omdrop.Stream Omdrop.Text

/-!
# Reading CPIO

`CpioReader` takes an archive apart member by member: `nextEntry` reads the next header, after
what is left of the previous member's data, and `readData` reads the data.
-/

/-- Longest member path accepted, in bytes. -/
def maxPathBytes : Nat := 4096

/-- The magics of the formats that are read. -/
def odcMagic : List UInt8 := [48, 55, 48, 55, 48, 55]
def newcMagic : List UInt8 := [48, 55, 48, 55, 48, 49]
def newcCrcMagic : List UInt8 := [48, 55, 48, 55, 48, 50]

/-- The name of the member that ends an archive. -/
def trailer : Text := "TRAILER!!!"

/-- How much a copy moves at a time. -/
def copyChunkBytes : ℕ+ := 8192

/-- One member's header. -/
structure CpioEntry where
  path : Text
  mode : Nat
  size : Nat
  deriving DecidableEq, Repr

/-- A regular file. -/
def CpioEntry.isFile (e : CpioEntry) : Bool := e.mode &&& 0o170000 == 0o100000

/-- The number in a header field. -/
def field [Unicode] (raw : List UInt8) (radix : Nat) (what : Text) : Except IoErr Nat :=
  match fromUtf8 raw with
  | none      => .error (invalid ("cpio ".toList ++ what ++ " field is not a number".toList))
  | some text =>
    match (value radix (text.map Char.toNat)).filter (· < 2 ^ 64) with
    | some n => .ok n
    | none   => .error (invalid ("cpio ".toList ++ what ++ " field ".toList ++ Unicode.debug text ++
      " is not a number".toList))

/-- Reads an archive: `left` and `pad` bytes of the current member's data and padding are still
    to come. -/
structure CpioReader (R : Type) where
  inner : R
  left : Nat
  pad : Nat
  newc : Bool
  started : Bool
  done : Bool
  magic : List UInt8

namespace CpioReader

variable {R : Type}

/-- An archive, from its start. -/
def new (inner : R) : CpioReader R := ⟨inner, 0, 0, false, false, false, []⟩

/-- What the steps below are: they fail with an archive's refusal. -/
abbrev Step (R : Type) (α : Type) := Fallible ArchiveError (CpioReader R) α

variable [Read Unit Payload R]

/-- The next `n` bytes, or all there are. -/
def readUpTo (n : Nat) : Step R (List UInt8) := fun r =>
  match readFull () n [] r.inner with
  | (.ok bs, inner)   => (.ok bs, { r with inner })
  | (.error e, inner) => (.error (.ofIo e), { r with inner })

/-- The next `n` bytes; it is an error when there are fewer. -/
def readExact (n : Nat) (message : Text) : Step R (List UInt8) := do
  let bs ← readUpTo n
  Fallible.failIf (bs.length < n) (.invalid message)
  pure bs

/-- The number in a header field. -/
def number [Unicode] (raw : List UInt8) (radix : Nat) (what : Text) : Step R Nat :=
  match field raw radix what with
  | .ok n    => pure n
  | .error e => Fallible.fail (.ofIo e)

/-- Pass over what is left of the previous member. -/
def skip : Step R Unit := fun r =>
  if r.left + r.pad = 0 then (.ok (), r) else
  match copyTake () copyChunkBytes (r.left + r.pad) [] r.inner with
  | (.error e, _, inner)     => (.error (.ofIo e), { r with inner })
  | (.ok (), skipped, inner) =>
    if skipped.length < r.left + r.pad then
      (.error (.invalid "truncated cpio member data"), { r with inner })
    else (.ok (), { r with inner, left := 0, pad := 0 })

/-- The mode, the name's size and the file's size of the header that `magic` begins. -/
def header [Unicode] (magic : List UInt8) : Step R (Nat × Nat × Nat) :=
  if magic = odcMagic then do
    let h ← readExact 70 "truncated cpio header"
    Fallible.modify ({ · with newc := false })
    let mode ← number ((h.drop 12).take 6) 8 "mode"
    let namesize ← number ((h.drop 53).take 6) 8 "name size"
    let size ← number ((h.drop 59).take 11) 8 "file size"
    pure (mode, namesize, size)
  else if magic = newcMagic ∨ magic = newcCrcMagic then do
    let h ← readExact 104 "truncated cpio header"
    Fallible.modify ({ · with newc := true })
    let mode ← number ((h.drop 8).take 8) 16 "mode"
    let namesize ← number ((h.drop 88).take 8) 16 "name size"
    let size ← number ((h.drop 48).take 8) 16 "file size"
    pure (mode, namesize, size)
  else Fallible.fail (.invalid ("not a cpio archive (magic ".toList ++ pyBytesRepr magic ++
    ")".toList))

/-- How many bytes fill up `n` to a multiple of four. -/
def padding (n : Nat) : Nat := (4 - n % 4) % 4

/-- The padding after a newc header. -/
def headerPad (namesize : Nat) : Step R Unit := fun r =>
  if r.newc then
    (do let _ ← readExact (padding (110 + namesize)) "truncated cpio header"; pure ()) r
  else (.ok (), r)

/-- The member of that path, or the end of the archive. -/
def found (path : Text) (mode size : Nat) : Step R (Option CpioEntry) := fun r =>
  if path = trailer then (.ok none, { r with done := true })
  else (.ok (some ⟨path, mode % 2 ^ 32, size⟩),
    { r with left := size, pad := if r.newc then padding size else 0 })

/-- The member whose header has been read. -/
def member (mode namesize size : Nat) : Step R (Option CpioEntry) := do
  Fallible.failIf (namesize = 0 ∨ maxPathBytes + 1 < namesize)
    (.invalid ("cpio member name of ".toList ++ decimal namesize ++ " bytes".toList))
  let name ← readExact namesize "truncated cpio member name"
  Fallible.failIf (name.getLast? ≠ some 0) (.invalid "cpio member name is not NUL-terminated")
  headerPad namesize
  found (fromUtf8Lossy (name.takeWhile (· ≠ 0))) mode size

/-- The next member, or `none` after the trailer.  An empty stream is an empty archive. -/
def nextEntry [Unicode] : Step R (Option CpioEntry) := do
  let r ← Fallible.get
  if r.done then pure none else
  skip
  let magic ← readUpTo 6
  if magic = [] ∧ r.started = false then
    Fallible.modify ({ · with done := true })
    pure none
  else
    Fallible.modify fun r => if r.started then r else { r with magic, started := true }
    Fallible.failIf (magic.length < 6) (.invalid "truncated cpio header")
    let (mode, namesize, size) ← header magic
    member mode namesize size

/-- Some of the current member's data, nothing at its end. -/
def readData (n : Nat) (r : CpioReader R) : Except IoErr (List UInt8) × CpioReader R :=
  if min n r.left = 0 then (.ok [], r) else
  match Read.read () (min n r.left) r.inner with
  | (.error e, inner)      => (.error e, { r with inner })
  | (.ok [], inner)        => (.error (invalid "truncated cpio member data"), { r with inner })
  | (.ok (b :: bs), inner) =>
    (.ok (b :: bs), { r with inner, left := r.left - (b :: bs).length })

/-- Data that is answered is no longer left. -/
theorem left_readData_lt {n : Nat} {r r' : CpioReader R} {b : UInt8} {bs : List UInt8}
    (h : r.readData n = (.ok (b :: bs), r')) : r'.left < r.left := by
  unfold readData at h
  split at h
  · cases h
  · rename_i hleft
    split at h
    · cases h
    · cases h
    · cases h
      have hpos : 0 < r.left := by omega
      exact Nat.sub_lt hpos (Nat.succ_pos _)

theorem size_readData {R : Type} [FiniteRead Unit Payload R] {n : Nat} {r r' : CpioReader R}
    {res : Except IoErr (List UInt8)} (h : r.readData n = (res, r')) :
    FiniteRead.size r'.inner ≤ FiniteRead.size r.inner := by
  unfold readData at h
  split at h
  · cases h
    exact le_rfl
  · split at h <;> (rename_i hr; cases h; exact FiniteRead.size_read hr)

end CpioReader

end Omdrop.Proto
