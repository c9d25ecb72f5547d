import Omdrop.Text.Basic

namespace Omdrop

/-!
# JSON values

What is used of JSON: values as they are read, and the reader and the writer of them.
-/

/-- A JSON value.  `int` is a number that was read as an integer, `float` any other number. -/
inductive Json
  | null
  | bool (b : Bool)
  | int (n : Int)
  | float
  | str (s : Text)
  | arr (elements : List Json)
  | obj (members : List (Text × Json))

namespace Json

/-- The member of an object under a name. -/
def get (name : Text) : Json → Option Json
  | obj members => members.lookup name
  | _           => none

/-- The text of a string. -/
def asStr : Json → Option Text
  | str s => some s
  | _     => none

/-- A number that fits a signed 64-bit integer. -/
def asI64 : Json → Option Int
  | int n => if -2 ^ 63 ≤ n ∧ n < 2 ^ 63 then some n else none
  | _     => none

/-- A number that fits an unsigned 64-bit integer. -/
def asU64 : Json → Option Nat
  | int n => if 0 ≤ n ∧ n < 2 ^ 64 then some n.toNat else none
  | _     => none

/-- The value of a boolean. -/
def asBool : Json → Option Bool
  | bool b => some b
  | _      => none

/-- The elements of an array. -/
def asArray : Json → Option (List Json)
  | arr elements => some elements
  | _            => none

end Json

/-- In a list without a key twice, an entry is what its key is looked up as. -/
theorem lookup_of_mem {α β : Type} [BEq α] [LawfulBEq α] {l : List (α × β)}
    (hl : (l.map Prod.fst).Nodup) {e : α × β} (he : e ∈ l) : l.lookup e.1 = some e.2 := by
  induction l with
  | nil => simp at he
  | cons d l ih =>
    rw [List.map_cons, List.nodup_cons] at hl
    rw [List.lookup_cons]
    rcases List.mem_cons.mp he with rfl | he
    · rw [beq_self_eq_true]
    · have hne : e.1 ≠ d.1 := fun h => hl.1 (h ▸ List.mem_map_of_mem he)
      rw [beq_eq_false_iff_ne.mpr hne]
      exact ih hl.2 he

/-- A reader and writer of JSON: a value from its text, the members of an object in their order
    with duplicates kept, and a string as JSON. -/
class SerdeJson where
  value : List UInt8 → Option Json
  members : List UInt8 → Option (List (Text × Json))
  quote : Text → Text

end Omdrop
