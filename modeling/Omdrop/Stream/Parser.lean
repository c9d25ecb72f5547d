import Mathlib.Data.List.Basic

namespace Omdrop.Stream

/-!
# Parsers of bytes

A parser takes a value off the front of some bytes, or refuses them.  `Local` parsers are decided
by what they take: whatever else follows, they take the same.
-/

/-- A parser: the value it takes off the bytes and the bytes after it, or `none`. -/
abbrev Parser (α : Type) := StateT (List UInt8) Option α

namespace Parser

variable {α β : Type} {P P' : List UInt8}

/-- The next `n` bytes. -/
def take (n : Nat) : Parser (List UInt8) := fun P =>
  if n ≤ P.length then some (P.take n, P.drop n) else none

/-- A value that is known, or not. -/
def ofOption (a : Option α) : Parser α := fun P => a.map (·, P)

/-- Refuse the bytes unless `p` holds. -/
def check (p : Bool) : Parser Unit := ofOption (if p then some () else none)

@[simp] theorem pure_apply (a : α) : (pure a : Parser α) P = some (a, P) := rfl

/-- Two parsers one after the other. -/
theorem bind_apply (p : Parser α) (f : α → Parser β) :
    (p >>= f) P = (p P).bind fun x => f x.1 x.2 := rfl

/-- The second goes on where the first is done. -/
theorem bind_of_some {p : Parser α} {f : α → Parser β} {a : α} (h : p P = some (a, P')) :
    (p >>= f) P = f a P' := by
  rw [bind_apply, h]
  rfl

/-- Where the first parser fails, both do. -/
theorem bind_of_none {p : Parser α} {f : α → Parser β} (h : p P = none) :
    (p >>= f) P = none := by
  rw [bind_apply, h]
  rfl

/-- **How a sequence of parsers succeeds.** -/
theorem bind_eq_some {p : Parser α} {f : α → Parser β} {b : β} {P'' : List UInt8}
    (h : (p >>= f) P = some (b, P'')) : ∃ a P', p P = some (a, P') ∧ f a P' = some (b, P'') := by
  rw [bind_apply, Option.bind_eq_some_iff] at h
  obtain ⟨⟨a, P'⟩, hp, hf⟩ := h
  exact ⟨a, P', hp, hf⟩

@[simp] theorem ofOption_some (a : α) : ofOption (some a) P = some (a, P) := rfl
@[simp] theorem ofOption_none : (ofOption none : Parser α) P = none := rfl
@[simp] theorem check_true : check true P = some ((), P) := rfl
@[simp] theorem check_false : check false P = none := rfl

/-- Bytes are taken where there are so many. -/
theorem take_of_le {n : Nat} (h : n ≤ P.length) : take n P = some (P.take n, P.drop n) := if_pos h

/-- Fewer bytes are not taken. -/
theorem take_of_lt {n : Nat} (h : P.length < n) : take n P = none := if_neg (by omega)

/-- The bytes in front are taken. -/
theorem take_append {n : Nat} {bs : List UInt8} (h : bs.length = n) :
    take n (bs ++ P) = some (bs, P) := by
  have hle : n ≤ (bs ++ P).length := by
    rw [List.length_append]
    omega
  rw [take_of_le hle, List.take_left' h, List.drop_left' h]

/-- What a parser does depends on the bytes that it takes and no others. -/
def Local (p : Parser α) : Prop :=
  ∀ P a P', p P = some (a, P') → ∃ front, P = front ++ P' ∧ ∀ T, p (front ++ T) = some (a, T)

/-- A parser that takes nothing is local. -/
theorem Local.pure (a : α) : Local (Pure.pure a) := by
  intro P b P' h
  rw [pure_apply, Option.some.injEq, Prod.mk.injEq] at h
  rw [← h.1, ← h.2]
  exact ⟨[], rfl, fun T => rfl⟩

/-- A parser that takes nothing and may fail is local. -/
theorem Local.ofOption (a : Option α) : Local (ofOption a) := by
  intro P b P' h
  cases a with
  | none => simp at h
  | some a => exact Local.pure a P b P' h

/-- To take so many bytes is local. -/
theorem Local.take (n : Nat) : Local (take n) := by
  intro P bs P' h
  by_cases hn : n ≤ P.length
  · rw [take_of_le hn, Option.some.injEq, Prod.mk.injEq] at h
    rw [← h.1, ← h.2]
    refine ⟨P.take n, (List.take_append_drop n P).symm, fun T => take_append ?_⟩
    rw [List.length_take]
    omega
  · rw [take_of_lt (by omega)] at h
    simp at h

/-- Two local parsers make a local one. -/
theorem Local.bind {p : Parser α} {f : α → Parser β} (hp : Local p) (hf : ∀ a, Local (f a)) :
    Local (p >>= f) := by
  intro P b P'' h
  obtain ⟨a, P', h₁, h₂⟩ := bind_eq_some h
  obtain ⟨front₁, rfl, hext₁⟩ := hp P a P' h₁
  obtain ⟨front₂, rfl, hext₂⟩ := hf a P' b P'' h₂
  refine ⟨front₁ ++ front₂, by rw [List.append_assoc], fun T => ?_⟩
  rw [List.append_assoc, bind_of_some (hext₁ _)]
  exact hext₂ T

/-- Where a parser succeeds, no more bytes are left than there were. -/
theorem Local.length_le {p : Parser α} (hp : Local p) {a : α} (h : p P = some (a, P')) :
    P'.length ≤ P.length := by
  obtain ⟨front, rfl, _⟩ := hp P a P' h
  rw [List.length_append]
  omega

/-- More bytes behind those that are taken stay behind. -/
theorem Local.append {p : Parser α} (hp : Local p) {a : α} (h : p P = some (a, P'))
    (T : List UInt8) : p (P ++ T) = some (a, P' ++ T) := by
  obtain ⟨front, rfl, hext⟩ := hp P a P' h
  rw [List.append_assoc]
  exact hext _

end Parser

end Omdrop.Stream
