import Omdrop.Text.Utf8

namespace Omdrop.Shell

open Omdrop.Text

/-!
# Brace expansion

A word of a command line before quote removal, and its brace expansion as bash does it.  A brace
expression is an open brace with a closing one behind it and a comma or two dots between them at
the same level; with two dots only it has to be a sequence.  `braceExpand_eq_self` and
`length_braceExpand` say that a word without one stays, and that one with one does not.
-/

/-- A symbol of a word: a character that stands bare, or what stood between quotes. -/
inductive Sym
  | bare (c : Char)
  | quoted (bytes : List UInt8)
deriving DecidableEq

/-- The bytes that a symbol stands for. -/
def Sym.bytes : Sym → List UInt8
  | bare c       => utf8 [c]
  | quoted bytes => bytes

/-- A word. -/
abbrev Word := List Sym

/-- What is left of a word when the quotes are removed. -/
def Word.bytes (w : Word) : List UInt8 := w.flatMap Sym.bytes

/-- The sequences that a shell knows: the words that an expression with two dots stands for, such as
    the numbers from one to another.  None of them is longer than the expression. -/
class Sequences where
  words : Word → Option (List Word)
  short : ∀ {e : Word} {ws : List Word}, words e = some ws →
    ∀ w ∈ ws, w.bytes.length ≤ e.bytes.length

/-- The shell as far as words without two dots go. -/
abbrev Sequences.none : Sequences := ⟨fun _ => Option.none, fun h => by cases h⟩

/-! ### Reading an expression -/

/-- Do two dots stand here, and no closing brace behind them? -/
def dotsAt : Word → Bool
  | .bare '.' :: .bare '.' :: rest => rest.head? != some (.bare '}')
  | _                              => false

/-- How many braces are open behind a symbol. -/
def depth (level : Nat) (x : Sym) : Nat :=
  if x = .bare '{' then level + 1 else if x = .bare '}' then level - 1 else level

/-- What stands before the brace that closes an expression, and what behind it, from a point that
    is `level` braces deep; `found` when a comma or two dots were seen outside of those. -/
def closing (level : Nat) (found : Bool) : Word → Option (Word × Word)
  | []     => none
  | x :: t =>
    if x = .bare '}' ∧ level = 0 ∧ found = true then some ([], t)
    else
      (closing (depth level x)
        (found || (level == 0 && (x == .bare ',' || dotsAt (x :: t)))) t).map
        fun (amble, post) => (x :: amble, post)

/-- The parts between the commas that are in no brace, `part` being the start of the first. -/
def splitCommas (level : Nat) (part : Word) : Word → List Word
  | []     => [part]
  | x :: t =>
    if x = .bare ',' ∧ level = 0 then part :: splitCommas 0 [] t
    else splitCommas (depth level x) (part ++ [x]) t

theorem Word.bytes_append (v w : Word) : Word.bytes (v ++ w) = v.bytes ++ w.bytes :=
  List.flatMap_append

theorem Word.length_cons (x : Sym) (w : Word) :
    (Word.bytes (x :: w)).length = x.bytes.length + w.bytes.length := List.length_append

theorem closing_eq_append {level : Nat} {found : Bool} {t amble post : Word}
    (h : closing level found t = some (amble, post)) : t = amble ++ .bare '}' :: post := by
  induction t generalizing level found amble with
  | nil => simp [closing] at h
  | cons x t ih =>
    rw [closing] at h
    split at h
    · rename_i hx
      simp only [Option.some.injEq, Prod.mk.injEq] at h
      rw [← h.1, ← h.2, hx.1]
      rfl
    · obtain ⟨⟨amble', post'⟩, hrest, heq⟩ := Option.map_eq_some_iff.mp h
      simp only [Prod.mk.injEq] at heq
      obtain ⟨rfl, rfl⟩ := heq
      rw [ih hrest]
      rfl

/-- The length of an expression by its parts. -/
theorem length_expression {t amble post : Word} {found : Bool}
    (h : closing 0 found t = some (amble, post)) :
    t.length = amble.length + post.length + 1 ∧
      (Word.bytes (.bare '{' :: t)).length = amble.bytes.length + post.bytes.length + 2 := by
  rw [Word.length_cons, closing_eq_append h, Word.bytes_append, List.length_append,
    List.length_append, Word.length_cons, List.length_cons]
  have hopen : (Sym.bare '{').bytes.length = 1 := by decide
  have hclose : (Sym.bare '}').bytes.length = 1 := by decide
  omega

theorem length_of_mem_splitCommas {level : Nat} {part t w : Word}
    (h : w ∈ splitCommas level part t) :
    w.length ≤ part.length + t.length ∧
      w.bytes.length ≤ part.bytes.length + t.bytes.length := by
  induction t generalizing level part with
  | nil =>
    rw [splitCommas, List.mem_singleton] at h
    simp [h]
  | cons x t ih =>
    have hbytes : Word.bytes (x :: t) = x.bytes ++ Word.bytes t := rfl
    rw [hbytes, List.length_append, List.length_cons]
    rw [splitCommas] at h
    split at h
    · rcases List.mem_cons.mp h with rfl | h
      · omega
      · have := ih h
        simp only [List.length_nil, Word.bytes, List.flatMap_nil] at this
        simp only [Word.bytes]
        omega
    · have := ih h
      have hpart : (Word.bytes (part ++ [x])).length = part.bytes.length + x.bytes.length := by
        simp [Word.bytes]
      rw [hpart, List.length_append, List.length_singleton] at this
      omega

/-! ### Expansion -/

variable [Sequences]

/-- An open brace that is passed over: one at the start of a word with nothing to open, at its end
    or before a closing brace. -/
def passedOver (start : Bool) (t : Word) : Bool :=
  start && (t.head? == none || t.head? == some (.bare '}'))

/-- The words that a word stands for; `start` at its first symbol. -/
def braceExpand (start : Bool) : Word → List Word
  | []     => [[]]
  | x :: t =>
    if x ≠ .bare '{' ∨ passedOver start t = true then (braceExpand false t).map (x :: ·)
    else
      match h : closing 0 false t with
      | none               => (braceExpand false t).map (x :: ·)
      | some (amble, post) =>
        have hlen : amble.length + post.length < t.length := by
          have := congrArg List.length (closing_eq_append h)
          rw [List.length_append, List.length_cons] at this
          omega
        let middles :=
          if .bare ',' ∈ amble then
            (splitCommas 0 [] amble).attach.flatMap fun part =>
              have hpart := (length_of_mem_splitCommas part.2).1
              braceExpand true part.1
          else
            match Sequences.words amble with
            | some words => words
            | none       => [x :: amble ++ [.bare '}']]
        middles.flatMap fun middle => (braceExpand true post).map (middle ++ ·)
termination_by t => t.length
decreasing_by all_goals (simp only [List.length_cons, List.length_nil] at *; omega)

/-- Does a word have a brace expression that is expanded? -/
inductive BraceExpression : Bool → Word → Prop
  | here {start : Bool} {t amble post : Word} (hstart : passedOver start t = false)
      (hclosing : closing 0 false t = some (amble, post))
      (h : .bare ',' ∈ amble ∨ (Sequences.words amble).isSome) :
      BraceExpression start (.bare '{' :: t)
  | behind {start : Bool} {t amble post : Word} (hstart : passedOver start t = false)
      (hclosing : closing 0 false t = some (amble, post)) (hcomma : .bare ',' ∉ amble)
      (hwords : Sequences.words amble = none) (h : BraceExpression true post) :
      BraceExpression start (.bare '{' :: t)
  | later {start : Bool} {x : Sym} {t : Word}
      (hx : x ≠ .bare '{' ∨ passedOver start t = true ∨ closing 0 false t = none)
      (h : BraceExpression false t) : BraceExpression start (x :: t)

/-- The words that stand for what is between the braces of an expression. -/
def middles (amble : Word) : List Word :=
  if .bare ',' ∈ amble then (splitCommas 0 [] amble).flatMap (braceExpand true)
  else (Sequences.words amble).getD [.bare '{' :: amble ++ [.bare '}']]

theorem braceExpand_plain {start : Bool} {x : Sym} {t : Word}
    (h : x ≠ .bare '{' ∨ passedOver start t = true ∨ closing 0 false t = none) :
    braceExpand start (x :: t) = (braceExpand false t).map (x :: ·) := by
  rw [braceExpand]
  by_cases hx : x ≠ .bare '{' ∨ passedOver start t = true
  · rw [if_pos hx]
  · rw [if_neg hx]
    have hnone : closing 0 false t = none := by tauto
    split
    · rfl
    · rename_i hsome
      rw [hnone] at hsome
      cases hsome

theorem braceExpand_expression {start : Bool} {t amble post : Word}
    (hstart : passedOver start t = false) (hclosing : closing 0 false t = some (amble, post)) :
    braceExpand start (.bare '{' :: t) =
      (middles amble).flatMap fun middle => (braceExpand true post).map (middle ++ ·) := by
  rw [braceExpand, if_neg (by simp [hstart])]
  split
  · rename_i hnone
    rw [hclosing] at hnone
    cases hnone
  · rename_i amble' post' hsome
    rw [hclosing, Option.some.injEq, Prod.mk.injEq] at hsome
    obtain ⟨rfl, rfl⟩ := hsome
    have hparts : ((splitCommas 0 [] amble).attach.flatMap fun part => braceExpand true part.1) =
        (splitCommas 0 [] amble).flatMap (braceExpand true) := by
      rw [← List.flatMap_map, List.attach_map_subtype_val]
    simp only [hparts, middles]
    cases Sequences.words amble <;> rfl

/-- What stands for the inside of an expression is no longer than that, unless the expression
    stays. -/
private theorem length_middles {amble : Word} (ih : ∀ part : Word, part.length ≤ amble.length →
      ∀ w ∈ braceExpand true part, w.bytes.length ≤ part.bytes.length)
    {middle : Word} (h : middle ∈ middles amble) :
    middle.bytes.length ≤ amble.bytes.length ∨
      .bare ',' ∉ amble ∧ Sequences.words amble = none ∧
        middle = .bare '{' :: amble ++ [.bare '}'] := by
  rw [middles] at h
  split at h
  · obtain ⟨part, hpart, hw⟩ := List.mem_flatMap.mp h
    obtain ⟨hlen, hbytes⟩ := length_of_mem_splitCommas hpart
    have hempty : (Word.bytes []).length = 0 := rfl
    have := ih part (by simpa using hlen) middle hw
    exact .inl (by omega)
  · rename_i hcomma
    cases hwords : Sequences.words amble with
    | none =>
      rw [hwords, Option.getD_none, List.mem_singleton] at h
      exact .inr ⟨hcomma, rfl, h⟩
    | some ws =>
      rw [hwords, Option.getD_some] at h
      exact .inl (Sequences.short hwords middle h)

/-- Nothing that stands for a word is longer, and everything is shorter when an expression is
    expanded. -/
theorem length_braceExpand (t : Word) (start : Bool) {w : Word} (hw : w ∈ braceExpand start t) :
    w.bytes.length ≤ t.bytes.length ∧
      (BraceExpression start t → w.bytes.length < t.bytes.length) := by
  induction hn : t.length using Nat.strong_induction_on generalizing t start w with
  | _ n ih =>
  subst hn
  cases t with
  | nil =>
    rw [braceExpand, List.mem_singleton] at hw
    rw [hw]
    exact ⟨Nat.le_refl _, fun h => by cases h⟩
  | cons x t =>
    -- the first symbol is passed over, or it opens an expression
    by_cases hx : x ≠ .bare '{' ∨ passedOver start t = true ∨ closing 0 false t = none
    · rw [braceExpand_plain hx, List.mem_map] at hw
      obtain ⟨v, hv, rfl⟩ := hw
      obtain ⟨hle, hlt⟩ := ih t.length (by simp) t false hv rfl
      rw [Word.length_cons, Word.length_cons]
      refine ⟨by omega, fun h => ?_⟩
      suffices BraceExpression false t by
        have := hlt this
        omega
      -- an expression further on makes the rest shorter
      cases h with
      | here hstart hclosing _ => simp [hstart, hclosing] at hx
      | behind hstart hclosing _ _ _ => simp [hstart, hclosing] at hx
      | later _ h => exact h
    · have hopen : x = .bare '{' := by tauto
      have hstart : passedOver start t = false := by simpa using fun h => hx (.inr (.inl h))
      subst hopen
      obtain ⟨⟨amble, post⟩, hclosing⟩ : ∃ found, closing 0 false t = some found :=
        Option.ne_none_iff_exists'.mp fun h => hx (.inr (.inr h))
      obtain ⟨hlen, hbytes⟩ := length_expression hclosing
      rw [braceExpand_expression hstart hclosing] at hw
      obtain ⟨middle, hmiddle, hw⟩ := List.mem_flatMap.mp hw
      obtain ⟨v, hv, rfl⟩ := List.mem_map.mp hw
      obtain ⟨hle, hlt⟩ := ih post.length (by rw [List.length_cons]; omega) post true hv rfl
      rw [Word.bytes_append, List.length_append, hbytes]
      -- the parts between the braces make words that are shorter, or the only one is kept
      rcases length_middles (fun part hpart u hu =>
        (ih part.length (by rw [List.length_cons]; omega) part true hu rfl).1) hmiddle with
        hshort | ⟨hcomma, hwords, rfl⟩
      · exact ⟨by omega, fun _ => by omega⟩
      · -- the expression stays, and what is shorter comes behind it
        have hwhole : (Word.bytes (.bare '{' :: amble ++ [.bare '}'])).length =
            amble.bytes.length + 2 := by
          have hopen : (Sym.bare '{').bytes.length = 1 := by decide
          have hclose : (Word.bytes [.bare '}']).length = 1 := by decide
          rw [List.cons_append, Word.length_cons, Word.bytes_append, List.length_append]
          omega
        rw [hwhole]
        refine ⟨by omega, fun h => ?_⟩
        suffices BraceExpression true post by
          have := hlt this
          omega
        cases h with
        | here _ hclosing' h =>
          rw [hclosing, Option.some.injEq, Prod.mk.injEq] at hclosing'
          obtain ⟨rfl, rfl⟩ := hclosing'
          rcases h with h | h
          · exact absurd h hcomma
          · simp [hwords] at h
        | behind _ hclosing' _ _ h =>
          rw [hclosing, Option.some.injEq, Prod.mk.injEq] at hclosing'
          exact hclosing'.2 ▸ h
        | later h _ => simp [hstart, hclosing] at h

/-- A word without an expression that is expanded stays as it is. -/
theorem braceExpand_eq_self (t : Word) (start : Bool) (h : ¬ BraceExpression start t) :
    braceExpand start t = [t] := by
  induction hn : t.length using Nat.strong_induction_on generalizing t start with
  | _ n ih =>
  subst hn
  cases t with
  | nil => rw [braceExpand]
  | cons x t =>
    by_cases hx : x ≠ .bare '{' ∨ passedOver start t = true ∨ closing 0 false t = none
    · rw [braceExpand_plain hx, ih t.length (by simp) t false (fun h' => h (.later hx h')) rfl]
      rfl
    · have hopen : x = .bare '{' := by tauto
      have hstart : passedOver start t = false := by simpa using fun h => hx (.inr (.inl h))
      subst hopen
      obtain ⟨⟨amble, post⟩, hclosing⟩ : ∃ found, closing 0 false t = some found :=
        Option.ne_none_iff_exists'.mp fun h => hx (.inr (.inr h))
      have hlen := (length_expression hclosing).1
      have hcomma : .bare ',' ∉ amble := fun hc => h (.here hstart hclosing (.inl hc))
      have hwords : Sequences.words amble = none := by
        by_contra hne
        exact h (.here hstart hclosing (.inr (Option.isSome_iff_ne_none.mpr hne)))
      have hpost := ih post.length (by rw [List.length_cons]; omega) post true
        (fun h' => h (.behind hstart hclosing hcomma hwords h')) rfl
      rw [braceExpand_expression hstart hclosing, middles, if_neg hcomma, hwords,
        Option.getD_none, List.flatMap_singleton, hpost, List.map_singleton,
        closing_eq_append hclosing]
      simp

/-- Nothing between quotes is expanded. -/
theorem not_braceExpression_quoted {start : Bool} {t : Word}
    (h : ∀ x ∈ t, ∃ bytes, x = .quoted bytes) : ¬ BraceExpression start t := by
  intro hb
  induction hb with
  | here => simp at h
  | behind => simp at h
  | later _ _ ih => exact ih fun x hx => h x (List.mem_cons_of_mem _ hx)

end Omdrop.Shell
