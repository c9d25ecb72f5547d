import Mathlib.Data.List.TakeWhile
import Omdrop.Text.Glob
import Omdrop.Text.Utf8

namespace Omdrop.Cli

open Omdrop.Text

/-!
# Matching a pattern

`globMatch` walks through a pattern and a text at once and remembers the last star it passed: where
the two differ it goes back to that star and lets it cover one byte more.  `globMatch_iff` says
that this finds out whether the pattern covers the text.
-/

/-- The byte of a star. -/
def starByte : UInt8 := 0x2a

/-- Where the loop stands: in the pattern, in the text, at which star it went on last, and where in
    the text that star ends so far. -/
structure Cursor where
  pi : Nat
  ti : Nat
  star : Option Nat
  mark : Nat
  le : mark ≤ ti

/-- The loop, to its end and past the stars that are left then. -/
def globLoop (p t : List UInt8) (c : Cursor) : Bool :=
  if _ht : c.ti < t.length then
    if _hstar : p[c.pi]? = some starByte then
      globLoop p t ⟨c.pi + 1, c.ti, some c.pi, c.ti, le_refl _⟩
    else if p[c.pi]? = t[c.ti]? then
      globLoop p t ⟨c.pi + 1, c.ti + 1, c.star, c.mark, Nat.le_succ_of_le c.le⟩
    else
      match c.star with
      | some sp => globLoop p t ⟨sp + 1, c.mark + 1, some sp, c.mark + 1, le_refl _⟩
      | none    => false
  else c.pi + ((p.drop c.pi).takeWhile (· == starByte)).length == p.length
termination_by (t.length - c.mark, (t.length - c.ti) + (p.length - c.pi))
decreasing_by
  -- a star moves the mark up or the pattern on
  · have hpi := (List.getElem?_eq_some_iff.mp _hstar).1
    have := c.le
    rw [Prod.lex_def]
    simp only
    omega
  -- a byte moves both on
  · refine Prod.Lex.right _ ?_
    show t.length - (c.ti + 1) + (p.length - (c.pi + 1)) < t.length - c.ti + (p.length - c.pi)
    omega
  -- going back moves the mark up
  · exact Prod.Lex.left _ _ (Nat.sub_lt_sub_left (c.le.trans_lt _ht) (Nat.lt_succ_self _))

/-- Does the pattern, whose only special character is the star, match the text? -/
def globMatch (pattern s : Text) : Bool := globLoop (utf8 pattern) (utf8 s) ⟨0, 0, none, 0, le_refl _⟩

/-- What the loop knows: where it stands the pattern is left to cover the text if it covers it at
    all; and behind a star it has the piece of the pattern that it went through in the text. -/
inductive Cursor.Sound (p t : List UInt8) : Cursor → Prop
  | fresh {pi ti mark le} : pi ≤ p.length →
      (Covers starByte p t ↔ Covers starByte (p.drop pi) (t.drop ti)) →
      Sound p t ⟨pi, ti, none, mark, le⟩
  | starred {pi ti sp mark le} (piece : List UInt8) : starByte ∉ piece → pi ≤ p.length →
      sp < p.length → p.drop (sp + 1) = piece ++ p.drop pi → t.drop mark = piece ++ t.drop ti →
      (Covers starByte p t ↔ Covers starByte (starByte :: p.drop (sp + 1)) (t.drop mark)) →
      Sound p t ⟨pi, ti, some sp, mark, le⟩

variable {p t : List UInt8} {c : Cursor}

/-- At a star everything is left to what comes from there. -/
theorem Cursor.Sound.at_star (h : c.Sound p t) (hstar : p[c.pi]? = some starByte) :
    Cursor.Sound p t ⟨c.pi + 1, c.ti, some c.pi, c.ti, le_refl _⟩ := by
  obtain ⟨hpi, hp⟩ := List.getElem?_eq_some_iff.mp hstar
  have hdrop : p.drop c.pi = starByte :: p.drop (c.pi + 1) := by
    rw [List.drop_eq_getElem_cons hpi, hp]
  refine .starred [] List.not_mem_nil hpi hpi rfl rfl ?_
  cases h with
  | fresh _ hiff => rw [hiff, hdrop]
  | starred piece hpiece _ _ hpattern htext hiff =>
    rw [hiff, hpattern, htext, hdrop]
    exact Covers.star_append_star_iff hpiece

/-- A byte that the pattern and the text share moves both on. -/
theorem Cursor.Sound.at_same (h : c.Sound p t) (hti : c.ti < t.length)
    (hstar : p[c.pi]? ≠ some starByte) (hsame : p[c.pi]? = t[c.ti]?) (hle : c.mark ≤ c.ti + 1) :
    Cursor.Sound p t ⟨c.pi + 1, c.ti + 1, c.star, c.mark, hle⟩ := by
  obtain ⟨b, hb⟩ : ∃ b, t[c.ti] = b := ⟨_, rfl⟩
  have htext : t.drop c.ti = b :: t.drop (c.ti + 1) := by
    rw [List.drop_eq_getElem_cons hti, hb]
  rw [List.getElem?_eq_getElem hti, hb] at hsame
  obtain ⟨hpi, hp⟩ := List.getElem?_eq_some_iff.mp hsame
  have hpattern : p.drop c.pi = b :: p.drop (c.pi + 1) := by
    rw [List.drop_eq_getElem_cons hpi, hp]
  have hne : b ≠ starByte := by
    rintro rfl
    exact hstar hsame
  cases h with
  | fresh _ hiff =>
    refine .fresh hpi ?_
    rw [hiff, hpattern, htext, Covers.cons_iff hne]
    constructor
    · rintro ⟨u, hu, hcovers⟩
      exact (List.cons.inj hu).2 ▸ hcovers
    · exact fun hcovers => ⟨_, rfl, hcovers⟩
  | starred piece hpiece _ hsp hpat htxt hiff =>
    refine .starred (piece ++ [b]) ?_ hpi hsp ?_ ?_ hiff
    · rw [List.mem_append, List.mem_singleton]
      exact not_or.mpr ⟨hpiece, Ne.symm hne⟩
    · rw [hpat, hpattern, List.append_assoc, List.singleton_append]
    · rw [htxt, htext, List.append_assoc, List.singleton_append]

/-- Where they differ, and the pattern is not at a star, the pattern does not cover the rest. -/
theorem not_covers_of_differ (hti : c.ti < t.length) (hstar : p[c.pi]? ≠ some starByte)
    (hdiffer : p[c.pi]? ≠ t[c.ti]?) : ¬ Covers starByte (p.drop c.pi) (t.drop c.ti) := by
  rw [List.drop_eq_getElem_cons hti]
  rcases hp : p[c.pi]? with _ | b
  · rw [List.drop_eq_nil_of_le (List.getElem?_eq_none_iff.mp hp), Covers.nil_iff]
    exact List.cons_ne_nil _ _
  · obtain ⟨hpi, hpb⟩ := List.getElem?_eq_some_iff.mp hp
    rw [hp] at hstar hdiffer
    rw [List.getElem?_eq_getElem hti] at hdiffer
    rw [List.drop_eq_getElem_cons hpi, hpb, Covers.cons_iff fun hb => hstar (congrArg some hb)]
    rintro ⟨u, hu, -⟩
    exact hdiffer (congrArg some (List.cons.inj hu).1.symm)

/-- The last star covers one byte more. -/
theorem Cursor.Sound.back (h : c.Sound p t) (hti : c.ti < t.length) {sp : Nat}
    (hstar : c.star = some sp) (hnot : ¬ Covers starByte (p.drop c.pi) (t.drop c.ti)) :
    Cursor.Sound p t ⟨sp + 1, c.mark + 1, some sp, c.mark + 1, le_refl _⟩ := by
  have hmark : c.mark < t.length := c.le.trans_lt hti
  cases h with
  | fresh _ _ => cases hstar
  | starred piece hpiece _ hsp hpattern htext hiff =>
    cases hstar
    refine .starred [] List.not_mem_nil hsp hsp rfl rfl ?_
    rw [hiff, List.drop_eq_getElem_cons hmark, Covers.star_cons_iff,
      ← List.drop_eq_getElem_cons hmark, or_iff_right]
    -- with nothing more the piece is the one that was gone through
    rw [hpattern, htext, Covers.append_iff hpiece]
    rintro ⟨u, hu, hcovers⟩
    exact hnot (List.append_cancel_left hu ▸ hcovers)

/-- At the end of the text only stars may be left. -/
theorem Cursor.Sound.at_end (h : c.Sound p t) (hti : ¬ c.ti < t.length) :
    Covers starByte p t ↔ ∀ b ∈ p.drop c.pi, b = starByte := by
  have hend : t.drop c.ti = [] := List.drop_eq_nil_of_le (by omega)
  cases h with
  | fresh _ hiff => rw [hiff, hend, Covers.nil_right_iff]
  | starred piece hpiece _ _ hpattern htext hiff =>
    rw [hiff, hpattern, htext, hend, List.append_nil, Covers.star_append_end_iff hpiece,
      Covers.nil_right_iff]

theorem Cursor.Sound.pi_le (h : c.Sound p t) : c.pi ≤ p.length := by
  cases h with
  | fresh hpi _ => exact hpi
  | starred _ _ hpi _ _ _ _ => exact hpi

private theorem globLoop_iff (h : c.Sound p t) : globLoop p t c = true ↔ Covers starByte p t := by
  fun_induction globLoop p t c with
  | case1 c hti hstar ih => exact ih (h.at_star hstar)
  | case2 c hti hstar hsame ih => exact ih (h.at_same hti hstar hsame _)
  | case3 c hti hstar hdiffer sp hsp ih =>
    -- the last star takes one character more
    exact ih (h.back hti hsp (not_covers_of_differ hti hstar hdiffer))
  | case4 c hti hstar hdiffer hnone =>
    -- there is no star to go back to
    have hnot := not_covers_of_differ hti hstar hdiffer
    cases h with
    | fresh _ hiff => simpa [hiff] using hnot
    | starred => cases hnone
  | case5 c hend =>
    -- the text is at its end, so only stars may be left of the pattern
    have hpi := h.pi_le
    rw [h.at_end hend, beq_iff_eq]
    have hlength : (p.drop c.pi).length = p.length - c.pi := List.length_drop
    have hall : ((p.drop c.pi).takeWhile (· == starByte)).length = (p.drop c.pi).length ↔
        ∀ b ∈ p.drop c.pi, b = starByte := by
      have hself := @List.takeWhile_eq_self_iff _ (· == starByte) (p.drop c.pi)
      simp only [beq_iff_eq] at hself
      rw [← hself]
      exact ⟨(List.takeWhile_prefix _).eq_of_length, congrArg List.length⟩
    rw [← hall]
    omega

/-- **What the loop finds out.**  The pattern matches a text if and only if the text can be split so
    that every star covers a run of bytes and every other byte of the pattern itself. -/
theorem globMatch_iff (pattern s : Text) :
    globMatch pattern s = true ↔ Covers starByte (utf8 pattern) (utf8 s) :=
  globLoop_iff (.fresh (Nat.zero_le _) Iff.rfl)

end Omdrop.Cli
