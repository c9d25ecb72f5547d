import Mathlib.Data.List.Basic

namespace Omdrop

/-!
# Patterns with stars

`Covers star p t` says that the text `t` can be split along the pattern `p`: each `star` covers a
run, and everything else stands for itself.  `covers_star_append_iff` is why only the last star of
a pattern has to be tried again: what an earlier one could cover as well, the later one can.
-/

/-- The pattern covers the text: every `star` some run of it, all else itself. -/
inductive Covers {α : Type} (star : α) : List α → List α → Prop
  | nil : Covers star [] []
  | run {p t : List α} (r : List α) : Covers star p t → Covers star (star :: p) (r ++ t)
  | same {c : α} {p t : List α} : c ≠ star → Covers star p t → Covers star (c :: p) (c :: t)

namespace Covers

variable {α : Type} {star : α} {p t : List α}

theorem nil_iff : Covers star [] t ↔ t = [] := by
  constructor
  · intro h
    cases h
    rfl
  · rintro rfl
    exact .nil

theorem star_iff : Covers star (star :: p) t ↔ ∃ r u, t = r ++ u ∧ Covers star p u := by
  constructor
  · intro h
    cases h with
    | run r h => exact ⟨r, _, rfl, h⟩
    | same hne _ => exact absurd rfl hne
  · rintro ⟨r, u, rfl, h⟩
    exact .run r h

theorem cons_iff {c : α} (hc : c ≠ star) :
    Covers star (c :: p) t ↔ ∃ u, t = c :: u ∧ Covers star p u := by
  constructor
  · intro h
    cases h with
    | run r h => exact absurd rfl hc
    | same _ h => exact ⟨_, rfl, h⟩
  · rintro ⟨u, rfl, h⟩
    exact .same hc h

/-- A piece of the pattern without a star stands for itself. -/
theorem append_iff {piece : List α} (hpiece : star ∉ piece) :
    Covers star (piece ++ p) t ↔ ∃ u, t = piece ++ u ∧ Covers star p u := by
  induction piece generalizing t with
  | nil => simp
  | cons c piece ih =>
    rw [List.mem_cons, not_or] at hpiece
    rw [List.cons_append, cons_iff (Ne.symm hpiece.1)]
    constructor
    · rintro ⟨u, rfl, h⟩
      obtain ⟨v, rfl, hv⟩ := (ih hpiece.2).mp h
      exact ⟨v, rfl, hv⟩
    · rintro ⟨u, rfl, h⟩
      exact ⟨piece ++ u, rfl, (ih hpiece.2).mpr ⟨u, rfl, h⟩⟩

/-- A star may cover more at its end. -/
theorem star_append (r : List α) (h : Covers star (star :: p) t) :
    Covers star (star :: p) (r ++ t) := by
  obtain ⟨s, u, rfl, hu⟩ := star_iff.mp h
  rw [← List.append_assoc]
  exact .run (r ++ s) hu

/-- A star covers nothing, or its first element and goes on. -/
theorem star_cons_iff {c : α} :
    Covers star (star :: p) (c :: t) ↔ Covers star p (c :: t) ∨ Covers star (star :: p) t := by
  constructor
  · intro h
    obtain ⟨r, u, hsplit, h⟩ := star_iff.mp h
    cases r with
    | nil => exact .inl (hsplit ▸ h)
    | cons d r =>
      rw [List.cons_append, List.cons.injEq] at hsplit
      exact .inr (star_iff.mpr ⟨r, u, hsplit.2, h⟩)
  · rintro (h | h)
    · exact .run [] h
    · exact star_append [c] h

/-- **The last star is enough.**  Between two stars the text has the piece of the pattern at once:
    if the whole can be covered, it can with this occurrence of the piece. -/
theorem star_append_star_iff {piece : List α} (hpiece : star ∉ piece) :
    Covers star (star :: (piece ++ star :: p)) (piece ++ t) ↔ Covers star (star :: p) t := by
  constructor
  · intro h
    obtain ⟨r, u, hsplit, h⟩ := star_iff.mp h
    obtain ⟨v, rfl, hv⟩ := (append_iff hpiece).mp h
    -- `v` comes after a later occurrence, so it is an end of what comes after this one
    have hend : v <:+ t := by
      have hv_end : v <:+ piece ++ t := ⟨r ++ piece, by rw [hsplit, List.append_assoc]⟩
      refine List.suffix_of_suffix_length_le hv_end (List.suffix_append piece t) ?_
      have := congrArg List.length hsplit
      simp only [List.length_append] at this
      omega
    obtain ⟨s, rfl⟩ := hend
    exact star_append s hv
  · intro h
    exact .run [] ((append_iff hpiece).mpr ⟨t, rfl, h⟩)

/-- With nothing left behind the piece, the star covers nothing. -/
theorem star_append_end_iff {piece : List α} (hpiece : star ∉ piece) :
    Covers star (star :: (piece ++ p)) piece ↔ Covers star p [] := by
  constructor
  · intro h
    obtain ⟨r, u, hsplit, h⟩ := star_iff.mp h
    obtain ⟨v, rfl, hv⟩ := (append_iff hpiece).mp h
    have hlength := congrArg List.length hsplit
    simp only [List.length_append] at hlength
    have hv_nil : v = [] := List.length_eq_zero_iff.mp (by omega)
    rwa [hv_nil] at hv
  · intro h
    exact .run [] ((append_iff hpiece).mpr ⟨[], by simp, h⟩)

/-- Nothing is left for the pattern but stars. -/
theorem nil_right_iff : Covers star p [] ↔ ∀ c ∈ p, c = star := by
  induction p with
  | nil => simp [nil_iff]
  | cons c p ih =>
    by_cases hc : c = star
    · subst hc
      rw [star_iff]
      constructor
      · rintro ⟨r, u, hsplit, h⟩
        obtain ⟨rfl, rfl⟩ := List.append_eq_nil_iff.mp hsplit.symm
        simpa using ih.mp h
      · intro h
        exact ⟨[], [], rfl, ih.mpr fun d hd => h d (List.mem_cons_of_mem _ hd)⟩
    · rw [cons_iff hc]
      constructor
      · rintro ⟨u, hu, -⟩
        cases hu
      · intro h
        exact absurd (h c List.mem_cons_self) hc

end Covers

end Omdrop
