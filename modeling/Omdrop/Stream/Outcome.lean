import Mathlib.Data.Prod.Lex
import Omdrop.Stream.Decoder

namespace Omdrop.Stream

/-!
# How a reading comes out

A source that is read to its end drains (`Drains`) or breaks (`Breaks`).  One that uses itself up
with every byte does one or the other (`drains_or_breaks`), and so does a decoder whose output is
bounded by what it has taken (`StreamDecoder.Bounded`).
-/

/-- Reading to the end, the `k`-th call with room for `room k` bytes, comes to `P` and then to a
    failure. -/
inductive Breaks {γ π R : Type} [Read γ π R] (c : γ) (room : Nat → ℕ+) :
    Nat → R → List UInt8 → IoError π → R → Prop
  | failed {k r r' e} (h : Read.read c (room k) r = (.error e, r'))
      (hi : e.isInterrupted = false) : Breaks c room k r [] e r'
  | more {k r r₁ r' b bs P e} (h : Read.read c (room k) r = (.ok (b :: bs), r₁))
      (hs : Breaks c room (k + 1) r₁ P e r') : Breaks c room k r (b :: bs ++ P) e r'
  | interrupted {k r r₁ r' e P e'} (h : Read.read c (room k) r = (.error e, r₁))
      (hi : e.isInterrupted = true) (hs : Breaks c room (k + 1) r₁ P e' r') :
      Breaks c room k r P e' r'

section

variable {γ π R M : Type} [Read γ π R] {c : γ} {room : Nat → ℕ+}

/-- A source that uses itself up drains or breaks. -/
theorem drains_or_breaks [LT M] [WellFoundedLT M] (measure : R → M)
    (hok : ∀ {n r r' b bs}, Read.read c n r = (.ok (b :: bs), r') → measure r' < measure r)
    (hint : ∀ {n r r' e}, Read.read c n r = (.error e, r') → e.isInterrupted = true →
      measure r' < measure r) (k : Nat) (r : R) :
    (∃ P r', Drains c room k r P r') ∨ ∃ P e r', Breaks c room k r P e r' := by
  induction hm : measure r using WellFoundedLT.induction generalizing k r with
  | _ m ih =>
    rcases hr : Read.read c (room k) r with ⟨res, r₁⟩
    cases res with
    | error e =>
      by_cases hi : e.isInterrupted = true
      · rcases ih _ (hm ▸ hint hr hi) (k + 1) r₁ rfl with ⟨P, r', hd⟩ | ⟨P, e', r', hb⟩
        · exact .inl ⟨P, r', .interrupted hr hi hd⟩
        · exact .inr ⟨P, e', r', .interrupted hr hi hb⟩
      · exact .inr ⟨[], e, r₁, .failed hr (by simpa using hi)⟩
    | ok bs =>
      cases bs with
      | nil => exact .inl ⟨[], r₁, .finished hr⟩
      | cons b bs =>
        rcases ih _ (hm ▸ hok hr) (k + 1) r₁ rfl with ⟨P, r', hd⟩ | ⟨P, e', r', hb⟩
        · exact .inl ⟨b :: bs ++ P, r', .more hr hd⟩
        · exact .inr ⟨b :: bs ++ P, e', r', .more hr hb⟩

end

namespace StreamDecoder

/-- What a decoder has taken brings only so much output: every call that brings some without
    taking any leaves less of it. -/
def Bounded (d : StreamDecoder) : Prop :=
  ∃ backlog : d.State → Nat, ∀ {s input room f}, d.feed s input room = .ok f →
    f.consumed = 0 → f.produced ≠ [] → backlog f.state < backlog s

/-- No stream is the front of another. -/
theorem Decodes.prefix_free {d : StreamDecoder} {Rest : d.State → List UInt8 → List UInt8 → Prop}
    (hdec : d.Decodes Rest) {s : d.State} {i more o o' : List UInt8} (h : Rest s i o)
    (h' : Rest s (i ++ more) o') : more = [] := by
  induction hm : i.length + o.length using Nat.strong_induction_on generalizing s i o o' with
  | _ m ih =>
    -- both streams, shown the longer of them, take the same step
    have hnil : i ++ more = [] → i = [] := fun h0 => (List.append_eq_nil_iff.mp h0).1
    obtain ⟨f, hf, hstep⟩ := @Decodes.goes d Rest hdec s (i ++ more) 1 i o more h
      (List.prefix_refl _) hnil Nat.one_pos
    obtain ⟨f', hf', hstep'⟩ := @Decodes.goes d Rest hdec s (i ++ more) 1 (i ++ more) o' [] h'
      (List.prefix_append _ _) id Nat.one_pos
    rw [hf] at hf'
    cases hf'
    by_cases hend : f.ended = true
    · rw [if_pos hend] at hstep hstep'
      have hi := hstep.1.trans hstep'.1.symm
      rw [← List.append_nil i, List.append_assoc] at hi
      exact (List.append_cancel_left hi).symm
    · rw [if_neg hend] at hstep hstep'
      obtain ⟨hprog, i₁, o₁, hi₁, ho₁, hrest₁⟩ := hstep
      obtain ⟨_, i₂, o₂, hi₂, ho₂, hrest₂⟩ := hstep'
      have htail : i₂ = i₁ ++ more := by
        have hboth : (i ++ more).take f.consumed ++ i₂ =
            (i ++ more).take f.consumed ++ (i₁ ++ more) := by
          rw [← hi₂, ← List.append_assoc, ← hi₁]
        exact List.append_cancel_left hboth
      rw [htail] at hrest₂
      have hlen₁ := congrArg List.length hi₁
      have hlen₂ := congrArg List.length ho₁
      have htake := (List.length_take_of_le (d.consumed_le hf) :
        ((i ++ more).take f.consumed).length = f.consumed)
      rw [List.length_append] at hlen₁ hlen₂
      have hless : i₁.length + o₁.length < m := by
        rcases hprog with hc | hp
        · omega
        · have := List.length_pos_iff.mpr hp
          omega
      exact ih _ hless hrest₁ hrest₂ rfl

/-- How much output the decoder of a code has left to deliver. -/
def CodeState.backlog : CodeState → Nat
  | .reading _      => 0
  | .pending output => output.length

/-- The decoder of a code has as much left as it has not delivered. -/
theorem bounded_ofCode (code : Code) : (ofCode code).Bounded := by
  refine ⟨CodeState.backlog, ?_⟩
  intro s input room f h hc hp
  cases h
  have hdeliver (k : Nat) (output : List UInt8) (hne : (deliver k output room).produced ≠ []) :
      ∃ rest, (deliver k output room).state = .pending rest ∧ rest.length < output.length := by
    unfold deliver at hne ⊢
    split
    · rename_i hfits
      rw [if_pos hfits] at hne
      exact ⟨[], rfl, List.length_pos_iff.mpr hne⟩
    · rename_i hfits
      rw [if_neg hfits] at hne
      refine ⟨_, rfl, ?_⟩
      have hroom : room ≠ 0 := fun h0 => hne (by rw [h0]; rfl)
      rw [List.length_drop]
      omega
  cases s with
  | pending output =>
    obtain ⟨rest, hstate, hlt⟩ := hdeliver 0 output hp
    show (deliver 0 output room).state.backlog < output.length
    rw [hstate]
    exact hlt
  | reading word =>
    -- a word that is found takes some input
    unfold feedCode at hc hp
    simp only at hc hp
    split at hc
    · rename_i k output hscan
      rw [(deliver_cases k output room).1] at hc
      have := (scan_some hscan).1
      omega
    · rename_i hscan
      rw [hscan] at hp
      exact absurd rfl hp

end StreamDecoder

end Omdrop.Stream
