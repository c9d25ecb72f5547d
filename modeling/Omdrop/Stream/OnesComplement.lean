import Mathlib.Data.Nat.ModEq

namespace Omdrop.OnesComplement

/-!
# One's-complement sums

Sums of words below a base `b`, where what carries out of a word is added back in.  They can be
formed with the carry added at every step (`add`), or at the end of a plain sum (`fold`):
`foldl_add` says that it comes to the same, the `residue` of the plain sum.
-/

variable {b : Nat}

/-- Add two words; a carry is added back in. -/
def add (b x y : Nat) : Nat := if x + y < b then x + y else x + y - (b - 1)

/-- Folding the carry in makes a sum smaller. -/
private theorem fold_decreases {s : Nat} (h : ¬ s < b ∧ 2 ≤ b) : s % b + s / b < s := by
  have hdiv := Nat.div_add_mod s b
  have hpos : 0 < s / b := Nat.div_pos (Nat.le_of_not_lt h.1) (by omega)
  have hmul : 2 * (s / b) ≤ b * (s / b) := Nat.mul_le_mul_right _ h.2
  omega

/-- Add the carries of a plain sum back in until there are none. -/
def fold (b s : Nat) : Nat :=
  if _h : ¬ s < b ∧ 2 ≤ b then fold b (s % b + s / b) else s
termination_by s
decreasing_by exact fold_decreases _h

/-- What is left of a sum: one of `1` to `b - 1`, or `0` for `0`. -/
def residue (b s : Nat) : Nat := if s = 0 then 0 else (s - 1) % (b - 1) + 1

/-- What is one digit is its own residue. -/
theorem residue_of_lt {s : Nat} (h : s < b) : residue b s = s := by
  unfold residue
  split
  · rw [‹s = 0›]
  · rw [Nat.mod_eq_of_lt (by omega)]
    omega

/-- Sums that are alike, and not zero, leave the same. -/
theorem residue_congr {s t : Nat} (hs : 0 < s) (ht : 0 < t) (h : s ≡ t [MOD b - 1]) :
    residue b s = residue b t := by
  have hpred : s - 1 ≡ t - 1 [MOD b - 1] := by
    apply Nat.ModEq.add_right_cancel' 1
    rwa [Nat.sub_add_cancel hs, Nat.sub_add_cancel ht]
  unfold residue
  rw [if_neg (by omega), if_neg (by omega), hpred]

/-- A residue is one digit. -/
theorem residue_lt {s : Nat} (hb : 2 ≤ b) : residue b s < b := by
  unfold residue
  split
  · omega
  · have := Nat.mod_lt (s - 1) (show 0 < b - 1 by omega)
    omega

/-- Only zero has the residue zero. -/
theorem residue_pos {s : Nat} (h : 0 < s) : 0 < residue b s := by
  unfold residue
  rw [if_neg (by omega)]
  exact Nat.succ_pos _

/-- A residue is the sum modulo the base less one. -/
theorem residue_modEq (s : Nat) : residue b s ≡ s [MOD b - 1] := by
  unfold residue
  split
  · rw [‹s = 0›]
  · have hmod : (s - 1) % (b - 1) + 1 ≡ s - 1 + 1 [MOD b - 1] :=
      (Nat.mod_modEq _ _).add_right 1
    rwa [Nat.sub_add_cancel (by omega)] at hmod

/-- Folding once changes nothing modulo the base less one. -/
private theorem carry_modEq (hb : 1 ≤ b) (s : Nat) : s % b + s / b ≡ s [MOD b - 1] := by
  have hbase : b ≡ 1 [MOD b - 1] := by
    have := (Nat.modEq_zero_iff_dvd.mpr (dvd_refl (b - 1))).add_right 1
    rwa [Nat.sub_add_cancel hb, Nat.zero_add] at this
  calc s % b + s / b ≡ s % b + b * (s / b) [MOD b - 1] := by
        have := (hbase.mul_right (s / b)).symm
        rw [Nat.one_mul] at this
        exact this.add_left _
    _ = s := Nat.mod_add_div s b

/-- **Folding leaves the residue.** -/
theorem fold_eq (hb : 2 ≤ b) (s : Nat) : fold b s = residue b s := by
  fun_induction fold b s with
  | case1 s h ih =>
    have hpos : 0 < s % b + s / b := by
      have := Nat.div_pos (Nat.le_of_not_lt h.1) (by omega)
      omega
    rw [ih, residue_congr hpos (by omega) (carry_modEq (by omega) s)]
  | case2 s h => rw [residue_of_lt (by omega)]

/-- A sum with its carry is the sum modulo the base less one. -/
private theorem add_modEq {x y : Nat} (hb : 1 ≤ b) : add b x y ≡ x + y [MOD b - 1] := by
  unfold add
  split
  · rfl
  · have : x + y = x + y - (b - 1) + (b - 1) := by omega
    conv_rhs => rw [this]
    exact (Nat.add_modEq_right).symm

/-- A sum may be folded as it grows, or at its end. -/
private theorem residue_add (hb : 2 ≤ b) {s y : Nat} (hy : y < b) :
    add b (residue b s) y = residue b (s + y) := by
  have hlt := residue_lt (s := s) hb
  have hsum : add b (residue b s) y < b := by
    unfold add
    split <;> omega
  rcases Nat.eq_zero_or_pos (s + y) with hzero | hpos
  · obtain ⟨rfl, rfl⟩ : s = 0 ∧ y = 0 := by omega
    rw [residue_of_lt (by omega)]
    exact if_pos (by omega)
  · have hne : 0 < add b (residue b s) y := by
      have hposs : 0 < s → 0 < residue b s := residue_pos
      unfold add
      split <;> omega
    rw [← residue_of_lt hsum]
    exact residue_congr hne hpos ((add_modEq (by omega)).trans ((residue_modEq s).add_right y))

/-- **The carries can be added at the end.** -/
theorem foldl_add (hb : 2 ≤ b) {ws : List Nat} (hws : ∀ w ∈ ws, w < b) :
    ws.foldl (add b) 0 = fold b ws.sum := by
  have hfrom : ∀ s, ws.foldl (add b) (residue b s) = residue b (s + ws.sum) := by
    induction ws with
    | nil => simp
    | cons w ws ih =>
      intro s
      rw [List.foldl_cons, residue_add hb (hws w List.mem_cons_self), List.sum_cons, ← Nat.add_assoc]
      exact ih (fun x hx => hws x (List.mem_cons_of_mem _ hx)) _
  rw [fold_eq hb]
  have := hfrom 0
  rwa [residue_of_lt (by omega), Nat.zero_add] at this

/-- **A sum with its complement.**  What completes a sum to `b - 1`, and is not written as `0`,
    makes the whole `b - 1`. -/
theorem residue_complement (hb : 2 ≤ b) {s : Nat} (hs : 0 < s) :
    residue b (s + if b - 1 - residue b s = 0 then b - 1 else b - 1 - residue b s) = b - 1 := by
  have hlt := residue_lt (s := s) hb
  have hpos := residue_pos (b := b) hs
  have hmod := residue_modEq (b := b) s
  have hlast : residue b (b - 1) = b - 1 := residue_of_lt (by omega)
  split
  · rename_i hfull
    have hres : residue b s = b - 1 := by omega
    rw [residue_congr (t := s) (by omega) hs Nat.add_modEq_right, hres]
  · conv_rhs => rw [← hlast]
    refine residue_congr (by omega) (by omega) ?_
    calc s + (b - 1 - residue b s) ≡ residue b s + (b - 1 - residue b s) [MOD b - 1] :=
          hmod.symm.add_right _
      _ = b - 1 := by omega

end Omdrop.OnesComplement
