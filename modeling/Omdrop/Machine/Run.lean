import Mathlib.Data.List.Induction

namespace Omdrop

/-!
# Machines and their runs

A machine answers one request at a time and moves on.  What holds of every run is stated once,
for any machine:

* `Keeps.run` — what every step keeps, every run keeps;
* `Counts.run` — the same for an invariant that counts the steps of some kind;
* `exists_switch` — a property that a run brought about was brought about by one of its steps.
-/

/-- A machine with states `σ`: a request in `α` takes it to its next state with an answer. -/
structure Machine (σ α ω : Type) where
  step : σ → α → σ × ω

namespace Machine

variable {σ α ω : Type} (M : Machine σ α ω)

/-- The state after a run. -/
def run (s : σ) : List α → σ
  | []      => s
  | a :: as => run (M.step s a).1 as

/-- The answers of a run. -/
def answers (s : σ) : List α → List ω
  | []      => []
  | a :: as => (M.step s a).2 :: answers (M.step s a).1 as

@[simp] theorem run_nil (s : σ) : M.run s [] = s := rfl

@[simp] theorem run_cons (s : σ) (a : α) (as : List α) :
    M.run s (a :: as) = M.run (M.step s a).1 as := rfl

@[simp] theorem answers_nil (s : σ) : M.answers s [] = [] := rfl

@[simp] theorem answers_cons (s : σ) (a : α) (as : List α) :
    M.answers s (a :: as) = (M.step s a).2 :: M.answers (M.step s a).1 as := rfl

@[simp] theorem run_append (s : σ) (as bs : List α) :
    M.run s (as ++ bs) = M.run (M.run s as) bs := by
  induction as generalizing s with
  | nil => rfl
  | cons a as ih => exact ih _

@[simp] theorem answers_append (s : σ) (as bs : List α) :
    M.answers s (as ++ bs) = M.answers s as ++ M.answers (M.run s as) bs := by
  induction as generalizing s with
  | nil => rfl
  | cons a as ih => simp [ih]

@[simp] theorem length_answers (s : σ) (as : List α) : (M.answers s as).length = as.length := by
  induction as generalizing s with
  | nil => rfl
  | cons a as ih => simp [ih]

/-- Every step keeps `I`. -/
def Keeps (I : σ → Prop) : Prop := ∀ s a, I s → I (M.step s a).1

variable {M}

/-- **Invariants.**  What every step keeps, every run keeps. -/
theorem Keeps.run {I : σ → Prop} (h : M.Keeps I) {s : σ} (hs : I s) (as : List α) :
    I (M.run s as) := by
  induction as generalizing s with
  | nil => exact hs
  | cons a as ih => exact ih (h s a hs)

/-- Every step takes `I n` to `I (n + 1)` when its answer is of the kind `p`, and to `I n` when
    it is not. -/
def Counts (M : Machine σ α ω) (p : ω → Bool) (I : Nat → σ → Prop) : Prop :=
  ∀ n s a, I n s → I (n + (p (M.step s a).2).toNat) (M.step s a).1

/-- **Counting invariants.**  A run counts its answers of the kind `p`. -/
theorem Counts.run {p : ω → Bool} {I : Nat → σ → Prop} (h : M.Counts p I) {n : Nat} {s : σ}
    (hs : I n s) (as : List α) : I (n + (M.answers s as).countP p) (M.run s as) := by
  induction as generalizing n s with
  | nil => exact hs
  | cons a as ih =>
    have hstep := ih (h n s a hs)
    rw [answers_cons, List.countP_cons, run_cons]
    cases hp : p (M.step s a).2
    · simpa [hp] using hstep
    · simpa [hp, Nat.add_assoc, Nat.add_comm 1] using hstep

/-- **The step that did it.**  A property that holds after a run, and not before it, was brought
    about by one of its steps and has held ever since. -/
theorem exists_switch {P : σ → Prop} {s : σ} {as : List α} (hs : ¬ P s) (h : P (M.run s as)) :
    ∃ pre a post, as = pre ++ a :: post ∧ ¬ P (M.run s pre) ∧
      ∀ mid, mid <+: post → P (M.run (M.step (M.run s pre) a).1 mid) := by
  induction as using List.reverseRecOn with
  | nil => exact absurd h hs
  | append_singleton as a ih =>
    by_cases hP : P (M.run s as)
    · obtain ⟨pre, b, post, rfl, hpre, hpost⟩ := ih hP
      refine ⟨pre, b, post ++ [a], by simp, hpre, fun mid hmid => ?_⟩
      rcases List.prefix_concat_iff.mp hmid with rfl | hmid
      · simpa using h
      · exact hpost mid hmid
    · refine ⟨as, a, [], rfl, hP, fun mid hmid => ?_⟩
      obtain rfl := List.prefix_nil.mp hmid
      simpa using h

end Machine

end Omdrop
