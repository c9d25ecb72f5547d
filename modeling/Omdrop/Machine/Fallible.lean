import Mathlib.Data.List.Basic

namespace Omdrop

/-!
# Programs that may fail

A `Fallible ε σ α` changes a state in `σ` and comes to a result in `α` or fails with an error in
`ε`; a failure keeps the state it happened in.  `Triple P x Q E` says what holds after it: run
where `P` holds, `x` either comes to a result that satisfies `Q` with the state it leaves, or
fails with an error that satisfies `E` with it.
-/

/-- A program that may fail, and leaves a state either way. -/
def Fallible (ε σ α : Type) := σ → Except ε α × σ

namespace Fallible

variable {ε σ α β : Type}

instance : Monad (Fallible ε σ) where
  pure a := fun s => (.ok a, s)
  bind x f := fun s =>
    match x s with
    | (.ok a, s')    => f a s'
    | (.error e, s') => (.error e, s')

/-- Fail. -/
def fail (e : ε) : Fallible ε σ α := fun s => (.error e, s)

/-- The state. -/
def get : Fallible ε σ σ := fun s => (.ok s, s)

/-- Change the state. -/
def modify (f : σ → σ) : Fallible ε σ Unit := fun s => (.ok (), f s)

/-- Come to what `x` comes to, a failure included. -/
def attempt (x : Fallible ε σ α) : Fallible ε σ (Except ε α) := fun s =>
  match x s with
  | (.ok a, s')    => (.ok (.ok a), s')
  | (.error e, s') => (.ok (.error e), s')

/-- Come to a result that is there already. -/
def ofExcept (res : Except ε α) : Fallible ε σ α := fun s => (res, s)

/-- Fail with `e` when `p` holds. -/
def failIf (p : Bool) (e : ε) : Fallible ε σ Unit := if p then fail e else pure ()

@[simp] theorem pure_apply (a : α) (s : σ) : (pure a : Fallible ε σ α) s = (.ok a, s) := rfl
@[simp] theorem fail_apply (e : ε) (s : σ) : (fail e : Fallible ε σ α) s = (.error e, s) := rfl
@[simp] theorem get_apply (s : σ) : (get : Fallible ε σ σ) s = (.ok s, s) := rfl
@[simp] theorem modify_apply (f : σ → σ) (s : σ) :
    (modify f : Fallible ε σ Unit) s = (.ok (), f s) := rfl

/-- To fail on a condition. -/
theorem failIf_apply (p : Bool) (e : ε) (s : σ) :
    (failIf p e : Fallible ε σ Unit) s = if p then (.error e, s) else (.ok (), s) := by
  unfold failIf
  split <;> rfl

/-- Past a check, it did not apply. -/
theorem failIf_eq_ok {p : Bool} {e : ε} {s s' : σ} {u : Unit}
    (h : (failIf p e : Fallible ε σ Unit) s = (.ok u, s')) : p = false ∧ s' = s := by
  rw [failIf_apply] at h
  split at h
  · cases h
  · rename_i hp
    cases h
    exact ⟨by simpa using hp, rfl⟩

variable {x : Fallible ε σ α} {f : α → Fallible ε σ β} {s s' s'' : σ}

/-- What comes after a success goes on with its value. -/
theorem bind_of_ok {a : α} (h : x s = (.ok a, s')) : (x >>= f) s = f a s' := by
  simp only [bind, h]

/-- Nothing comes after a failure. -/
theorem bind_of_error {e : ε} (h : x s = (.error e, s')) : (x >>= f) s = (.error e, s') := by
  simp only [bind, h]

/-- **How a sequence succeeds.**  Both parts do. -/
theorem bind_eq_ok {b : β} (h : (x >>= f) s = (.ok b, s'')) :
    ∃ a s', x s = (.ok a, s') ∧ f a s' = (.ok b, s'') := by
  simp only [bind] at h
  split at h
  · exact ⟨_, _, ‹_›, h⟩
  · cases h

/-! ### Triples -/

/-- What an outcome has to satisfy. -/
def After (Q : α → σ → Prop) (E : ε → σ → Prop) : Except ε α × σ → Prop
  | (.ok a, s)    => Q a s
  | (.error e, s) => E e s

namespace After

variable {Q : α → σ → Prop} {E : ε → σ → Prop} {R : β → σ → Prop}

/-- What one outcome satisfies. -/
theorem imp {Q' : α → σ → Prop} {E' : ε → σ → Prop} {r : Except ε α × σ} (h : After Q E r)
    (hQ : ∀ a s, Q a s → Q' a s) (hE : ∀ e s, E e s → E' e s) : After Q' E' r := by
  obtain ⟨res, s⟩ := r
  cases res with
  | ok a => exact hQ a s h
  | error e => exact hE e s h

/-- One after the other, from one state. -/
theorem bind (h : After (fun a s' => After R E (f a s')) E (x s)) : After R E ((x >>= f) s) := by
  rcases hr : x s with ⟨res, s'⟩
  rw [hr] at h
  cases res with
  | ok a =>
    rw [bind_of_ok hr]
    exact h
  | error e =>
    rw [bind_of_error hr]
    exact h

/-- An attempt has both outcomes as values. -/
theorem attempt {Q : Except ε α → σ → Prop}
    (h : After (fun a s' => Q (.ok a) s') (fun e s' => Q (.error e) s') (x s)) :
    After Q E (x.attempt s) := by
  unfold Fallible.attempt
  rcases hr : x s with ⟨res, s'⟩
  rw [hr] at h
  cases res with
  | ok a => exact h
  | error e => exact h

/-- To fail on a condition is to know it afterwards. -/
theorem failIf {p : Bool} {e : ε} {Q : Unit → σ → Prop} (hok : p = false → Q () s)
    (herr : p = true → E e s) : After Q E ((failIf p e : Fallible ε σ Unit) s) := by
  rw [failIf_apply]
  split
  · exact herr ‹_›
  · exact hok (by simpa using ‹¬ p = true›)

/-- Each branch knows its condition. -/
theorem ite {c : Prop} [Decidable c] {y : Fallible ε σ α} (hx : c → After Q E (x s))
    (hy : ¬ c → After Q E (y s)) : After Q E ((if c then x else y) s) := by
  split
  · exact hx ‹_›
  · exact hy ‹_›

end After

/-- Run where `P` holds, `x` comes to `Q` or fails with `E`. -/
def Triple (P : σ → Prop) (x : Fallible ε σ α) (Q : α → σ → Prop) (E : ε → σ → Prop) : Prop :=
  ∀ s, P s → After Q E (x s)

namespace Triple

variable {P P' : σ → Prop} {Q Q' : α → σ → Prop} {E E' : ε → σ → Prop} {R : β → σ → Prop}

/-- What a triple says of a run that succeeds. -/
theorem of_ok (h : Triple P x Q E) (hP : P s) {a : α} (hx : x s = (.ok a, s')) : Q a s' := by
  have := h s hP
  rwa [hx] at this

/-- What a triple says of one that fails. -/
theorem of_error (h : Triple P x Q E) (hP : P s) {e : ε} (hx : x s = (.error e, s')) : E e s' := by
  have := h s hP
  rwa [hx] at this

/-- Ask for more, promise less. -/
theorem imp (h : Triple P x Q E) (hP : ∀ s, P' s → P s) (hQ : ∀ a s, Q a s → Q' a s)
    (hE : ∀ e s, E e s → E' e s) : Triple P' x Q' E' := by
  intro s hs
  have hx := h s (hP s hs)
  rcases hr : x s with ⟨res, s'⟩
  rw [hr] at hx
  cases res with
  | ok a => exact hQ a s' hx
  | error e => exact hE e s' hx

/-- The triple of a value. -/
theorem pure {a : α} (h : ∀ s, P s → Q a s) : Triple P (Pure.pure a : Fallible ε σ α) Q E := h

/-- The triple of a failure. -/
theorem fail {e : ε} (h : ∀ s, P s → E e s) : Triple P (fail e : Fallible ε σ α) Q E := h

/-- The triple of a change. -/
theorem modify {g : σ → σ} {Q : Unit → σ → Prop} (h : ∀ s, P s → Q () (g s)) :
    Triple P (modify g : Fallible ε σ Unit) Q E := h

/-- A check that does not apply. -/
theorem pass {p : Bool} {e : ε} (hp : p = false) :
    Triple P (failIf p e : Fallible ε σ Unit) (fun _ s => P s) E := by
  intro s h
  rw [failIf_apply, hp]
  exact h

/-- One after the other. -/
theorem bind (hx : Triple P x Q E) (hf : ∀ a, Triple (Q a) (f a) R E) :
    Triple P (x >>= f) R E := by
  intro s hs
  have h := hx s hs
  rcases hr : x s with ⟨res, s'⟩
  rw [hr] at h
  cases res with
  | ok a =>
    rw [bind_of_ok hr]
    exact hf a s' h
  | error e =>
    rw [bind_of_error hr]
    exact h

end Triple

end Fallible

end Omdrop
