import Omdrop.Machine.Fallible

namespace Omdrop

/-!
# Two programs side by side

`Alike P x y Q E` compares two programs over different states: run from states that `P` relates,
they come to the same result and `Q` relates the states they leave, or they fail with the same
error and `E` relates them.
-/

namespace Fallible

variable {ε σ τ α β : Type}

/-- What relates the states that an outcome leaves. -/
def Related (Q : α → σ → τ → Prop) (E : ε → σ → τ → Prop) : Except ε α → σ → τ → Prop
  | .ok a, s, t    => Q a s t
  | .error e, s, t => E e s t

/-- Two outcomes are the same but for their states, which are related. -/
def Same (Q : α → σ → τ → Prop) (E : ε → σ → τ → Prop) (o : Except ε α × σ) (o' : Except ε α × τ) :
    Prop :=
  o'.1 = o.1 ∧ Related Q E o.1 o.2 o'.2

/-- Run side by side from related states. -/
def Alike (P : σ → τ → Prop) (x : Fallible ε σ α) (y : Fallible ε τ α) (Q : α → σ → τ → Prop)
    (E : ε → σ → τ → Prop) : Prop :=
  ∀ s t, P s t → Same Q E (x s) (y t)

variable {P : σ → τ → Prop} {x : Fallible ε σ α} {y : Fallible ε τ α} {Q Q' : α → σ → τ → Prop}
  {E E' : ε → σ → τ → Prop} {R : β → σ → τ → Prop} {s : σ} {t : τ}

theorem Same.imp {o : Except ε α × σ} {o' : Except ε α × τ} (h : Same Q E o o')
    (hQ : ∀ a s t, Q a s t → Q' a s t) (hE : ∀ e s t, E e s t → E' e s t) : Same Q' E' o o' := by
  refine ⟨h.1, ?_⟩
  have hrel := h.2
  cases hres : o.1 with
  | ok a =>
    rw [hres] at hrel
    exact hQ a _ _ hrel
  | error e =>
    rw [hres] at hrel
    exact hE e _ _ hrel

/-- Where one outcome is known, so is the other. -/
theorem Same.exists {res : Except ε α} {s : σ} {o : Except ε α × σ} {o' : Except ε α × τ}
    (h : Same Q E o o') (ho : o = (res, s)) : ∃ t, o' = (res, t) ∧ Related Q E res s t := by
  subst ho
  exact ⟨o'.2, Prod.ext h.1 rfl, h.2⟩

/-- One after the other, side by side. -/
theorem Same.bind {f : α → Fallible ε σ β} {g : α → Fallible ε τ β}
    (h : Same (fun a s' t' => Same R E (f a s') (g a t')) E (x s) (y t)) :
    Same R E ((x >>= f) s) ((y >>= g) t) := by
  rcases hx : x s with ⟨res, s'⟩
  obtain ⟨t', hy, hrel⟩ := h.exists hx
  cases res with
  | ok a =>
    rw [bind_of_ok hx, bind_of_ok hy]
    exact hrel
  | error e =>
    rw [bind_of_error hx, bind_of_error hy]
    exact ⟨rfl, hrel⟩

namespace Alike

theorem bind {f : α → Fallible ε σ β} {g : α → Fallible ε τ β} (hx : Alike P x y Q E)
    (hf : ∀ a, Alike (Q a) (f a) (g a) R E) : Alike P (x >>= f) (y >>= g) R E := by
  intro s t h
  exact Same.bind ((hx s t h).imp (fun a s' t' h' => hf a s' t' h') fun _ _ _ h' => h')

theorem imp {P' : σ → τ → Prop} (hx : Alike P x y Q E) (hP : ∀ s t, P' s t → P s t)
    (hQ : ∀ a s t, Q a s t → Q' a s t) : Alike P' x y Q' E :=
  fun s t h => (hx s t (hP s t h)).imp hQ fun _ _ _ h' => h'

theorem pure {a : α} (h : ∀ s t, P s t → Q a s t) :
    Alike P (Pure.pure a : Fallible ε σ α) (Pure.pure a : Fallible ε τ α) Q E :=
  fun s t hst => ⟨rfl, h s t hst⟩

theorem fail {e : ε} (h : ∀ s t, P s t → E e s t) :
    Alike P (fail e : Fallible ε σ α) (Fallible.fail e : Fallible ε τ α) Q E :=
  fun s t hst => ⟨rfl, h s t hst⟩

theorem modify {f : σ → σ} {g : τ → τ} {Q : Unit → σ → τ → Prop}
    (h : ∀ s t, P s t → Q () (f s) (g t)) :
    Alike P (modify f : Fallible ε σ Unit) (Fallible.modify g : Fallible ε τ Unit) Q E :=
  fun s t hst => ⟨rfl, h s t hst⟩

theorem failIf {p : Bool} {e : ε} (h : ∀ s t, P s t → E e s t) :
    Alike P (failIf p e : Fallible ε σ Unit) (Fallible.failIf p e : Fallible ε τ Unit)
      (fun _ => P) E := by
  intro s t hst
  rw [failIf_apply, failIf_apply]
  cases p with
  | true => exact ⟨rfl, h s t hst⟩
  | false => exact ⟨rfl, hst⟩

end Alike

end Fallible

end Omdrop
