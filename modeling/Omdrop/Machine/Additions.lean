import Mathlib.Data.List.Perm.Basic
import Mathlib.Logic.Function.Basic

namespace Omdrop

/-!
# Additions to a store

A store is a partial map from keys to values.  `Additions p f ks g` says that `g` is `f` with
exactly the keys `ks` added, under values that satisfy `p`: nothing that was there has changed,
and nothing else has come.  Whoever keeps it while keys come, move and go can read off at the
end that every key was taken back (`Additions.eq`), or which ones were left.
-/

variable {K V : Type}

/-- `g` is `f` with exactly the keys `ks` added. -/
structure Additions (p : V → Prop) (f : K → Option V) (ks : List K) (g : K → Option V) :
    Prop where
  nodup : ks.Nodup
  absent : ∀ k ∈ ks, f k = none
  added : ∀ k ∈ ks, ∃ v, g k = some v ∧ p v
  same : ∀ k, k ∉ ks → g k = f k

namespace Additions

variable {p : V → Prop} {f g : K → Option V} {k k' : K} {ks ks' : List K} {v : V}

/-- Nothing is added. -/
theorem refl (p : V → Prop) (f : K → Option V) : Additions p f [] f :=
  ⟨List.nodup_nil, by simp, by simp, fun _ _ => rfl⟩

/-- **All taken back.**  A store with nothing added is the old one. -/
theorem eq (h : Additions p f [] g) : g = f := by
  funext k
  exact h.same k List.not_mem_nil

/-- The order in which keys were added does not matter. -/
theorem perm (h : Additions p f ks g) (hks : ks.Perm ks') : Additions p f ks' g where
  nodup := hks.nodup_iff.mp h.nodup
  absent k hk := h.absent k (hks.mem_iff.mpr hk)
  added k hk := h.added k (hks.mem_iff.mpr hk)
  same k hk := h.same k (mt hks.mem_iff.mp hk)

/-- A key that is free is not among the added ones. -/
theorem not_mem (h : Additions p f ks g) (hk : g k = none) : k ∉ ks := by
  intro hmem
  obtain ⟨v, hv, _⟩ := h.added k hmem
  rw [hk] at hv
  cases hv

/-- A key that is free was free before. -/
theorem absent_of_free (h : Additions p f ks g) (hk : g k = none) : f k = none := by
  rw [← h.same k (h.not_mem hk)]
  exact hk

variable [DecidableEq K]

/-- Another free key comes. -/
theorem add (h : Additions p f ks g) (hk : g k = none) (hv : p v) :
    Additions p f (k :: ks) (Function.update g k (some v)) where
  nodup := List.nodup_cons.mpr ⟨h.not_mem hk, h.nodup⟩
  absent := List.forall_mem_cons.mpr ⟨h.absent_of_free hk, h.absent⟩
  added := by
    intro x hx
    by_cases hxk : x = k
    · exact ⟨v, by rw [hxk, Function.update_self], hv⟩
    · rw [Function.update_of_ne hxk]
      exact h.added x (List.mem_of_ne_of_mem hxk hx)
  same := by
    intro x hx
    rw [List.mem_cons, not_or] at hx
    rw [Function.update_of_ne hx.1]
    exact h.same x hx.2

/-- An added key gets another value. -/
theorem set (h : Additions p f ks g) (hk : k ∈ ks) (hv : p v) :
    Additions p f ks (Function.update g k (some v)) where
  nodup := h.nodup
  absent := h.absent
  added := by
    intro x hx
    by_cases hxk : x = k
    · exact ⟨v, by rw [hxk, Function.update_self], hv⟩
    · rw [Function.update_of_ne hxk]
      exact h.added x hx
  same := by
    intro x hx
    have hxk : x ≠ k := fun hxk => hx (hxk ▸ hk)
    rw [Function.update_of_ne hxk]
    exact h.same x hx

/-- An added key goes. -/
theorem remove (h : Additions p f (k :: ks) g) :
    Additions p f ks (Function.update g k none) where
  nodup := h.nodup.of_cons
  absent x hx := h.absent x (List.mem_cons_of_mem k hx)
  added := by
    intro x hx
    have hxk : x ≠ k := fun hxk => (List.nodup_cons.mp h.nodup).1 (hxk ▸ hx)
    rw [Function.update_of_ne hxk]
    exact h.added x (List.mem_cons_of_mem k hx)
  same := by
    intro x hx
    by_cases hxk : x = k
    · rw [hxk, Function.update_self, h.absent k List.mem_cons_self]
    · rw [Function.update_of_ne hxk]
      exact h.same x (List.not_mem_cons_of_ne_of_not_mem hxk hx)

/-- An added key's value moves to a free key. -/
theorem move (h : Additions p f (k :: ks) g) (hk' : g k' = none) :
    Additions p f (k' :: ks) (Function.update (Function.update g k none) k' (g k)) := by
  obtain ⟨v, hv, hp⟩ := h.added k List.mem_cons_self
  have hne : k' ≠ k := by
    intro hkk
    rw [hkk, hv] at hk'
    cases hk'
  rw [hv]
  apply h.remove.add _ hp
  rw [Function.update_of_ne hne]
  exact hk'

end Additions

end Omdrop
