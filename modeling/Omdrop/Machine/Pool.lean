import Omdrop.Machine.Run

namespace Omdrop

/-!
# Pools of processes

Processes that share a state, each with its own place in its program.  A run starts processes,
lets any of them make its next step, and lets the outside change the shared state, in any order.
Every process keeps the list of the events of its own steps.

`Pool.Invariant I J` is the rely-guarantee rule: when every step keeps `I` of the shared state and
`J` of the process that makes it, and disturbs `J` of no other process, then they hold in every
run (`Pool.Invariant.run`).
-/

/-- Processes `π` over a shared state `σ`: how a command `κ` starts, what a step does with the
    input `ι` it gets and which events `ω` it has, and what the outside does in `ε`. -/
structure Pool (σ π κ ι ε ω : Type) where
  start : κ → π
  advance : ι → π → σ → π × List ω × σ
  outside : ε → σ → σ

/-- What can happen next. -/
inductive Pool.Action (κ ι ε : Type)
  | start (command : κ)
  | advance (k : Nat) (input : ι)
  | outside (e : ε)

/-- The shared state, and the processes with their events so far. -/
structure Pool.State (σ π ω : Type) where
  shared : σ
  procs : List (π × List ω)

namespace Pool

variable {σ π κ ι ε ω : Type} (P : Pool σ π κ ι ε ω)

/-- One step; its answer is the events of it. -/
def step (s : State σ π ω) : Action κ ι ε → State σ π ω × List ω
  | .start command   => ({ s with procs := s.procs ++ [(P.start command, [])] }, [])
  | .outside e       => ({ s with shared := P.outside e s.shared }, [])
  | .advance k input =>
    match s.procs[k]? with
    | none           => (s, [])
    | some (p, past) =>
      let (p', events, shared) := P.advance input p s.shared
      ({ shared, procs := s.procs.set k (p', past ++ events) }, events)

/-- The pool as a machine. -/
def machine : Machine (State σ π ω) (Action κ ι ε) (List ω) := ⟨P.step⟩

/-- Every step of the run that a process makes satisfies `A`. -/
def Legal (A : σ → π → ι → Prop) (s : State σ π ω) (as : List (Action κ ι ε)) : Prop :=
  ∀ pre k input post, as = pre ++ .advance k input :: post →
    ∀ p past, (P.machine.run s pre).procs[k]? = some (p, past) →
      A (P.machine.run s pre).shared p input

/-- A shared state and processes that `I` and `J` hold of. -/
def Holds (I : σ → Prop) (J : σ → π → List ω → Prop) (s : State σ π ω) : Prop :=
  I s.shared ∧ ∀ p past, (p, past) ∈ s.procs → J s.shared p past

/-- **Rely and guarantee.**  What steps that satisfy `A` do to `I` and `J`. -/
structure Invariant (A : σ → π → ι → Prop) (I : σ → Prop) (J : σ → π → List ω → Prop) :
    Prop where
  start : ∀ s command, I s → J s (P.start command) []
  outside : ∀ s e, I s → I (P.outside e s)
  outside_other : ∀ s e p past, I s → J s p past → J (P.outside e s) p past
  shared : ∀ s p past input, A s p input → I s → J s p past → I (P.advance input p s).2.2
  own : ∀ s p past input, A s p input → I s → J s p past →
    J (P.advance input p s).2.2 (P.advance input p s).1 (past ++ (P.advance input p s).2.1)
  other : ∀ s p past input, A s p input → I s → J s p past →
    ∀ q past', J s q past' → J (P.advance input p s).2.2 q past'

variable {P} {A : σ → π → ι → Prop} {I : σ → Prop} {J : σ → π → List ω → Prop}
variable {s : State σ π ω} {as : List (Action κ ι ε)}

theorem Invariant.step (h : P.Invariant A I J) (hs : Holds I J s) (a : Action κ ι ε)
    (ha : ∀ k input, a = .advance k input →
      ∀ p past, s.procs[k]? = some (p, past) → A s.shared p input) :
    Holds I J (P.step s a).1 := by
  obtain ⟨hI, hJ⟩ := hs
  cases a with
  | start command =>
    refine ⟨hI, fun p past hp => ?_⟩
    rcases List.mem_append.mp hp with hp | hp
    · exact hJ p past hp
    · obtain ⟨rfl, rfl⟩ : p = P.start command ∧ past = [] := by simpa using hp
      exact h.start _ _ hI
  | outside e => exact ⟨h.outside _ _ hI, fun p past hp => h.outside_other _ _ _ _ hI (hJ p past hp)⟩
  | advance k input =>
    rcases hk : s.procs[k]? with _ | ⟨p, past⟩
    · simp only [Pool.step, hk]
      exact ⟨hI, hJ⟩
    · have hA := ha k input rfl p past hk
      have hp := hJ p past (List.mem_of_getElem? hk)
      simp only [Pool.step, hk]
      refine ⟨h.shared _ _ _ _ hA hI hp, fun q past' hq => ?_⟩
      -- the process that made the step, or another one
      rcases List.mem_or_eq_of_mem_set hq with hq | hq
      · exact h.other _ _ _ _ hA hI hp _ _ (hJ q past' hq)
      · obtain ⟨rfl, rfl⟩ := Prod.mk.inj hq
        exact h.own _ _ _ _ hA hI hp

theorem Legal.nil : P.Legal A s [] := by
  intro pre k input post h
  simp at h

/-- A run is legal when every step is. -/
theorem Legal.of_forall (h : ∀ s p input, A s p input) : P.Legal A s as :=
  fun _ _ _ _ _ _ _ _ => h _ _ _

/-- A run is legal when every input of it makes a step legal, wherever it is made. -/
theorem Legal.of_inputs (h : ∀ k input, .advance k input ∈ as → ∀ s p, A s p input) :
    P.Legal A s as := by
  intro pre k input post has p past _
  exact h k input (by simp [has]) _ p

/-- The first steps of a legal run are one. -/
theorem Legal.of_append {bs : List (Action κ ι ε)} (h : P.Legal A s (as ++ bs)) :
    P.Legal A s as := by
  intro pre k input post has
  exact h pre k input (post ++ bs) (by simp [has])

/-- So are the later ones, from where the first ones got to. -/
theorem Legal.append_right {bs : List (Action κ ι ε)} (h : P.Legal A s (as ++ bs)) :
    P.Legal A (P.machine.run s as) bs := by
  intro pre k input post hbs p past hp
  rw [← Machine.run_append] at hp ⊢
  exact h (as ++ pre) k input post (by simp [hbs]) p past hp

theorem Legal.tail {a : Action κ ι ε} (h : P.Legal A s (a :: as)) :
    P.Legal A (P.step s a).1 as := by
  intro pre k input post has
  exact h (a :: pre) k input post (by simp [has])

theorem Legal.head {a : Action κ ι ε} (h : P.Legal A s (a :: as)) (k : Nat) (input : ι)
    (ha : a = .advance k input) (p : π) (past : List ω) (hk : s.procs[k]? = some (p, past)) :
    A s.shared p input :=
  h [] k input as (by simp [ha]) p past hk

theorem Legal.cons {a : Action κ ι ε} (hhead : ∀ k input, a = .advance k input →
    ∀ p past, s.procs[k]? = some (p, past) → A s.shared p input)
    (htail : P.Legal A (P.step s a).1 as) : P.Legal A s (a :: as) := by
  intro pre k input post has p past hp
  cases pre with
  | nil =>
    obtain ⟨rfl, rfl⟩ := List.cons.inj has
    exact hhead k input rfl p past hp
  | cons b pre =>
    obtain ⟨rfl, hrest⟩ := List.cons.inj has
    exact htail pre k input post hrest p past hp

/-- A process that `T` holds of keeps its place, and `T` holds of it after a step when its own steps
    keep `T`. -/
private theorem step_own {T : π → Prop} (h : ∀ input p s, T p → T (P.advance input p s).1) {k : Nat}
    (hs : ∃ p past, s.procs[k]? = some (p, past) ∧ T p) (a : Action κ ι ε) :
    ∃ p past, (P.step s a).1.procs[k]? = some (p, past) ∧ T p := by
  obtain ⟨p, past, hk, hp⟩ := hs
  have hlt : k < s.procs.length := (List.getElem?_eq_some_iff.mp hk).1
  cases a with
  | start command =>
    refine ⟨p, past, ?_, hp⟩
    show (s.procs ++ _)[k]? = _
    rw [List.getElem?_append_left hlt, hk]
  | outside e => exact ⟨p, past, hk, hp⟩
  | advance j input =>
    rcases hj : s.procs[j]? with _ | ⟨q, past'⟩
    · simp only [Pool.step, hj]
      exact ⟨p, past, hk, hp⟩
    · simp only [Pool.step, hj]
      by_cases hjk : j = k
      · subst hjk
        obtain ⟨rfl, rfl⟩ := Prod.mk.inj (Option.some.inj (hj.symm.trans hk))
        refine ⟨_, _, List.getElem?_set_self hlt, h input _ _ hp⟩
      · refine ⟨p, past, ?_, hp⟩
        rw [List.getElem?_set_ne hjk, hk]

theorem run_own {T : π → Prop} (h : ∀ input p s, T p → T (P.advance input p s).1) {k : Nat}
    (hs : ∃ p past, s.procs[k]? = some (p, past) ∧ T p) (as : List (Action κ ι ε)) :
    ∃ p past, (P.machine.run s as).procs[k]? = some (p, past) ∧ T p := by
  induction as generalizing s with
  | nil => exact hs
  | cons a as ih => exact ih (step_own h hs a)

/-- **Invariants of pools.**  What the rule allows holds after every legal run. -/
theorem Invariant.run (h : P.Invariant A I J) (hs : Holds I J s) (has : P.Legal A s as) :
    Holds I J (P.machine.run s as) := by
  induction as generalizing s with
  | nil => exact hs
  | cons a as ih => exact ih (h.step hs a has.head) has.tail

/-- An invariant of the shared state alone. -/
theorem Invariant.of_shared
    (hadvance : ∀ s p input, A s p input → I s → I (P.advance input p s).2.2)
    (houtside : ∀ s e, I s → I (P.outside e s)) : P.Invariant A I fun _ _ _ => True where
  start _ _ _ := trivial
  outside s e h := houtside s e h
  outside_other _ _ _ _ _ _ := trivial
  shared s p _ input hA hI _ := hadvance s p input hA hI
  own _ _ _ _ _ _ _ := trivial
  other _ _ _ _ _ _ _ _ _ _ := trivial

/-- What every step keeps of the shared state, every legal run keeps. -/
theorem run_shared (hadvance : ∀ s p input, A s p input → I s → I (P.advance input p s).2.2)
    (houtside : ∀ s e, I s → I (P.outside e s)) {s : σ} (hs : I s)
    (has : P.Legal A ⟨s, []⟩ as) : I (P.machine.run ⟨s, []⟩ as).shared :=
  ((Invariant.of_shared hadvance houtside).run ⟨hs, by simp⟩ has).1

end Pool

end Omdrop
