import Omdrop.Radio.WindowStages

namespace Omdrop.Radio.Window

/-!
# A stop is final

Once a `stop` has looked for `start`s, and no further one is given, what it leaves behind stays:
no `start`, no supervisor, none of the files of a window, and the radio down (`stop_final`).  It
does not matter where the `start`s were, what other `stop`s do, or who is killed, as long as the
processes it signals end while it waits.
-/

variable {s s' : State}

/-- No `start` is there. -/
def NoStart (s : State) : Prop := ∀ i, ¬ (s.starts i).isAlive

/-- What holds while a `stop` is at a place. -/
def Stop.Holds (s : State) : Stop → Prop
  | .idle | .lookStarts => True
  | .cancel _ snap | .waitStarts snap => ∀ i, (s.starts i).isAlive → i ∈ snap
  | .lookSups => NoStart s
  | .term _ snap | .waitSups snap | .kill _ snap | .waitKilled snap =>
    NoStart s ∧ ∀ j, (s.sups j).Live → j ∈ snap
  | .children | .dropUntil => NoStart s ∧ NoSup s
  | .dropRecord => NoStart s ∧ NoSup s ∧ s.deadline = none
  | .dropToken => NoStart s ∧ NoSup s ∧ s.deadline = none ∧ s.supervisor = none
  | .down => NoStart s ∧ NoSup s ∧ s.deadline = none ∧ s.supervisor = none ∧ s.token = none
  | .reason | .done =>
    NoStart s ∧ NoSup s ∧ s.deadline = none ∧ s.supervisor = none ∧ s.token = none ∧
      lastHook s.history = some .down

/-- No `start` comes back; without one no supervisor does; and without either no file does, and
    the radio stays down. -/
structure Fades (s s' : State) : Prop where
  starts : ∀ i, (s'.starts i).isAlive → (s.starts i).isAlive
  sups : NoStart s → ∀ j, (s'.sups j).Live → (s.sups j).Live
  deadline : NoStart s → NoSup s → s.deadline = none → s'.deadline = none
  supervisor : NoStart s → NoSup s → s.supervisor = none → s'.supervisor = none
  token : NoStart s → NoSup s → s.token = none → s'.token = none
  down : NoStart s → NoSup s → lastHook s.history = some .down → lastHook s'.history = some .down

namespace Fades

/-- A state fades into itself. -/
theorem refl (s : State) : Fades s s where
  starts _ := id
  sups _ _ := id
  deadline _ _ := id
  supervisor _ _ := id
  token _ _ := id
  down _ _ := id

/-- Where no start is under way, none comes. -/
theorem noStart (h : Fades s s') (hno : NoStart s) : NoStart s' := fun i hi => hno i (h.starts i hi)

/-- Where no supervisor is alive and no start is under way, none comes. -/
theorem noSup (h : Fades s s') (hstart : NoStart s) (hno : NoSup s) : NoSup s' :=
  fun j hj => hno j (h.sups hstart j hj)

/-- What holds while a `stop` is at a place still holds. -/
theorem holds (h : Fades s s') {p : Stop} (hp : p.Holds s) : p.Holds s' := by
  cases p with
  | idle | lookStarts => trivial
  | cancel | waitStarts => exact fun i hi => hp i (h.starts i hi)
  | lookSups => exact h.noStart hp
  | term | waitSups | kill | waitKilled =>
    exact ⟨h.noStart hp.1, fun j hj => hp.2 j (h.sups hp.1 j hj)⟩
  | children | dropUntil => exact ⟨h.noStart hp.1, h.noSup hp.1 hp.2⟩
  | dropRecord =>
    obtain ⟨hstart, hno, hdead⟩ := hp
    exact ⟨h.noStart hstart, h.noSup hstart hno, h.deadline hstart hno hdead⟩
  | dropToken =>
    obtain ⟨hstart, hno, hdead, hrec⟩ := hp
    exact ⟨h.noStart hstart, h.noSup hstart hno, h.deadline hstart hno hdead,
      h.supervisor hstart hno hrec⟩
  | down =>
    obtain ⟨hstart, hno, hdead, hrec, htoken⟩ := hp
    exact ⟨h.noStart hstart, h.noSup hstart hno, h.deadline hstart hno hdead,
      h.supervisor hstart hno hrec, h.token hstart hno htoken⟩
  | reason | done =>
    obtain ⟨hstart, hno, hdead, hrec, htoken, hdown⟩ := hp
    exact ⟨h.noStart hstart, h.noSup hstart hno, h.deadline hstart hno hdead,
      h.supervisor hstart hno hrec, h.token hstart hno htoken, h.down hstart hno hdown⟩

/-- No process is touched but supervisors that end, and no file but to remove it. -/
theorem of_eq (hstarts : ∀ i, (s'.starts i).isAlive → (s.starts i).isAlive)
    (hsups : ∀ j, (s'.sups j).Live → (s.sups j).Live)
    (hdead : s'.deadline = s.deadline ∨ s'.deadline = none)
    (hrec : s'.supervisor = s.supervisor ∨ s'.supervisor = none)
    (htoken : s'.token = s.token ∨ s'.token = none)
    (hdown : s'.history = s.history ∨ lastHook s'.history = some .down) : Fades s s' where
  starts := hstarts
  sups _ := hsups
  deadline _ _ h := hdead.elim (fun heq => heq.trans h) id
  supervisor _ _ h := hrec.elim (fun heq => heq.trans h) id
  token _ _ h := htoken.elim (fun heq => heq.trans h) id
  down _ _ h := hdown.elim (fun heq => heq ▸ h) id

/-- A start's step brings nothing back that was gone. -/
theorem start (s : State) (i : Nat) (x : Input) : Fades s (startStep i x s) where
  starts i' hi' := by
    rcases startStep_cases i x s with hkeeps | ⟨hi, token, heq⟩
    · by_contra hno
      rw [hkeeps.starts i' hno] at hi'
      exact hno hi'
    · by_cases hne : i' = i
      · rwa [hne]
      · rw [heq] at hi'
        change (Function.update s.starts i _ i').isAlive at hi'
        rwa [Function.update_of_ne hne] at hi'
  sups hno := by
    rw [startStep_of_dead (hno i)]
    exact fun _ => id
  deadline hno _ := by
    rw [startStep_of_dead (hno i)]
    exact id
  supervisor hno _ := by
    rw [startStep_of_dead (hno i)]
    exact id
  token hno _ := by
    rw [startStep_of_dead (hno i)]
    exact id
  down hno _ := by
    rw [startStep_of_dead (hno i)]
    exact id

/-- The end of a supervisor brings nothing back that was gone. -/
theorem supDone (s : State) (j : Nat) : Fades s (s.supDone j) := by
  refine of_eq (fun _ => id) (fun j' hj' => ?_) (.inl rfl) (.inl rfl) (.inl rfl) (.inl rfl)
  rw [supDone_sups] at hj'
  split at hj'
  · exact hj'.elim
  · exact hj'

/-- A supervisor's step brings nothing back that was gone. -/
theorem sup (s : State) (j : Nat) (x : Input) : Fades s (supStep j x s) := by
  by_cases hj : (s.sups j).Live
  · refine ⟨?_, fun _ j' hj' => ?_, ?_, ?_, ?_, ?_⟩
    · exact fun i hi => supStep_starts j x s ▸ hi
    · by_cases hne : j' = j
      · rwa [hne]
      · rwa [supStep_sups_of_ne x s hne] at hj'
    all_goals exact fun _ hno => absurd hj (hno j)
  · -- it is not let in
    unfold supStep
    cases hp : s.sups j with
    | idle | exited => exact refl s
    | entry want =>
      cases want with
      | none => exact supDone s j
      | some token => exact absurd (by rw [hp]; trivial) hj
    | _ => exact absurd (by rw [hp]; trivial) hj

/-- The kill of a supervisor brings nothing back that was gone. -/
theorem killSup (s : State) (j : Nat) : Fades s (s.killSup j) := by
  rcases killSup_cases s j with heq | heq
  · rw [heq]
    exact refl s
  · rw [heq]
    exact supDone s j

/-- A signal to a supervisor brings nothing back that was gone. -/
theorem termSup (s : State) (j : Nat) : Fades s (s.termSup j) := by
  unfold State.termSup
  split
  · exact of_eq (fun _ => id) (fun _ => id) (.inl rfl) (.inl rfl) (.inl rfl) (.inl rfl)
  · exact killSup s j

/-- The kill of a start brings nothing back that was gone. -/
theorem killStart (s : State) (i : Nat) : Fades s (s.killStart i) := by
  unfold State.killStart
  split
  · next hi =>
    refine of_eq (fun i' hi' => ?_) (fun _ => id) (.inl rfl) (.inl rfl) (.inl rfl) (.inl rfl)
    by_cases hne : i' = i
    · rwa [hne]
    · change (Function.update s.starts i _ i').isAlive at hi'
      rwa [Function.update_of_ne hne] at hi'
  · exact refl s

/-- A signal to a start brings nothing back that was gone. -/
theorem termStart (s : State) (i : Nat) : Fades s (s.termStart i) := by
  unfold State.termStart
  split
  · exact of_eq (fun _ => id) (fun _ => id) (.inl rfl) (.inl rfl) (.inl rfl) (.inl rfl)
  · exact killStart s i

/-- Where a stop stands does not matter to the rest. -/
theorem stopAt (h : Fades s s') (k : Nat) (p : Stop) : Fades s (s'.stopAt k p) :=
  ⟨h.starts, h.sups, h.deadline, h.supervisor, h.token, h.down⟩

/-- A stop's step brings nothing back either. -/
theorem stop (s : State) (k : Nat) (x : Input) : Fades s (stopStep k x s) := by
  unfold stopStep
  cases s.stops k with dsimp only
  | idle | done => exact refl s
  | cancel todo =>
    cases todo with
    | nil => exact (refl s).stopAt k _
    | cons i => exact (termStart s i).stopAt k _
  | term todo =>
    cases todo with
    | nil => exact (refl s).stopAt k _
    | cons j => exact (termSup s j).stopAt k _
  | kill todo =>
    cases todo with
    | nil => exact (refl s).stopAt k _
    | cons j => exact (killSup s j).stopAt k _
  | waitStarts | waitKilled =>
    split
    · exact (refl s).stopAt k _
    · exact refl s
  | waitSups =>
    repeat' split
    · exact (refl s).stopAt k _
    · exact (refl s).stopAt k _
    · exact refl s
  | dropUntil =>
    exact of_eq (fun _ => id) (fun _ => id) (.inr rfl) (.inl rfl) (.inl rfl) (.inl rfl)
  | dropRecord =>
    exact of_eq (fun _ => id) (fun _ => id) (.inl rfl) (.inr rfl) (.inl rfl) (.inl rfl)
  | dropToken =>
    exact of_eq (fun _ => id) (fun _ => id) (.inl rfl) (.inl rfl) (.inr rfl) (.inl rfl)
  | down => exact of_eq (fun _ => id) (fun _ => id) (.inl rfl) (.inl rfl) (.inl rfl) (.inr rfl)
  | lookStarts | lookSups | children | reason => exact (refl s).stopAt k _

end Fades

/-- A stop that moved holds what its new point says. -/
theorem holds_of_stops {k : Nat} {p : Stop} (hstops : s'.stops = Function.update s.stops k p)
    (h : p.Holds s') : (s'.stops k).Holds s' := by
  rw [hstops, Function.update_self]
  exact h

/-- What a point says of the state stays true when only the stop moves. -/
theorem stopAt_holds {p : Stop} (h : p.Holds s) (k : Nat) :
    ((s.stopAt k p).stops k).Holds (s.stopAt k p) :=
  holds_of_stops rfl (((Fades.refl s).stopAt k p).holds h)

/-- A start that runs is among those that a stop lists. -/
private theorem mem_liveStarts (hfresh : Fresh s) {i : Nat} (hi : (s.starts i).isAlive) :
    i ∈ liveStarts s := by
  refine List.mem_filter.mpr ⟨List.mem_range.mpr ?_, hi⟩
  by_contra hlt
  rw [hfresh.starts i (not_lt.mp hlt)] at hi
  cases hi

/-- A supervisor that runs is among those that a stop lists. -/
private theorem mem_liveSups (hfresh : Fresh s) {j : Nat} (hj : (s.sups j).Live) :
    j ∈ liveSups s := by
  refine List.mem_filter.mpr ⟨List.mem_range.mpr ?_, hj.isAlive⟩
  by_contra hlt
  rw [hfresh.sups j (not_lt.mp hlt)] at hj
  exact hj

/-- A `stop` that waits long enough keeps what holds of it. -/
theorem Stop.Holds.step (hfresh : Fresh s) {k : Nat} {x : Input} (hx : x.tooLong = false)
    (h : (s.stops k).Holds s) : ((stopStep k x s).stops k).Holds (stopStep k x s) := by
  -- when all that it found are gone, there is none
  have hnone : ∀ {snap : List Nat}, (∀ j, (s.sups j).Live → j ∈ snap) →
      snap.all (fun j => ¬ (s.sups j).isAlive) → NoSup s := by
    intro snap hsnap hall j hj
    simpa [hj.isAlive] using List.all_eq_true.mp hall j (hsnap j hj)
  unfold stopStep
  obtain ⟨p, hp⟩ : ∃ p, s.stops k = p := ⟨_, rfl⟩
  rw [hp] at h ⊢
  cases p with dsimp only
  | idle | done => rwa [hp]
  | lookStarts => exact stopAt_holds (p := .cancel _ _) (fun i hi => mem_liveStarts hfresh hi) k
  | cancel todo snap =>
    cases todo with
    | nil => exact stopAt_holds (p := .waitStarts snap) h k
    | cons i todo =>
      exact stopAt_holds ((Fades.termStart s i).holds (p := .cancel todo snap) h) k
  | waitStarts snap =>
    rw [hx]
    split
    · next hall =>
      refine stopAt_holds (p := .lookSups) (fun i hi => ?_) k
      have hall := hall.resolve_right Bool.false_ne_true
      simpa [hi] using List.all_eq_true.mp hall i (h i hi)
    · rwa [hp]
  | lookSups =>
    exact stopAt_holds (p := .term _ _) ⟨h, fun j hj => mem_liveSups hfresh hj⟩ k
  | term todo snap =>
    cases todo with
    | nil => exact stopAt_holds (p := .waitSups snap) h k
    | cons j todo => exact stopAt_holds ((Fades.termSup s j).holds (p := .term todo snap) h) k
  | waitSups snap =>
    rw [hx]
    split
    · next hall => exact stopAt_holds (p := .children) ⟨h.1, hnone h.2 hall⟩ k
    · rwa [if_neg Bool.false_ne_true, hp]
  | kill todo snap =>
    cases todo with
    | nil => exact stopAt_holds (p := .waitKilled snap) h k
    | cons j todo => exact stopAt_holds ((Fades.killSup s j).holds (p := .kill todo snap) h) k
  | waitKilled snap =>
    rw [hx]
    split
    · next hall =>
      have hall := hall.resolve_right Bool.false_ne_true
      exact stopAt_holds (p := .children) ⟨h.1, hnone h.2 hall⟩ k
    · rwa [hp]
  | children => exact stopAt_holds (p := .dropUntil) h k
  | dropUntil => exact holds_of_stops (p := .dropRecord) rfl ⟨h.1, h.2, rfl⟩
  | dropRecord => exact holds_of_stops (p := .dropToken) rfl ⟨h.1, h.2.1, h.2.2, rfl⟩
  | dropToken => exact holds_of_stops (p := .down) rfl ⟨h.1, h.2.1, h.2.2.1, h.2.2.2, rfl⟩
  | down =>
    exact holds_of_stops (p := .reason) rfl
      ⟨h.1, h.2.1, h.2.2.1, h.2.2.2.1, h.2.2.2.2, rfl⟩
  | reason => exact stopAt_holds (p := .done) h k

/-- No further `start` is given, and this `stop` waits long enough. -/
def Action.Fades (k : Nat) : Action → Prop
  | .newStart _ => False
  | .stop k' x => k' = k → x.tooLong = false
  | _ => True

/-- A start's step leaves the stops alone. -/
private theorem startStep_stops (i : Nat) (x : Input) : (startStep i x s).stops = s.stops := by
  unfold startStep
  repeat' split
  all_goals first
    | rfl
    | exact killSup_stops s _

/-- A supervisor's step leaves the stops alone. -/
private theorem supStep_stops (j : Nat) (x : Input) : (supStep j x s).stops = s.stops := by
  unfold supStep
  repeat' split
  all_goals rfl

/-- A stop's step leaves the other stops alone. -/
private theorem stopStep_stops_of_ne {k k' : Nat} (x : Input) (h : k' ≠ k) :
    (stopStep k x s).stops k' = s.stops k' := by
  have hat : ∀ {s' : State} {p : Stop}, s'.stops = s.stops →
      (s'.stopAt k p).stops k' = s.stops k' := by
    intro s' p heq
    exact (Function.update_of_ne h _ _).trans (congrFun heq k')
  unfold stopStep
  repeat' split
  all_goals first
    | rfl
    | exact hat rfl
    | exact hat (termStart_stops s _)
    | exact hat (termSup_stops s _)
    | exact hat (killSup_stops s _)

/-- What holds of a `stop` still holds when another process makes a step. -/
theorem Fades.holds_stop (h : Fades s s') {k : Nat} (hstops : s'.stops k = s.stops k)
    (hp : (s.stops k).Holds s) : (s'.stops k).Holds s' := by
  rw [hstops]
  exact h.holds hp

/-- A stop's point says what holds after any step but a new start. -/
private theorem holds_step (hfresh : Fresh s) {k : Nat} {a : Action} (ha : a.Fades k)
    (h : (s.stops k).Holds s) : ((step s a).stops k).Holds (step s a) := by
  cases a with
  | newStart => exact ha.elim
  | wait =>
    have hfades : Fades s (step s .wait) :=
      .of_eq (fun _ => id) (fun _ => id) (.inl rfl) (.inl rfl) (.inl rfl) (.inl rfl)
    exact hfades.holds_stop rfl h
  | newSup =>
    have hfades : Fades s (step s .newSup) := by
      refine .of_eq (fun _ => id) (fun j hj => ?_) (.inl rfl) (.inl rfl) (.inl rfl) (.inl rfl)
      by_cases hne : j = s.spawned
      · simp [step, State.supAt, hne, Sup.Live, Sup.stage, Sup.Stage.Live] at hj
      · change (Function.update s.sups s.spawned _ j).Live at hj
        rwa [Function.update_of_ne hne] at hj
    exact hfades.holds_stop rfl h
  | newStop =>
    by_cases hk : k = s.stopped
    · exact holds_of_stops (p := .lookStarts) (by rw [hk]; rfl) trivial
    · have hfades := (Fades.refl s).stopAt s.stopped .lookStarts
      exact hfades.holds_stop (Function.update_of_ne hk _ _) h
  | start i x => exact (Fades.start s i x).holds_stop (congrFun (startStep_stops i x) k) h
  | sup j x => exact (Fades.sup s j x).holds_stop (congrFun (supStep_stops j x) k) h
  | stop k' x =>
    by_cases hk : k = k'
    · subst hk
      exact h.step hfresh (ha rfl)
    · exact (Fades.stop s k' x).holds_stop (stopStep_stops_of_ne x hk) h
  | killStart i => exact (Fades.killStart s i).holds_stop (congrFun (killStart_stops s i) k) h
  | killSup j => exact (Fades.killSup s j).holds_stop (congrFun (killSup_stops s j) k) h

/-- A stop's point says what holds after any run without a new start. -/
private theorem holds_run {as : List Action} {k : Nat} (hfresh : Fresh s)
    (has : ∀ a ∈ as, a.Fades k)
    (h : (s.stops k).Holds s) : ((run s as).stops k).Holds (run s as) := by
  induction as generalizing s with
  | nil => exact h
  | cons a as ih =>
    refine ih (hfresh.step a) (fun b hb => has b (List.mem_cons_of_mem _ hb)) ?_
    exact holds_step hfresh (has a List.mem_cons_self) h

/-- **A stop is final.**  When a `stop` has looked for `start`s, no further one is given and the
    processes it signals end while it waits, then from the moment it is done, in whatever order
    the processes take their steps: no `start` is there, no supervisor is let in or about to be,
    the deadline, the record and the token are gone, and the last hook that was called is down. -/
theorem stop_final {as bs : List Action} {k : Nat} (hlook : (run init as).stops k = .lookStarts)
    (hbs : ∀ b ∈ bs, b.Fades k) (hdone : (run init (as ++ bs)).stops k = .done) :
    NoStart (run init (as ++ bs)) ∧ NoSup (run init (as ++ bs)) ∧
      (run init (as ++ bs)).deadline = none ∧ (run init (as ++ bs)).supervisor = none ∧
      (run init (as ++ bs)).token = none ∧ lastHook (run init (as ++ bs)).history = some .down := by
  rw [run_append] at hdone ⊢
  have hholds := holds_run (Fresh.init.run as) hbs (by rw [hlook]; trivial)
  rwa [hdone] at hholds

/-- A `start` makes its supervisor and reports its window open when a `stop` has terminated it. -/
theorem stop_final_opened :
    let x : Input := ⟨false, false, false, true, true, .exited 0⟩
    let as := .newStart 0 :: List.replicate 15 (.start 0 x) ++ [.newStop]
    let bs := List.replicate 3 (.stop 0 x) ++ List.replicate 3 (.sup 0 x) ++ .start 0 x ::
      List.replicate 5 (.stop 0 x) ++ List.replicate 6 (.sup 0 x) ++ List.replicate 9 (.stop 0 x)
    .opened ∈ (run init (as ++ bs)).history ∧ NoSup (run init (as ++ bs)) ∧
      (run init (as ++ bs)).deadline = none := by
  intro x as bs
  have hbs : ∀ b ∈ bs, b.Fades 0 := by simp [bs, x, Action.Fades]
  have hlook : (run init as).stops 0 = .lookStarts := by decide
  have hdone : (run init (as ++ bs)).stops 0 = .done := by decide
  have hfinal := stop_final hlook hbs hdone
  exact ⟨by decide, hfinal.2.1, hfinal.2.2.1⟩

end Omdrop.Radio.Window
