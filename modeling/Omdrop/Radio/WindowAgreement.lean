import Omdrop.Radio.WindowStages

namespace Omdrop.Radio.Window

/-!
# Agreement on the window

While no process is killed, no `stop` runs and `window.lock` is to be had in time, `start`s and
supervisors agree on the window (`window_agreement`): at most one supervisor is let in, none while
a `start` brings the radio up, none lets its window expire before the last deadline that was
written, and no `start` reports that it extended a window that was already closed.
-/

variable {s s' : State}

/-! ### What is done to every state -/

/-- Something is reported that is not about deadlines. -/
theorem Inv.did (h : Inv s) {a : Act}
    (hlast : lastDeadline (a :: s.history) = lastDeadline s.history)
    (hagrees : Agrees (a :: s.history)) (hclosed : ∀ j, a ≠ .closed j) : Inv (s.did a) where
  starts i := (h.starts i).mono id id (fun _ => id) (fun _ => id) (fun _ _ => id) rfl hlast
  sups j := (h.sups j).mono id rfl id rfl hlast le_rfl
  agrees := hagrees
  closed j hj := h.closed j ((List.mem_cons.mp hj).resolve_left (hclosed j).symm)
  recorded := h.recorded

@[simp] theorem did_starts (s : State) (a : Act) : (s.did a).starts = s.starts := rfl

/-- A hook that is run bears on nothing the invariant is about. -/
theorem Inv.hook (h : Inv s) (hook : Hook) : Inv (s.did (.hook hook)) :=
  h.did rfl h.agrees (by simp)

/-- A start moves on, if it still says what holds of it and leaves no child on its way in. -/
theorem Inv.startAt (h : Inv s) {i : Nat} {p : Start}
    (hchild : ∀ sup, (s.starts i).stage = .child sup → p.stage = .child sup ∨
      (s.sups sup).stage ≠ .entering) (hown : p.stage.Holds s i) : Inv (s.startAt i p) :=
  h.of_start rfl rfl rfl rfl rfl h.agrees (fun _ => id) rfl (fun _ _ => id) (fun _ _ => id) hchild
    hown

/-- A start may free its lock as it moves on. -/
theorem Inv.releaseAt (h : Inv s) {i : Nat} {p : Start}
    (hchild : ∀ sup, (s.starts i).stage = .child sup → p.stage = .child sup ∨
      (s.sups sup).stage ≠ .entering) (hown : p.stage.Holds (s.release (.start i)) i) :
    Inv ((s.release (.start i)).startAt i p) :=
  h.of_start rfl rfl rfl rfl rfl h.agrees (fun _ => id) rfl (fun _ _ => id)
    (fun _ hne => release_windowLock s hne) hchild hown

/-- A start may exit when no child of it is on its way in. -/
theorem Inv.startDone (h : Inv s) {i : Nat}
    (hchild : ∀ sup, (s.starts i).stage = .child sup → (s.sups sup).stage ≠ .entering)
    (code : Int) : Inv (s.startDone i code) := by
  refine h.of_start (p := .done code) rfl rfl rfl rfl rfl h.agrees (fun _ => id) rfl ?_
    (fun _ hne => release_windowLock s hne) (fun sup hsup => .inr (hchild sup hsup)) trivial
  intro i' hne hlock
  have hi : s.startLock ≠ some i := fun hi => hne (Option.some.inj (hlock.symm.trans hi))
  exact (if_neg hi).trans hlock

/-- What is known of the supervisors while a `start` holds its lock and waits for no child. -/
theorem Inv.onlySup_of_recorded (h : Inv s) {i : Nat} (hi : (s.starts i).stage ≠ .outside)
    (hne : ∀ sup, (s.starts i).stage ≠ .child sup) (j : Nat) (hj : (s.sups j).Live) :
    s.supervisor = some j := by
  refine (h.live_cases hj).resolve_right ?_
  rintro ⟨i', hi'⟩
  by_cases heq : i' = i
  · exact hne j (heq ▸ hi')
  · rw [h.outside hi heq] at hi'
    cases hi'

/-- Whoever holds `window.lock` finds a supervisor open, or its deadline removed. -/
theorem Inv.open_or_closed (h : Inv s) {i sup : Nat} (hi : (s.starts i).stage ≠ .outside)
    (hne : ∀ sup, (s.starts i).stage ≠ .child sup) (hentered : (s.sups sup).Entered)
    (halive : (s.sups sup).isAlive) : (s.sups sup).IsOpen ∨ s.deadline = none := by
  have hlive := hentered.live halive
  have hholds := h.sups sup
  revert hlive hholds
  unfold Sup.IsOpen Sup.Live
  cases (s.sups sup).stage with
  | outside => exact fun hlive => hlive.elim
  | entering =>
    rintro - ⟨⟨i', hi'⟩, -⟩
    by_cases heq : i' = i
    · exact absurd (heq ▸ hi') (hne sup)
    · rw [h.outside hi heq] at hi'
      cases hi'
  | closed => exact fun _ hholds => .inr hholds.2
  | _ => exact fun _ _ => .inl trivial

/-- While a window is open its deadline is there. -/
theorem Inv.open_deadline (h : Inv s) {sup : Nat} (hopen : (s.sups sup).IsOpen) :
    HasDeadline s := by
  have hholds := h.sups sup
  revert hholds hopen
  unfold Sup.IsOpen
  cases (s.sups sup).stage with
  | opened => exact fun _ hholds => hholds.2
  | locked | seen | past => exact fun _ hholds => hholds.2.1
  | _ => exact fun hopen => hopen.elim

/-! ### Steps of a start -/

/-- Who has entered has entered still when another is killed. -/
theorem Sup.Entered.killSup {sup j : Nat} (h : (s.sups j).Entered) :
    ((s.killSup sup).sups j).Entered := by
  by_cases hj : j = sup
  · rcases killSup_cases s sup with heq | heq
    · rwa [heq]
    · rw [heq, hj]
      simp [State.supDone, State.supAt, Entered]
  · rwa [killSup_sups_of_ne s sup hj]

/-- The supervisor of a `start` that gave up is killed, and there is none. -/
theorem OnlySup.killSup {sup : Nat} (h : OnlySup s sup) : NoSup (s.killSup sup) := by
  intro j hj
  by_cases heq : j = sup
  · rw [heq] at hj
    exact killSup_sups s sup hj.isAlive
  · rw [killSup_sups_of_ne s sup heq] at hj
    exact heq (h j hj)

/-- An open window is extended. -/
theorem Inv.extend (h : Inv s) {i sup until' : Nat} (hpc : s.starts i = .extend sup until') :
    Inv (({ s.startAt i (.extended sup until') with
      deadline := some until' }).did (.deadline until')) := by
  have hown := h.starts i
  rw [hpc] at hown
  obtain ⟨hlock, hwin, honly, hopen⟩ := hown
  refine h.of_past (p := .extended sup until') (by simp [hpc, Start.isAlive]) rfl
    ⟨hlock, hwin, honly, hopen, rfl⟩ (fun j => ?_) h.agrees ?_ h.recorded
  · -- the lock is not the supervisor's, so it has not looked at the deadline
    have hholds := h.sups j
    by_cases hj : (s.sups j).Live
    · rw [← honly j hj] at hopen
      revert hholds hopen
      unfold Sup.IsOpen
      change _ → _ → (s.sups j).stage.Holds _ j
      cases (s.sups j).stage with
      | opened => exact fun _ hholds => ⟨hholds.1, rfl, rfl⟩
      | locked => exact fun _ hholds => absurd (hwin.symm.trans hholds.2.2) (by simp)
      | seen | past => exact fun _ hholds => absurd (hwin.symm.trans hholds.2.2.1) (by simp)
      | _ => exact fun hopen => hopen.elim
    · exact Sup.Stage.holds_of_not_live hj _ j
  · intro j hj
    exact h.closed j ((List.mem_cons.mp hj).resolve_left (by simp))

/-- A supervisor is made. -/
theorem Inv.spawn (h : Inv s) (hfresh : Fresh s) {i token : Nat}
    (hpc : s.starts i = .spawn token) :
    Inv { (s.startAt i (.check s.spawned)).supAt s.spawned (.entry (some token)) with
      spawned := s.spawned + 1 } := by
  have hown := h.starts i
  rw [hpc] at hown
  obtain ⟨hlock, hno, hhas⟩ := hown
  have hnew : ∀ {j : Nat}, (s.sups j).Entered → j ≠ s.spawned := by
    rintro j hj rfl
    rw [hfresh.sups s.spawned le_rfl] at hj
    exact hj
  refine h.of_past (p := .check s.spawned) (by simp [hpc, Start.isAlive]) rfl
    ⟨hlock, fun j hj => ?_⟩ (fun j => ?_) h.agrees (fun j hj => ?_) (fun j hj => ?_)
  · by_contra hne
    change (Function.update s.sups s.spawned _ j).Live at hj
    rw [Function.update_of_ne hne] at hj
    exact hno j hj
  · change (Function.update s.sups s.spawned _ j).stage.Holds _ j
    by_cases hj : j = s.spawned
    · rw [hj, Function.update_self]
      exact ⟨⟨i, by simp [State.startAt, State.supAt]⟩, hhas⟩
    · rw [Function.update_of_ne hj]
      exact Sup.Stage.holds_of_not_live (hno j) _ j
  · change (Function.update s.sups s.spawned _ j).Entered ∧
      ¬ (Function.update s.sups s.spawned _ j).IsOpen
    rw [Function.update_of_ne (hnew (h.closed j hj).1)]
    exact h.closed j hj
  · change (Function.update s.sups s.spawned _ j).Entered
    rw [Function.update_of_ne (hnew (h.recorded j hj))]
    exact h.recorded j hj

/-- When the recorded supervisor is alive, it is the child, and was let in. -/
theorem Inv.child_entered (h : Inv s) {i sup : Nat} (hpc : s.starts i = .check sup)
    (halive : supervisorAlive s) : (s.sups sup).Entered := by
  have hown := h.starts i
  rw [hpc] at hown
  obtain ⟨j, hrec, hj⟩ : ∃ j, s.supervisor = some j ∧ (s.sups j).isAlive :=
    (Option.any_eq_true _ _).mp halive
  have hentered := h.recorded j hrec
  rwa [hown.2 j (hentered.live hj)] at hentered

/-- A supervisor that did not come up is killed. -/
theorem Inv.killed (h : Inv s) {i sup : Nat} (hpc : s.starts i = .kill sup) :
    Inv ((s.killSup sup).startAt i .dropUntil) := by
  have hown := h.starts i
  rw [hpc] at hown
  have hno : NoSup (s.killSup sup) := OnlySup.killSup hown.2
  have hpast : (s.starts i).stage ≠ .outside := by simp [hpc, Start.isAlive]
  refine h.of_past (p := .dropUntil) hpast ?_ ⟨?_, hno⟩
    (fun j => Sup.Stage.holds_of_not_live (hno j) _ j) ?_ (fun j hj => ?_) fun j hj => ?_
  · exact congrArg (Function.update · i _) (killSup_starts s sup)
  · exact (killSup_startLock s sup).trans hown.1
  · exact (killSup_history s sup).symm ▸ h.agrees
  · rw [State.startAt, killSup_history] at hj
    exact ⟨(h.closed j hj).1.killSup, fun hopen => hno j hopen.live⟩
  · rw [State.startAt, killSup_supervisor] at hj
    exact (h.recorded j hj).killSup

/-- `start.lock` is taken, or another `start` has it. -/
theorem Inv.startLock (h : Inv s) {i secs : Nat} {x : Input}
    (hpc : s.starts i = .lock secs) : Inv (startStep i x s) := by
  unfold startStep
  rw [hpc]
  dsimp only
  split
  · next hlock =>
    refine h.of_start (p := .legacy secs) rfl rfl rfl rfl rfl h.agrees (fun _ => id) rfl ?_
      (fun _ _ => id) (by simp [hpc]) rfl
    intro i' _ hi'
    rw [hlock] at hi'
    cases hi'
  · exact h.startDone (by simp [hpc]) 5

/-- `window.lock` is taken, or waited for. -/
theorem Inv.startWindowLock (h : Inv s) {i secs : Nat} {x : Input} (hx : x.lockFails = false)
    (hpc : s.starts i = .windowLock secs) : Inv (startStep i x s) := by
  have hown := h.starts i
  unfold startStep
  rw [hpc] at hown ⊢
  dsimp only
  rw [hx]
  split
  · next hlock =>
    refine h.of_start (p := .record secs) rfl rfl rfl rfl rfl h.agrees (fun _ => id) rfl
      (fun _ _ => id) ?_ (by simp [hpc]) ⟨hown, rfl⟩
    intro x _ hheld
    rw [hlock] at hheld
    cases hheld
  · exact h

/-- A supervisor is recorded, or there is none. -/
theorem Inv.startRecord (h : Inv s) {i secs : Nat} {x : Input}
    (hpc : s.starts i = .record secs) : Inv (startStep i x s) := by
  have hown := h.starts i
  unfold startStep
  rw [hpc] at hown ⊢
  dsimp only
  have hpast : (s.starts i).stage ≠ .outside := by simp [hpc, Start.isAlive]
  have honly := h.onlySup_of_recorded hpast (by simp [hpc])
  split
  · next hrec =>
    refine h.releaseAt (by simp [hpc]) ⟨hown.1, fun j hj => ?_⟩
    rw [hrec] at honly
    cases honly j hj
  · next sup hrec =>
    refine h.startAt (by simp [hpc]) ⟨hown.1, hown.2, fun j hj => ?_, h.recorded sup hrec⟩
    exact Option.some.inj ((honly j hj).symm.trans hrec)

/-- The recorded supervisor is alive, and then its window is open or being closed; or there is
    none. -/
theorem Inv.startAlive (h : Inv s) {i secs sup : Nat} {x : Input}
    (hpc : s.starts i = .alive secs sup) : Inv (startStep i x s) := by
  have hown := h.starts i
  unfold startStep
  rw [hpc] at hown ⊢
  dsimp only
  obtain ⟨hlock, hwin, honly, hentered⟩ := hown
  have hpast : (s.starts i).stage ≠ .outside := by simp [hpc, Start.isAlive]
  split
  · next halive =>
    exact h.startAt (by simp [hpc]) ⟨hlock, hwin, honly,
      h.open_or_closed hpast (by simp [hpc]) hentered halive⟩
  · next hdead =>
    refine h.releaseAt (by simp [hpc]) ⟨hlock, fun j hj => hdead ?_⟩
    rw [← honly j hj]
    exact hj.isAlive

/-- The deadline is there, and then the window is open; or it is removed. -/
theorem Inv.startDeadline (h : Inv s) {i secs sup : Nat} {x : Input}
    (hpc : s.starts i = .deadline secs sup) : Inv (startStep i x s) := by
  have hown := h.starts i
  unfold startStep
  rw [hpc] at hown ⊢
  dsimp only
  obtain ⟨hlock, hwin, honly, hopen⟩ := hown
  split
  · next hsome =>
    refine h.startAt (by simp [hpc]) ⟨hlock, hwin, honly, hopen.resolve_right fun hnone => ?_⟩
    simp [hnone] at hsome
  · exact h.releaseAt (by simp [hpc]) ⟨hlock, honly⟩

/-- An extension is reported of a window that is open, to the deadline that was written. -/
theorem Inv.startExtended (h : Inv s) {i sup until' : Nat} {x : Input}
    (hpc : s.starts i = .extended sup until') : Inv (startStep i x s) := by
  have hown := h.starts i
  unfold startStep
  rw [hpc] at hown ⊢
  dsimp only
  obtain ⟨hlock, hwin, honly, hopen, hdead⟩ := hown
  have hlast := (h.open_deadline hopen).2
  refine (h.did (a := .extended sup until') rfl ⟨⟨?_, ?_⟩, h.agrees⟩ (by simp)).startDone ?_ 5
  · exact fun hclosed => (h.closed sup hclosed).2 hopen
  · rw [← hlast, hdead]
  · simp [State.did, hpc]

/-- A `start` waits until a supervisor that is closing its window is gone. -/
theorem Inv.startClosing (h : Inv s) {i secs sup : Nat} {x : Input}
    (hpc : s.starts i = .closing secs sup) : Inv (startStep i x s) := by
  have hown := h.starts i
  unfold startStep
  rw [hpc] at hown ⊢
  dsimp only
  repeat' split
  · next hdead =>
    refine h.startAt (by simp [hpc]) ⟨hown.1, fun j hj => hdead ?_⟩
    rw [← hown.2 j hj]
    exact hj.isAlive
  · exact h.startDone (by simp [hpc]) 3
  · exact h.startDone (by simp [hpc]) 3
  · exact h

/-- The backend is probed. -/
theorem Inv.startProbe (h : Inv s) {i secs : Nat} {x : Input}
    (hpc : s.starts i = .probe secs) : Inv (startStep i x s) := by
  have hown := h.starts i
  unfold startStep
  rw [hpc] at hown ⊢
  dsimp only
  repeat' split
  · exact (h.hook .probe).startAt (by simp [hpc]) hown
  all_goals exact (h.hook .probe).startDone (by simp [hpc]) _

/-- The radio is brought up. -/
theorem Inv.startUp (h : Inv s) {i secs : Nat} {x : Input}
    (hpc : s.starts i = .up secs) : Inv (startStep i x s) := by
  have hown := h.starts i
  unfold startStep
  rw [hpc] at hown ⊢
  dsimp only
  split
  · exact (h.hook .up).startAt (by simp [hpc]) hown
  · exact (h.hook .up).startDone (by simp [hpc]) 3
  · exact (h.hook .up).startAt (by simp [hpc]) hown
  · exact (h.hook .up).startDone (by simp [hpc]) 4
  · exact (h.hook .up).startDone (by simp [hpc]) 4
  · exact (h.hook .up).startAt (by simp [hpc]) hown

/-- The deadline is written. -/
theorem Inv.startSetUntil (h : Inv s) {i until' : Nat} {x : Input}
    (hpc : s.starts i = .setUntil until') : Inv (startStep i x s) := by
  have hown := h.starts i
  unfold startStep
  rw [hpc] at hown ⊢
  dsimp only
  refine h.of_past (p := .newToken) (by simp [hpc, Start.isAlive]) rfl
    ⟨hown.1, hown.2, rfl, rfl⟩ (fun j => ?_) h.agrees ?_ h.recorded
  · exact Sup.Stage.holds_of_not_live (hown.2 j) _ j
  · intro j hj
    exact h.closed j ((List.mem_cons.mp hj).resolve_left (by simp))

/-- A token is made. -/
theorem Inv.startNewToken (h : Inv s) {i : Nat} {x : Input}
    (hpc : s.starts i = .newToken) : Inv (startStep i x s) := by
  have hown := h.starts i
  unfold startStep
  rw [hpc] at hown ⊢
  dsimp only
  split
  · exact h.of_start (p := .opening s.tokens) rfl rfl rfl rfl rfl h.agrees (fun _ => id) rfl
      (fun _ _ => id) (fun _ _ => id) (by simp [hpc]) hown
  · exact h.startAt (by simp [hpc]) ⟨hown.1, hown.2.1⟩

/-- The supervisor has come up, and the window is reported open; or it has not yet, or will not. -/
theorem Inv.startCheck (h : Inv s) {i sup : Nat} {x : Input}
    (hpc : s.starts i = .check sup) : Inv (startStep i x s) := by
  have hown := h.starts i
  unfold startStep
  rw [hpc] at hown ⊢
  dsimp only
  repeat' split
  · next halive =>
    refine (h.did (a := .opened) rfl h.agrees (by simp)).startDone ?_ 0
    have hentered := h.child_entered hpc halive
    intro sup' hsup' hentering
    simp only [did_starts, hpc] at hsup'
    cases hsup'
    exact hentered.not_entering hentering
  · exact h.startAt (by simp [hpc]) hown
  · exact h

/-- A `start` keeps the invariant. -/
theorem Inv.start (h : Inv s) (hfresh : Fresh s) (i : Nat) {x : Input} (hx : x.lockFails = false) :
    Inv (startStep i x s) := by
  cases hpc : s.starts i
  case lock => exact h.startLock hpc
  case windowLock => exact h.startWindowLock hx hpc
  case record => exact h.startRecord hpc
  case alive => exact h.startAlive hpc
  case deadline => exact h.startDeadline hpc
  case extended => exact h.startExtended hpc
  case closing => exact h.startClosing hpc
  case probe => exact h.startProbe hpc
  case up => exact h.startUp hpc
  case setUntil => exact h.startSetUntil hpc
  case newToken => exact h.startNewToken hpc
  case check => exact h.startCheck hpc
  all_goals
    have hown := h.starts i
    unfold startStep
    rw [hpc] at hown ⊢
    dsimp only
  case idle | done => exact h
  case legacy secs =>
    split
    · exact h.startDone (by simp [hpc]) 5
    · exact h.startAt (by simp [hpc]) hown
  case extendTime secs sup => exact h.startAt (by simp [hpc]) hown
  case extend sup until' => exact h.extend hpc
  case children secs => exact h.startAt (by simp [hpc]) hown
  case link secs =>
    split
    all_goals exact h.startAt (by simp [hpc]) hown
  case identity secs =>
    split
    · exact (h.hook .identity).startDone (by simp [hpc]) 3
    · exact (h.hook .identity).startAt (by simp [hpc]) hown
  case published secs =>
    split
    · exact h.startDone (by simp [hpc]) 3
    · exact h.startAt (by simp [hpc]) hown
  case untilTime secs => exact h.startAt (by simp [hpc]) hown
  case opening token =>
    split
    · exact h.startAt (by simp [hpc]) ⟨hown.1, hown.2.1⟩
    · exact h.startAt (by simp [hpc]) hown
  case dropToken =>
    have htoken : Inv { s with token := none } :=
      ⟨h.starts, h.sups, h.agrees, h.closed, h.recorded⟩
    exact htoken.startDone (by simp [hpc]) 3
  case spawn token =>
    split
    · exact h.spawn hfresh hpc
    · exact h.startAt (by simp [hpc]) ⟨hown.1, hown.2.1⟩
  case unspawned =>
    exact h.of_start (p := .dropUntil) rfl rfl rfl rfl rfl h.agrees (fun _ => id) rfl
      (fun _ _ => id) (fun _ _ => id) (by simp [hpc]) hown
  case giveUp sup =>
    exact h.of_start (p := .kill sup) rfl rfl rfl rfl rfl h.agrees (fun _ => id) rfl
      (fun _ _ => id) (fun _ _ => id) (by simp [hpc]) hown
  case kill sup => exact h.killed hpc
  case dropUntil =>
    exact h.of_past (p := .failed 3) (by simp [hpc, Start.isAlive]) rfl hown
      (fun j => Sup.Stage.holds_of_not_live (hown.2 j) _ j) h.agrees h.closed h.recorded
  case failed code => exact (h.hook .down).startDone (by simp [hpc]) code

/-! ### Steps of a supervisor -/

/-- A supervisor goes on where it is. -/
theorem Inv.supAt (h : Inv s) {j : Nat} {p q : Sup} (hp : s.sups j = p) (hgoes : p.Goes q)
    (hown : q.stage.Holds s j) : Inv (s.supAt j q) :=
  h.of_sup hp hgoes rfl rfl rfl rfl (fun _ => .inl) rfl (fun _ _ => id) hown

/-- A supervisor with no open window gives way to one that does not count. -/
theorem Inv.of_end (h : Inv s) {j : Nat} {q : Sup} (hj : ¬ (s.sups j).IsOpen) (hq : ¬ q.Live)
    (hentered : (s.sups j).Entered → q.Entered)
    (hsups : ∀ j', s'.sups j' = if j' = j then q else s.sups j') (hstarts : s'.starts = s.starts)
    (hrec : s'.supervisor = s.supervisor) (hdead : s'.deadline = s.deadline)
    (hhist : s'.history = s.history) (hlock : s'.startLock = s.startLock) (hnow : s'.now = s.now)
    (hwin : ∀ x, x ≠ .sup j → s.windowLock = some x → s'.windowLock = some x) : Inv s' where
  starts i := by
    rw [hstarts]
    refine (h.starts i).mono (fun hi => hlock.trans hi) (hwin _ (by simp)) ?_ ?_ ?_ hdead
      (by rw [hhist])
    all_goals
      intro j'
      rw [hsups]
      split
    · exact fun hlive => absurd hlive hq
    · exact id
    · next heq => exact fun hin => hentered (heq ▸ hin)
    · exact id
    · next heq => exact fun _ hopen => absurd (heq ▸ hopen) hj
    · exact fun _ => id
  sups j' := by
    rw [hsups]
    split
    · exact Sup.Stage.holds_of_not_live hq _ j'
    · next hne =>
      refine (h.sups j').mono ?_ hrec (hwin _ (by simpa using hne)) hdead (by rw [hhist]) hnow.ge
      rw [hstarts]
      exact id
  agrees := by
    rw [hhist]
    exact h.agrees
  closed j' hj' := by
    have hbefore := h.closed j' (hhist ▸ hj')
    rw [hsups]
    split
    · next heq => exact ⟨hentered (heq ▸ hbefore.1), fun hopen => hq hopen.live⟩
    · exact hbefore
  recorded j' hj' := by
    have hbefore := h.recorded j' (hrec ▸ hj')
    rw [hsups]
    split
    · next heq => exact hentered (heq ▸ hbefore)
    · exact hbefore

/-- A supervisor that is not let in, or has closed its window, ends. -/
theorem Inv.supDone (h : Inv s) {j : Nat} (hj : ¬ (s.sups j).IsOpen) : Inv (s.supDone j) :=
  h.of_end hj (q := .exited) id (fun _ => trivial) (supDone_sups s j) rfl rfl rfl rfl rfl rfl
    fun _ hne => release_windowLock s hne

/-- A supervisor closes its window, under `window.lock`. -/
theorem Inv.close (h : Inv s) {j : Nat} {e : End} (hj : (s.sups j).Live)
    (hrec : s.supervisor = some j) (hheld : s.windowLock = some (.sup j))
    (hsups : s'.sups = Function.update s.sups j (.finish e)) (hstarts : s'.starts = s.starts)
    (hdead : s'.deadline = none) (hsup : s'.supervisor = s.supervisor)
    (hlock : s'.startLock = s.startLock) (hagrees : Agrees s'.history)
    (hclosed : ∀ j', .closed j' ∈ s'.history → j' = j ∨ .closed j' ∈ s.history) : Inv s' where
  starts i := by
    have hholds := h.starts i
    -- the window that is closed is one less, and no other opens
    have hlive : ∀ j', (s'.sups j').Live → (s.sups j').Live := by
      intro j' hj'
      by_cases heq : j' = j
      · rwa [heq]
      · rwa [hsups, Function.update_of_ne heq] at hj'
    have honly : ∀ {sup : Nat}, OnlySup s sup → OnlySup s' sup := fun h j' hj' =>
      h j' (hlive j' hj')
    rw [hstarts]
    revert hholds
    cases (s.starts i).stage with
    | outside => exact fun _ => trivial
    | gate => exact fun hholds => hlock.trans hholds
    | window => exact fun hholds => absurd (hheld.symm.trans hholds.2) (by simp)
    | found | judged | opened | wrote =>
      exact fun hholds => absurd (hheld.symm.trans hholds.2.1) (by simp)
    | waiting sup | child sup => exact fun hholds => ⟨hlock.trans hholds.1, honly hholds.2⟩
    | alone => exact fun hholds => absurd hj (hholds.2 j)
    | ready => exact fun hholds => absurd hj (hholds.2.1 j)
  -- the one that closes holds no window any more, and no other is alive
  sups j' := by
    rw [hsups]
    by_cases heq : j' = j
    · rw [heq, Function.update_self]
      exact ⟨hsup.trans hrec, hdead⟩
    · rw [Function.update_of_ne heq]
      exact Sup.Stage.holds_of_not_live (fun hlive => heq (h.only hlive hj)) _ j'
  agrees := hagrees
  closed j' hj' := by
    rw [hsups]
    by_cases heq : j' = j
    · rw [heq, Function.update_self]
      exact ⟨trivial, fun hopen => hopen.elim⟩
    · rw [Function.update_of_ne heq]
      exact h.closed j' ((hclosed j' hj').resolve_left heq)
  recorded j' hj' := by
    rw [hsups]
    by_cases heq : j' = j
    · rw [heq, Function.update_self]
      trivial
    · rw [Function.update_of_ne heq]
      exact h.recorded j' (hsup ▸ hj')

/-- A deadline that is not live is one that passed. -/
private theorem past_of_not_isLive {d now : Nat} (h : ¬ isLive (some d) now) : d ≠ 0 ∧ d ≤ now := by
  simpa [isLive] using h

/-- A supervisor keeps the invariant. -/
theorem Inv.sup (h : Inv s) (j : Nat) {x : Input} (hx : x.lockFails = false) :
    Inv (supStep j x s) := by
  have hown := h.sups j
  unfold supStep
  obtain ⟨p, hp⟩ : ∃ p, s.sups j = p := ⟨_, rfl⟩
  rw [hp] at hown ⊢
  cases p with dsimp only
  | idle | exited => exact h
  -- it goes on with the token that it was given, and leaves otherwise
  | entry want =>
    split
    · next hwant =>
      obtain ⟨token, rfl⟩ := Option.isSome_iff_exists.mp hwant.1
      exact h.supAt hp ⟨trivial, False.elim, False.elim, fun h => h.elim⟩ hown
    · exact h.supDone (by cases want <;> simp [hp, Sup.IsOpen, Sup.stage, Sup.Stage.IsOpen])
  | dropToken =>
    exact h.of_sup hp ⟨trivial, False.elim, False.elim, fun h => h.elim⟩ rfl rfl rfl rfl
      (fun _ => .inl) rfl (fun _ _ => id) hown
  | record =>
    refine h.of_sup hp ⟨trivial, False.elim, False.elim, fun h => h.elim⟩ rfl rfl rfl rfl
      (fun j' hj' => .inr ⟨?_, trivial⟩) rfl (fun _ _ => id) ⟨rfl, hown.2⟩
    exact (Option.some.inj hj').symm
  | loop | pause =>
    split
    all_goals exact h.supAt hp (.of_open trivial trivial) hown
  | glance => exact h.supAt hp (.of_open trivial trivial) hown
  | glanceTime seen =>
    split
    all_goals exact h.supAt hp (.of_open trivial trivial) hown
  | lockExpired =>
    rw [hx]
    split
    · -- no other process held the lock, so none is left without it
      next hfree =>
      refine h.of_sup (q := .look) hp (.of_open trivial trivial) rfl rfl rfl rfl (fun _ => .inl)
        rfl (fun _ _ hheld => ?_) ⟨hown.1, hown.2, rfl⟩
      rw [hfree] at hheld
      cases hheld
    · exact h
  | look => exact h.supAt hp (.of_open trivial trivial) ⟨hown.1, hown.2.1, hown.2.2, rfl⟩
  | lookTime seen =>
    split
    · exact h.of_sup (q := .tick) hp (.of_open trivial trivial) rfl rfl rfl rfl (fun _ => .inl)
        rfl (fun _ hne => release_windowLock s hne) ⟨hown.1, hown.2.1⟩
    · next hlive =>
      obtain ⟨hrec, hhas, hheld, hseen⟩ := hown
      obtain ⟨d, hd⟩ := Option.isSome_iff_exists.mp hhas.1
      rw [← hseen, hd] at hlive
      exact h.supAt hp (.of_open trivial trivial)
        ⟨hrec, hhas, hheld, d, hd, past_of_not_isLive hlive⟩
  | dropExpired =>
    obtain ⟨hrec, hhas, hheld, d, hd, hpast⟩ := hown
    refine h.close (j := j) (e := .expired) (by rw [hp]; trivial) hrec hheld rfl rfl rfl rfl rfl
      ⟨⟨d, hhas.2.symm.trans hd, hpast⟩, h.agrees⟩ ?_
    intro j' hj'
    simpa [State.did, State.release, State.supAt] using hj'
  | tick =>
    -- the hook runs, and the window stays open or loses the radio
    have h := h.hook .tick
    split
    all_goals exact h.supAt hp (.of_open trivial trivial) hown
  | lockEnd why =>
    rw [hx]
    split
    · next hfree =>
      refine h.of_sup (q := .dropEnd why) hp (.of_open trivial trivial) rfl rfl rfl rfl
        (fun _ => .inl) rfl (fun _ _ hheld => ?_) ⟨hown.1, hown.2, rfl⟩
      rw [hfree] at hheld
      cases hheld
    · exact h
  | dropEnd why =>
    refine h.close (j := j) (e := why) (by rw [hp]; trivial) hown.1 hown.2.2 rfl rfl rfl rfl rfl
      h.agrees ?_
    intro j' hj'
    simpa [State.did, State.release, State.supAt] using hj'
  | finish why =>
    split
    all_goals exact h.supAt hp (.of_closed rfl rfl) hown
  | down why => exact (h.hook .down).supAt hp (.of_closed rfl rfl) hown
  | forget =>
    split
    · exact h.supAt hp (.of_closed rfl rfl) hown
    · exact h.supDone (by rw [hp]; exact id)
  | unrecord =>
    -- this one was the only supervisor, so the record is none's any more
    have hdone := h.supDone (j := j) (by rw [hp]; exact id)
    have hno : NoSup (s.supDone j) := by
      intro j' hj'
      rw [supDone_sups] at hj'
      split at hj'
      · exact hj'
      · next hne => exact hne (h.only hj' (by rw [hp]; trivial))
    exact ⟨hdone.starts, fun j' => Sup.Stage.holds_of_not_live (hno j') _ j', hdone.agrees,
      hdone.closed, by simp⟩

/-! ### Runs -/

/-- While no process is killed, no `stop` runs and `window.lock` is to be had in time. -/
def Action.Calm : Action → Prop
  | .wait | .newStart _ | .newSup => True
  | .start _ x | .sup _ x => x.lockFails = false
  | .newStop | .stop .. | .killStart _ | .killSup _ => False

/-- Every calm step keeps the invariant. -/
theorem Inv.step (h : Inv s) (hfresh : Fresh s) {a : Action} (ha : a.Calm) :
    Inv (step s a) := by
  cases a with
  | wait =>
    exact ⟨h.starts, fun j => (h.sups j).mono id rfl id rfl rfl (Nat.le_succ _), h.agrees,
      h.closed, h.recorded⟩
  | newStart secs =>
    have hidle := hfresh.starts s.started le_rfl
    exact h.of_start (p := .lock secs) rfl rfl rfl rfl rfl h.agrees (fun _ => id) rfl
      (fun _ _ => id) (fun _ _ => id) (by simp [hidle]) trivial
  | newSup =>
    have hidle := hfresh.sups s.spawned le_rfl
    refine h.of_end (j := s.spawned) (q := .entry none) ?_ id ?_ (fun j => ?_) rfl rfl rfl rfl rfl
      rfl fun _ _ => id
    · rw [hidle]
      exact id
    · rw [hidle]
      exact id
    · simp [Window.step, State.supAt, Function.update_apply]
  | start i x => exact h.start hfresh i ha
  | sup j x => exact h.sup j ha
  | newStop | stop | killStart | killSup => exact ha.elim

/-- The invariant holds before anything runs. -/
theorem Inv.init : Inv init where
  starts _ := trivial
  sups _ := trivial
  agrees := trivial
  closed := by simp [Window.init]
  recorded := by simp [Window.init]

/-- The invariant holds in every state that a calm run reaches. -/
theorem Inv.run {as : List Action} (h : Inv s) (hfresh : Fresh s) (has : ∀ a ∈ as, a.Calm) :
    Inv (run s as) := by
  induction as generalizing s with
  | nil => exact h
  | cons a as ih =>
    refine ih (h.step hfresh (has a (by simp))) (hfresh.step a) fun b hb => has b ?_
    exact List.mem_cons_of_mem _ hb

/-- A window that expired had the deadline told last, and it had passed. -/
theorem Agrees.expired {acts acts' : List Act} {j time : Nat}
    (h : Agrees (acts ++ .expired j time :: acts')) :
    ∃ d, lastDeadline acts' = some d ∧ d ≠ 0 ∧ d ≤ time := by
  induction acts with
  | nil => exact h.1
  | cons a acts ih =>
    refine ih ?_
    cases a with
    | expired | extended => exact h.2
    | deadline | opened | closed | hook => exact h

/-- A window that was extended was open, with the deadline told last. -/
theorem Agrees.extended {acts acts' : List Act} {sup until' : Nat}
    (h : Agrees (acts ++ .extended sup until' :: acts')) :
    .closed sup ∉ acts' ∧ lastDeadline acts' = some until' := by
  induction acts with
  | nil => exact h.1
  | cons a acts ih =>
    refine ih ?_
    cases a with
    | expired | extended => exact h.2
    | deadline | opened | closed | hook => exact h

/-- While a `start` calls a hook there is no supervisor. -/
theorem Inv.noSup (h : Inv s) {i : Nat}
    (hi : (s.starts i).stage = .alone ∨ (s.starts i).stage = .ready) : NoSup s := by
  have hown := h.starts i
  rcases hi with hi | hi
  · rw [hi] at hown
    exact hown.2
  · rw [hi] at hown
    exact hown.2.1

/-- **The window is agreed on.**  While no process is killed, no `stop` runs and `window.lock` is
    to be had in time, in whatever order `start`s and supervisors take their steps: there is at
    most one supervisor, and none while a `start` calls a hook of the radio; while a window is open
    the deadline in the run directory is the last that was written; a supervisor lets its window
    expire only when that is past; and a `start` reports an extension only of a window that is not
    closed, to a deadline that is the last. -/
theorem window_agreement {as : List Action} (has : ∀ a ∈ as, a.Calm) :
    (∀ j j', ((run init as).sups j).Live → ((run init as).sups j').Live → j = j') ∧
    (∀ i secs code, (run init as).starts i ∈ [.up secs, .identity secs, .failed code] →
      NoSup (run init as)) ∧
    (∀ j, ((run init as).sups j).IsOpen → HasDeadline (run init as)) ∧
    (∀ acts j time acts', (run init as).history = acts ++ .expired j time :: acts' →
      ∃ d, lastDeadline acts' = some d ∧ d ≠ 0 ∧ d ≤ time) ∧
    (∀ acts sup until' acts', (run init as).history = acts ++ .extended sup until' :: acts' →
      .closed sup ∉ acts' ∧ lastDeadline acts' = some until') := by
  have h : Inv (run init as) := Inv.init.run Fresh.init has
  refine ⟨fun j j' => h.only, ?_, fun j => h.open_deadline, ?_, ?_⟩
  · intro i secs code hi
    refine h.noSup (i := i) (.inl ?_)
    simp only [List.mem_cons, List.not_mem_nil, or_false] at hi
    rcases hi with hi | hi | hi <;> rw [hi] <;> rfl
  · intro acts j time acts' heq
    exact (heq ▸ h.agrees).expired
  · intro acts sup until' acts' heq
    exact (heq ▸ h.agrees).extended

/-- A window is opened, extended, and expires. -/
def extendedRun : List Action :=
  let x : Input := ⟨false, false, false, true, true, .exited 0⟩
  .newStart 1 :: List.replicate 15 (.start 0 x) ++ List.replicate 3 (.sup 0 x) ++
    .start 0 x :: .newStart 3 :: List.replicate 9 (.start 1 x) ++
    List.replicate 3 .wait ++ List.replicate 7 (.sup 0 x)

/-- A window that a second start extends ends at the second deadline. -/
theorem window_agreement_extendedRun :
    (∀ acts j time acts', (run init extendedRun).history = acts ++ .expired j time :: acts' →
      ∃ d, lastDeadline acts' = some d ∧ d ≠ 0 ∧ d ≤ time) ∧
    (run init extendedRun).history.take 5 =
      [.expired 0 3, .closed 0, .extended 0 3, .deadline 3, .opened] :=
  ⟨(window_agreement (by simp [extendedRun, Action.Calm])).2.2.2.1, by decide⟩

end Omdrop.Radio.Window
