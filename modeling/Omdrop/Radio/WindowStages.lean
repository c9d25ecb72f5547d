import Omdrop.Radio.Window

namespace Omdrop.Radio.Window

/-!
# What a place in a program stands for

`start`s and supervisors agree on the window while they keep an invariant: for every place in the
programs, what holds while a process is there.  Here it is stated, with what a step that leaves the
deadline alone does to it.
-/

variable {s s' : State}

/-! ### Stages -/

/-- What a place in the program of a supervisor stands for. -/
inductive Sup.Stage
  | outside
  /-- it shows its token, or was let in -/
  | entering
  /-- the window is open -/
  | opened
  /-- it holds `window.lock` -/
  | locked
  | seen (deadline : Option Nat)
  | past
  /-- the deadline is removed -/
  | closed
  deriving DecidableEq

/-- The stage of a place. -/
def Sup.stage : Sup → Sup.Stage
  | .idle | .exited | .entry none => .outside
  | .entry (some _) | .dropToken | .record => .entering
  | .loop | .glance | .glanceTime _ | .lockExpired | .tick | .pause | .lockEnd _ => .opened
  | .look | .dropEnd _ => .locked
  | .lookTime seen => .seen seen
  | .dropExpired => .past
  | .finish _ | .down _ | .forget | .unrecord => .closed

/-- Does a supervisor at this stage count?  One that has ended, or cannot show a token, does not. -/
def Sup.Stage.Live : Sup.Stage → Prop
  | .outside => False
  | _ => True

/-- Is the window of a supervisor at this stage open? -/
def Sup.Stage.IsOpen : Sup.Stage → Prop
  | .opened | .locked | .seen _ | .past => True
  | _ => False

/-- Is a supervisor let in or about to be, and has not ended? -/
def Sup.Live (p : Sup) : Prop := p.stage.Live

/-- Is the window of a supervisor open? -/
def Sup.IsOpen (p : Sup) : Prop := p.stage.IsOpen

/-- Was a supervisor let in? -/
def Sup.Entered : Sup → Prop
  | .idle | .entry _ | .dropToken | .record => False
  | _ => True

/-- A supervisor that keeps its window open is alive. -/
theorem Sup.IsOpen.live {p : Sup} (h : p.IsOpen) : p.Live := by
  revert h
  unfold IsOpen Live
  cases p.stage with
  | outside => exact id
  | _ => exact fun _ => trivial

/-- A supervisor that keeps its window open has entered it. -/
theorem Sup.IsOpen.entered {p : Sup} (h : p.IsOpen) : p.Entered := by
  cases p with
  | entry want =>
    cases want with
    | none => exact h.elim
    | some _ => exact h.elim
  | idle | dropToken | record => exact h.elim
  | _ => trivial

/-- A supervisor that is not alive is outside of every window. -/
theorem Sup.stage_of_not_live {p : Sup} (h : ¬ p.Live) : p.stage = .outside := by
  revert h
  unfold Live
  cases p.stage with
  | outside => exact fun _ => rfl
  | _ => exact fun h => absurd trivial h

/-- What is in a window is a running process. -/
theorem Sup.Live.isAlive {p : Sup} (h : p.Live) : p.isAlive := by
  cases p with
  | idle | exited => exact h.elim
  | _ => rfl

/-- A supervisor that entered and still runs is in its window. -/
theorem Sup.Entered.live {p : Sup} (h : p.Entered) (halive : p.isAlive) : p.Live := by
  cases p with
  | idle | entry | dropToken | record => exact h.elim
  | exited => simp [isAlive] at halive
  | _ => trivial

/-- What has entered is no longer on its way in. -/
theorem Sup.Entered.not_entering {p : Sup} (h : p.Entered) : p.stage ≠ .entering := by
  cases p with
  | entry want => exact h.elim
  | dropToken | record => exact h.elim
  | _ => simp [stage]

/-- There is no supervisor but one. -/
def OnlySup (s : State) (sup : Nat) : Prop := ∀ j, (s.sups j).Live → j = sup

/-- There is no supervisor. -/
def NoSup (s : State) : Prop := ∀ j, ¬ (s.sups j).Live

/-- The deadline is the last one that was written. -/
def HasDeadline (s : State) : Prop :=
  s.deadline.isSome ∧ s.deadline = lastDeadline s.history

/-- What a place in the program of a `start` stands for. -/
inductive Start.Stage
  | outside
  | gate
  | window
  | found (sup : Nat)
  | judged (sup : Nat)
  | opened (sup : Nat)
  | wrote (sup until' : Nat)
  | waiting (sup : Nat)
  | alone
  | ready
  | child (sup : Nat)
  deriving DecidableEq

/-- The stage of a place. -/
def Start.stage : Start → Start.Stage
  | .idle | .lock _ | .done _ => .outside
  | .legacy _ | .windowLock _ => .gate
  | .record _ => .window
  | .alive _ sup => .found sup
  | .deadline _ sup => .judged sup
  | .extendTime _ sup | .extend sup _ => .opened sup
  | .extended sup until' => .wrote sup until'
  | .closing _ sup => .waiting sup
  | .children _ | .probe _ | .up _ | .link _ | .identity _ | .published _ | .untilTime _
  | .setUntil _ | .dropToken | .unspawned | .dropUntil | .failed _ => .alone
  | .newToken | .opening _ | .spawn _ => .ready
  | .check sup | .giveUp sup | .kill sup => .child sup

@[simp] theorem Start.stage_eq_child {p : Start} {sup : Nat} :
    p.stage = .child sup ↔ p = .check sup ∨ p = .giveUp sup ∨ p = .kill sup := by
  cases p <;> simp [stage]

@[simp] theorem Start.stage_eq_outside {p : Start} :
    p.stage = .outside ↔ ¬ p.isAlive ∨ ∃ secs, p = .lock secs := by
  cases p <;> simp [stage, isAlive]

/-- What holds while a `start` is at a stage. -/
def Start.Stage.Holds (s : State) (i : Nat) : Start.Stage → Prop
  | .outside => True
  | .gate => s.startLock = some i
  | .window => s.startLock = some i ∧ s.windowLock = some (.start i)
  | .found sup =>
    s.startLock = some i ∧ s.windowLock = some (.start i) ∧ OnlySup s sup ∧ (s.sups sup).Entered
  | .judged sup =>
    s.startLock = some i ∧ s.windowLock = some (.start i) ∧ OnlySup s sup ∧
      ((s.sups sup).IsOpen ∨ s.deadline = none)
  | .opened sup =>
    s.startLock = some i ∧ s.windowLock = some (.start i) ∧ OnlySup s sup ∧ (s.sups sup).IsOpen
  | .wrote sup until' =>
    s.startLock = some i ∧ s.windowLock = some (.start i) ∧ OnlySup s sup ∧
      (s.sups sup).IsOpen ∧ s.deadline = some until'
  | .waiting sup => s.startLock = some i ∧ OnlySup s sup
  | .alone => s.startLock = some i ∧ NoSup s
  | .ready => s.startLock = some i ∧ NoSup s ∧ HasDeadline s
  | .child sup => s.startLock = some i ∧ OnlySup s sup

/-- What holds while a supervisor is at a stage. -/
def Sup.Stage.Holds (s : State) (j : Nat) : Sup.Stage → Prop
  | .outside => True
  | .entering => (∃ i, (s.starts i).stage = .child j) ∧ HasDeadline s
  | .opened => s.supervisor = some j ∧ HasDeadline s
  | .locked => s.supervisor = some j ∧ HasDeadline s ∧ s.windowLock = some (.sup j)
  | .seen deadline =>
    s.supervisor = some j ∧ HasDeadline s ∧ s.windowLock = some (.sup j) ∧ s.deadline = deadline
  | .past =>
    s.supervisor = some j ∧ HasDeadline s ∧ s.windowLock = some (.sup j) ∧
      ∃ d, s.deadline = some d ∧ d ≠ 0 ∧ d ≤ s.now
  | .closed => s.supervisor = some j ∧ s.deadline = none

/-- What was done agrees: a window expires only when the last deadline is past, and is extended
    only while it is not closed, and to the last deadline. -/
def Agrees : List Act → Prop
  | [] => True
  | .expired _ time :: acts =>
    (∃ d, lastDeadline acts = some d ∧ d ≠ 0 ∧ d ≤ time) ∧ Agrees acts
  | .extended sup until' :: acts =>
    (.closed sup ∉ acts ∧ lastDeadline acts = some until') ∧ Agrees acts
  | _ :: acts => Agrees acts

/-- The invariant. -/
structure Inv (s : State) : Prop where
  starts : ∀ i, (s.starts i).stage.Holds s i
  sups : ∀ j, (s.sups j).stage.Holds s j
  agrees : Agrees s.history
  closed : ∀ j, .closed j ∈ s.history → (s.sups j).Entered ∧ ¬ (s.sups j).IsOpen
  recorded : ∀ j, s.supervisor = some j → (s.sups j).Entered

/-- A dead supervisor's stage says nothing of the state. -/
theorem Sup.Stage.holds_of_not_live {p : Sup} (h : ¬ p.Live) (s : State) (j : Nat) :
    p.stage.Holds s j := by
  rw [Sup.stage_of_not_live h]
  trivial

/-- A start that is in the middle of its work holds the lock of the starts. -/
theorem Start.Stage.Holds.lock {i : Nat} {stage : Start.Stage} (h : stage.Holds s i)
    (hstage : stage ≠ .outside) : s.startLock = some i := by
  cases stage with
  | outside => exact absurd rfl hstage
  | gate => exact h
  | window | found | judged | opened | wrote | waiting | alone | ready | child => exact h.1

/-- Only one `start` is past its lock. -/
theorem Inv.outside (h : Inv s) {i i' : Nat} (hi : (s.starts i).stage ≠ .outside) (hne : i' ≠ i) :
    (s.starts i').stage = .outside := by
  by_contra hi'
  have hlock := ((h.starts i).lock hi).symm.trans ((h.starts i').lock hi')
  exact hne (Option.some.inj hlock).symm

/-- A live supervisor is the recorded one, or the child of the `start` that waits for it. -/
theorem Inv.live_cases (h : Inv s) {j : Nat} (hj : (s.sups j).Live) :
    s.supervisor = some j ∨ ∃ i, (s.starts i).stage = .child j := by
  have hholds := h.sups j
  revert hholds hj
  unfold Sup.Live
  cases (s.sups j).stage with
  | outside => exact fun hj => hj.elim
  | entering => exact fun _ hholds => .inr hholds.1
  | opened | locked | seen | past | closed => exact fun _ hholds => .inl hholds.1

/-- **At most one supervisor.** -/
theorem Inv.only (h : Inv s) {j j' : Nat} (hj : (s.sups j).Live) (hj' : (s.sups j').Live) :
    j = j' := by
  have hchild : ∀ {i sup : Nat}, (s.starts i).stage = .child sup → OnlySup s sup := by
    intro i sup hi
    have hholds := h.starts i
    rw [hi] at hholds
    exact hholds.2
  rcases h.live_cases hj with hrec | ⟨i, hi⟩
  · rcases h.live_cases hj' with hrec' | ⟨i, hi⟩
    · exact Option.some.inj (hrec.symm.trans hrec')
    · exact hchild hi j hj
  · exact (hchild hi j' hj').symm

/-! ### What a step leaves alone -/

/-- Only the deadline and the last one that was told bear on whether there is one. -/
theorem HasDeadline.of_eq (h : HasDeadline s) (hdead : s'.deadline = s.deadline)
    (hlast : lastDeadline s'.history = lastDeadline s.history) : HasDeadline s' := by
  unfold HasDeadline
  rw [hdead, hlast]
  exact h

/-- What holds of a `start` still holds when its locks are the same and no supervisor changed but a
    live one that stays open if it was. -/
theorem Start.Stage.Holds.mono {i : Nat} {stage : Start.Stage} (h : stage.Holds s i)
    (hlock : s.startLock = some i → s'.startLock = some i)
    (hwin : s.windowLock = some (.start i) → s'.windowLock = some (.start i))
    (hlive : ∀ j, (s'.sups j).Live → (s.sups j).Live)
    (hentered : ∀ j, (s.sups j).Entered → (s'.sups j).Entered)
    (hopen : ∀ j, s.windowLock = some (.start i) → (s.sups j).IsOpen → (s'.sups j).IsOpen)
    (hdead : s'.deadline = s.deadline)
    (hlast : lastDeadline s'.history = lastDeadline s.history) : stage.Holds s' i := by
  have honly : ∀ {sup : Nat}, OnlySup s sup → OnlySup s' sup := fun h j hj => h j (hlive j hj)
  have hno : NoSup s → NoSup s' := fun h j hj => h j (hlive j hj)
  cases stage with
  | outside => trivial
  | gate => exact hlock h
  | window => exact ⟨hlock h.1, hwin h.2⟩
  | found sup => exact ⟨hlock h.1, hwin h.2.1, honly h.2.2.1, hentered sup h.2.2.2⟩
  | judged sup =>
    refine ⟨hlock h.1, hwin h.2.1, honly h.2.2.1, h.2.2.2.imp (hopen sup h.2.1) fun hnone => ?_⟩
    rw [hdead, hnone]
  | opened sup => exact ⟨hlock h.1, hwin h.2.1, honly h.2.2.1, hopen sup h.2.1 h.2.2.2⟩
  | wrote sup until' =>
    exact ⟨hlock h.1, hwin h.2.1, honly h.2.2.1, hopen sup h.2.1 h.2.2.2.1, hdead.trans h.2.2.2.2⟩
  | waiting sup => exact ⟨hlock h.1, honly h.2⟩
  | alone => exact ⟨hlock h.1, hno h.2⟩
  | ready => exact ⟨hlock h.1, hno h.2.1, h.2.2.of_eq hdead hlast⟩
  | child sup => exact ⟨hlock h.1, honly h.2⟩

/-- What holds of a supervisor still holds when nothing of it changed but the clock. -/
theorem Sup.Stage.Holds.mono {j : Nat} {stage : Sup.Stage} (h : stage.Holds s j)
    (hchild : (∃ i, (s.starts i).stage = .child j) → ∃ i, (s'.starts i).stage = .child j)
    (hrec : s'.supervisor = s.supervisor)
    (hwin : s.windowLock = some (.sup j) → s'.windowLock = some (.sup j))
    (hdead : s'.deadline = s.deadline)
    (hlast : lastDeadline s'.history = lastDeadline s.history) (hnow : s.now ≤ s'.now) :
    stage.Holds s' j := by
  cases stage with
  | outside => trivial
  | entering => exact ⟨hchild h.1, h.2.of_eq hdead hlast⟩
  | opened => exact ⟨hrec.trans h.1, h.2.of_eq hdead hlast⟩
  | locked => exact ⟨hrec.trans h.1, h.2.1.of_eq hdead hlast, hwin h.2.2⟩
  | seen deadline =>
    exact ⟨hrec.trans h.1, h.2.1.of_eq hdead hlast, hwin h.2.2.1, hdead.trans h.2.2.2⟩
  | past =>
    obtain ⟨d, hd, hne, hle⟩ := h.2.2.2
    exact ⟨hrec.trans h.1, h.2.1.of_eq hdead hlast, hwin h.2.2.1, d, hdead.trans hd, hne,
      hle.trans hnow⟩
  | closed => exact ⟨hrec.trans h.1, hdead.trans h.2⟩

/-- A step of a `start` that changes no supervisor, no record and no deadline. -/
theorem Inv.of_start (h : Inv s) {i : Nat} {p : Start}
    (hstarts : s'.starts = Function.update s.starts i p) (hsups : s'.sups = s.sups)
    (hrec : s'.supervisor = s.supervisor) (hdead : s'.deadline = s.deadline)
    (hlast : lastDeadline s'.history = lastDeadline s.history) (hagrees : Agrees s'.history)
    (hclosed : ∀ j, .closed j ∈ s'.history → .closed j ∈ s.history) (hnow : s'.now = s.now)
    (hlock : ∀ i', i' ≠ i → s.startLock = some i' → s'.startLock = some i')
    (hwin : ∀ x, x ≠ .start i → s.windowLock = some x → s'.windowLock = some x)
    (hchild : ∀ sup, (s.starts i).stage = .child sup → p.stage = .child sup ∨
      (s.sups sup).stage ≠ .entering) (hown : p.stage.Holds s' i) : Inv s' where
  -- the other starts hold what they held
  starts i' := by
    rw [hstarts]
    by_cases hi : i' = i
    · rw [hi, Function.update_self]
      exact hown
    · rw [Function.update_of_ne hi]
      refine (h.starts i').mono (hlock i' hi) (hwin _ fun heq => hi (Holder.start.inj heq)) ?_ ?_
        ?_ hdead hlast
      · exact fun j hj => hsups ▸ hj
      · exact fun j hj => hsups ▸ hj
      · exact fun j _ hj => hsups ▸ hj
  sups j := by
    rw [hsups]
    -- a supervisor on its way in has a start that waits for it
    by_cases hentering : (s.sups j).stage = .entering
    · -- any other one does not depend on the starts
      have hholds := h.sups j
      rw [hentering] at hholds ⊢
      refine ⟨?_, hholds.2.of_eq hdead hlast⟩
      obtain ⟨i', hi'⟩ := hholds.1
      by_cases hi : i' = i
      · subst hi
        refine ⟨i', ?_⟩
        rw [hstarts, Function.update_self]
        exact (hchild j hi').resolve_right (fun hno => hno hentering)
      · refine ⟨i', ?_⟩
        rw [hstarts, Function.update_of_ne hi]
        exact hi'
    · have hholds := h.sups j
      revert hholds hentering
      cases (s.sups j).stage with
      | entering => exact fun hne => absurd rfl hne
      | outside => exact fun _ _ => trivial
      | opened => exact fun _ hh => ⟨hrec.trans hh.1, hh.2.of_eq hdead hlast⟩
      | locked =>
        exact fun _ hh => ⟨hrec.trans hh.1, hh.2.1.of_eq hdead hlast, hwin _ (by simp) hh.2.2⟩
      | seen deadline =>
        exact fun _ hh => ⟨hrec.trans hh.1, hh.2.1.of_eq hdead hlast, hwin _ (by simp) hh.2.2.1,
          hdead.trans hh.2.2.2⟩
      | past =>
        rintro - ⟨hsup, hhas, hheld, d, hd, hne, hle⟩
        exact ⟨hrec.trans hsup, hhas.of_eq hdead hlast, hwin _ (by simp) hheld, d, hdead.trans hd,
          hne, hle.trans_eq hnow.symm⟩
      | closed => exact fun _ hh => ⟨hrec.trans hh.1, hdead.trans hh.2⟩
  agrees := hagrees
  closed j hj := by
    rw [hsups]
    exact h.closed j (hclosed j hj)
  recorded j hj := by
    rw [hsups]
    exact h.recorded j (hrec ▸ hj)

/-- A step of the `start` that is past its lock. -/
theorem Inv.of_past (h : Inv s) {i : Nat} {p : Start} (hi : (s.starts i).stage ≠ .outside)
    (hstarts : s'.starts = Function.update s.starts i p) (hown : p.stage.Holds s' i)
    (hsups : ∀ j, (s'.sups j).stage.Holds s' j) (hagrees : Agrees s'.history)
    (hclosed : ∀ j, .closed j ∈ s'.history → (s'.sups j).Entered ∧ ¬ (s'.sups j).IsOpen)
    (hrecorded : ∀ j, s'.supervisor = some j → (s'.sups j).Entered) : Inv s' where
  starts i' := by
    rw [hstarts]
    by_cases hne : i' = i
    · rw [hne, Function.update_self]
      exact hown
    · rw [Function.update_of_ne hne, h.outside hi hne]
      trivial
  sups := hsups
  agrees := hagrees
  closed := hclosed
  recorded := hrecorded

/-- From one place a supervisor goes to another. -/
structure Sup.Goes (p q : Sup) : Prop where
  live : p.Live
  isOpen : p.IsOpen → q.IsOpen
  entered : p.Entered → q.Entered
  shut : p.Entered → ¬ p.IsOpen → ¬ q.IsOpen

/-- From one point of an open window a supervisor goes on to another. -/
theorem Sup.Goes.of_open {p q : Sup} (hp : p.IsOpen) (hq : q.IsOpen) : p.Goes q where
  live := hp.live
  isOpen _ := hq
  entered _ := hq.entered
  shut _ h := absurd hp h

/-- From one point of a closed window it goes on to another. -/
theorem Sup.Goes.of_closed {p q : Sup} (hp : p.stage = .closed) (hq : q.stage = .closed) :
    p.Goes q where
  live := by
    unfold Live
    rw [hp]
    trivial
  isOpen h := by
    unfold IsOpen at h
    rw [hp] at h
    exact h.elim
  entered _ := by
    cases q with
    | entry want => cases want <;> cases hq
    | idle | dropToken | record => cases hq
    | _ => trivial
  shut _ _ h := by
    unfold IsOpen at h
    rw [hq] at h
    exact h

/-- A step of a live supervisor that changes no deadline. -/
theorem Inv.of_sup (h : Inv s) {j : Nat} {p q : Sup} (hp : s.sups j = p) (hgoes : p.Goes q)
    (hsups : s'.sups = Function.update s.sups j q) (hstarts : s'.starts = s.starts)
    (hdead : s'.deadline = s.deadline) (hhist : s'.history = s.history)
    (hrec : ∀ j', s'.supervisor = some j' → s.supervisor = some j' ∨ j' = j ∧ q.Entered)
    (hlock : s'.startLock = s.startLock)
    (hwin : ∀ x, x ≠ .sup j → s.windowLock = some x → s'.windowLock = some x)
    (hown : q.stage.Holds s' j) : Inv s' where
  starts i := by
    rw [hstarts]
    refine (h.starts i).mono (fun hi => hlock.trans hi) (hwin _ (by simp)) ?_ ?_ ?_ hdead
      (by rw [hhist])
    · intro j' hj'
      by_cases heq : j' = j
      · rw [heq, hp]
        exact hgoes.live
      · rwa [hsups, Function.update_of_ne heq] at hj'
    · intro j' hj'
      by_cases heq : j' = j
      · rw [hsups, heq, Function.update_self]
        rw [heq, hp] at hj'
        exact hgoes.entered hj'
      · rwa [hsups, Function.update_of_ne heq]
    · intro j' _ hj'
      by_cases heq : j' = j
      · rw [hsups, heq, Function.update_self]
        rw [heq, hp] at hj'
        exact hgoes.isOpen hj'
      · rwa [hsups, Function.update_of_ne heq]
  sups j' := by
    rw [hsups]
    by_cases heq : j' = j
    · rw [heq, Function.update_self]
      exact hown
    · rw [Function.update_of_ne heq]
      -- there is no other
      refine Sup.Stage.holds_of_not_live (fun hlive => heq (h.only hlive ?_)) _ j'
      rw [hp]
      exact hgoes.live
  agrees := by
    rw [hhist]
    exact h.agrees
  closed j' hj' := by
    rw [hhist] at hj'
    have hbefore := h.closed j' hj'
    rw [hsups]
    by_cases heq : j' = j
    · rw [heq, hp] at hbefore
      rw [heq, Function.update_self]
      exact ⟨hgoes.entered hbefore.1, hgoes.shut hbefore.1 hbefore.2⟩
    · rwa [Function.update_of_ne heq]
  recorded j' hj' := by
    rw [hsups]
    by_cases heq : j' = j
    · rw [heq, Function.update_self]
      rcases hrec j' hj' with hbefore | ⟨-, hentered⟩
      · have := h.recorded j' hbefore
        rw [heq, hp] at this
        exact hgoes.entered this
      · exact hentered
    · rw [Function.update_of_ne heq]
      exact h.recorded j' ((hrec j' hj').resolve_right fun hand => heq hand.1)

end Omdrop.Radio.Window
