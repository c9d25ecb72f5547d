import Omdrop.Cli.Specs
import Omdrop.Identity.Generation

namespace Omdrop.Cli

open Omdrop.Text Omdrop.Identity Fallible

/-!
# A start that fails

`on_cleans` says when every way out of a start that leaves no receiver running has cleared what
`window` set up: unless the receiver's unit has to be installed and cannot be, which ends the
command on the spot (`dead_window`), or a signal ends it where the signals are untrapped
(`signalled_window`).
-/

/-! ### Ways out -/

/-- What `window` set up is cleared: `stop-begin` and `stop-end` ran last, and when the second
    succeeded there is no window file. -/
def Aborted (s : Running) : Prop :=
  ∃ ran begun ended, s.ran = ran ++ [.id ["stop-begin"] begun, .id ["stop-end"] ended] ∧
    (ended = 0 → s.desk.world.window = none)

/-- A way out that leaves no receiver running has cleared what `window` set up. -/
def Cleans (r : Except Exit Int × Running) : Prop :=
  r.2.desk.receiver = false → Aborted r.2

/-- The unit is written, when it has to be. -/
def Writes (host : Host) (rendered : Text) (d : Desk) : Prop :=
  (rendered ≠ installedUnit d → host.writesUnit = true) ∧
    (isStale d.dropin = true → host.writesDropin = true) ∧
    (rendered ≠ installedUnit d ∨ isStale d.dropin = true → host.code daemonReload = 0)

/-- The receiver's unit is installed, or can be: the plugin's files make one, and it is written
    when it has to be. -/
def Installs (host : Host) (plugin : Text) (d : Desk) : Prop :=
  ∃ rendered, unitText host plugin = .ok rendered ∧ host.createsDir = true ∧
    Writes host rendered d

/-- The receiver can be tried: `omdrop` cannot tell where it is installed, or the unit installs. -/
def Ready (host : Host) (d : Desk) : Prop :=
  ∀ plugin, host.plugin = some plugin → Installs host plugin d

/-- The expiry is armed, if there is one. -/
def Armed (host : Host) (source expiry : Text) : Prop :=
  expires source expiry = true → host.code (expiryTimer host expiry) = 0

/-- The start gets to the receiver's unit: the radio is up if it goes first. -/
def ReachesUnit (host : Host) : Prop := host.linkLocal = true ∨ radioOutcome host = .ok .up

/-- The radio goes first, and a signal that came after the last look for one ends the command. -/
def CutShort (host : Host) : Prop := host.linkLocal = false ∧ ∃ e, radioOutcome host = .error e

/-- Past the expiry the start does not break off: no signal cuts it short at the radio, and the
    receiver can be tried if it gets there. -/
def KeepsOn (host : Host) (d : Desk) : Prop :=
  ¬ CutShort host ∧ (ReachesUnit host → Ready host d)

/-- How a start ends on a desk: the receiver runs, or what `window` set up is cleared, or it broke
    off. -/
def Ends (on : Prop) (d : Desk) : Except Exit Int × Running → Prop :=
  After (fun _ s => on ∧ s.desk.receiver = true) fun _ s =>
    on ∧ (s.desk.receiver = true ∨ Aborted s) ∨
      ¬ on ∧ s.desk.receiver = d.receiver ∧ EndsOut s

theorem EndsOut.not_aborted {s : Running} (h : EndsOut s) : ¬ Aborted s := by
  rintro ⟨ran', begun, ended, hran', -⟩
  have hlast : s.ran.getLast? = some (.id ["stop-end"] ended) := by simp [hran']
  obtain ⟨ran, ⟨argv, code, hran⟩ | ⟨secs, hran⟩⟩ := h
  all_goals
    rw [hran] at hlast
    simp at hlast

/-! ### The parts -/

section Commands

variable [SerdeJson] {α : Type} {host : Host} {s : Running} {d : Desk} {E : Exit → Running → Prop}

/-- The end of a window that succeeds leaves no window file. -/
private theorem closed_of_stopEnd {env : Env} {w w' : World} {events : List Event}
    (h : command .stopEnd env w = (0, events, w')) : w'.window = none := by
  have hspec : After (fun _ s => s.world.window = none) (fun _ _ => True)
      (cmdStopEnd env ⟨w, 0, []⟩) := by
    refine .bind (removeFile_spec (fun _ => ?_) fun _ _ => trivial)
    refine .bind (currentCache_spec (fun _ => ?_) fun _ => rfl)
    rcases w.closed.currentCache with _ | p
    · exact rfl
    · refine .bind (ask_spec (.bind (.attempt (setTimeout_spec ?_ ?_ ?_ ?_))))
      · exact fun _ => rfl
      · exact fun _ _ => revoked_window _ _
      · exact fun _ _ => rfl
      · exact fun _ _ => .bind (emit_spec rfl)
  rcases hrun : cmdStopEnd env ⟨w, 0, []⟩ with ⟨e | code, s⟩
  · rw [command_of_error rfl hrun] at h
    cases h
  · rw [hrun] at hspec
    rw [command_of_ok rfl hrun] at h
    cases h
    exact hspec

theorem identityAbort_spec {Q : Unit → Running → Prop}
    (h : ∀ s', Aborted s' → Q () s') : After Q E (identityAbort host s) := by
  refine .bind (child_spec fun begun _ s₁ hran _ _ _ _ => ?_)
  refine .bind (child_spec fun ended events s₂ hran' _ _ _ hended => h s₂ ?_)
  refine ⟨s.ran, begun, ended, by simp [hran', hran], fun hzero => ?_⟩
  subst hzero
  obtain hcode | ⟨env, hx⟩ := hended
  · cases hcode
  · exact closed_of_stopEnd hx

theorem undoAndCancel_spec {receiverUp : Bool} {Q : α → Running → Prop}
    (h : ∀ e s', Aborted s' → E e s') : After Q E ((undoAndCancel host receiverUp : Run α) s) := by
  refine .bind (cancelWindow_spec fun s₁ _ _ => ?_)
  have hrest : ∀ s₁, After Q E ((do
      radioStop host
      identityAbort host
      Fallible.fail ⟨130, "Cancelled."⟩ : Run α) s₁) := by
    intro s₁
    refine .bind (radioStop_spec fun s₂ _ => ?_)
    exact .bind (identityAbort_spec fun s' hs' => h _ s' hs')
  refine .ite (fun _ => .bind (run_any fun _ s₂ => hrest s₂)) fun _ => hrest s₁

omit [SerdeJson] in
private theorem writeUnit_spec {rendered : Text} {Q : Bool → Running → Prop} (hs : EndsOut s)
    (hsame : rendered = installedUnit s.desk → Q false s)
    (hwritten : rendered ≠ installedUnit s.desk → host.writesUnit = true →
      ∀ s', s'.desk.receiver = s.desk.receiver → s'.desk.dropin = s.desk.dropin → EndsOut s' →
        Q true s')
    (hnot : ∀ e, rendered ≠ installedUnit s.desk → host.writesUnit = false → E e s) :
    After Q E (writeUnit host rendered s) := by
  refine .bind ?_
  show After _ E ((if rendered = installedUnit s.desk then _ else _ : Run Bool) s)
  refine .ite hsame fun hdiffers => .ite (fun hno => hnot _ hdiffers (by simpa using hno)) ?_
  intro hwrites
  exact hwritten hdiffers (by simpa using hwrites) _ rfl rfl hs

omit [SerdeJson] in
theorem writeDropin_spec {Q : Bool → Running → Prop} (hs : EndsOut s)
    (hsame : isStale s.desk.dropin = false → Q false s)
    (hwritten : isStale s.desk.dropin = true → host.writesDropin = true →
      ∀ s', s'.desk.receiver = s.desk.receiver → EndsOut s' → Q true s')
    (hnot : ∀ e, isStale s.desk.dropin = true → host.writesDropin = false → E e s) :
    After Q E (writeDropin host s) := by
  refine .bind ?_
  show After _ E ((if (!isStale s.desk.dropin) = true then _ else _ : Run Bool) s)
  refine .ite (fun h => hsame (by simpa using h)) fun hstale => ?_
  have hstale : isStale s.desk.dropin = true := by simpa using hstale
  refine .ite (fun hno => hnot _ hstale (by simpa using hno)) fun hwrites => ?_
  exact hwritten hstale (by simpa using hwrites) _ rfl hs

omit [SerdeJson] in
theorem reload_spec {changed : Bool} {Q : Bool → Running → Prop}
    (hok : (changed = true → host.code daemonReload = 0) → ∀ changed s', Q changed s')
    (hnot : changed = true → host.code daemonReload ≠ 0 → ∀ e s',
      s'.desk.receiver = s.desk.receiver → EndsOut s' → E e s') :
    After Q E (reload host changed s) := by
  refine .ite (fun h => hok ?_ _ s) fun hchanged => ?_
  · intro hchanged
    simp [hchanged] at h
  · refine .bind (run_spec (by decide) (by decide) fun s' hdesk hs' => ?_)
    refine .ite (fun hcode => ?_) fun hcode => ?_
    · exact hnot (by simpa using hchanged) hcode _ s' (congrArg Desk.receiver hdesk) hs'
    · exact hok (fun _ => by simpa using hcode) true s'

omit [SerdeJson] in
/-- The unit is installed, or the command ends there. -/
private theorem unitInstall_spec {plugin : Text} {Q : Bool → Running → Prop} (hs : EndsOut s)
    (hok : Installs host plugin s.desk → ∀ changed s', Q changed s')
    (hnot : ¬ Installs host plugin s.desk → ∀ e s', s'.desk.receiver = s.desk.receiver →
      EndsOut s' → E e s') : After Q E (unitInstall host plugin s) := by
  unfold unitInstall
  -- the unit has no text where the program is not installed as a whole
  rcases htext : unitText host plugin with message | rendered
  · refine hnot ?_ _ s rfl hs
    rintro ⟨rendered, h, -⟩
    rw [htext] at h
    cases h
  · have hinstalls : Installs host plugin s.desk ↔
        host.createsDir = true ∧ Writes host rendered s.desk := by
      simp [Installs, htext]
    refine .ite (fun hdir => hnot ?_ _ s rfl hs) fun hdir => ?_
    · intro h
      simp [(hinstalls.mp h).1] at hdir
    have hdir : host.createsDir = true := by simpa using hdir
    refine .bind (writeUnit_spec hs (fun hsame => ?_) (fun hdiffers hunit s₁ hr₁ hd₁ hs₁ => ?_)
      fun e hdiffers hunit => hnot ?_ e s rfl hs)
    · -- the unit was as it should be, so only the drop-in may change
      refine .bind (writeDropin_spec hs (fun hfresh => ?_) (fun hstale hdropin s₂ hr₂ hs₂ => ?_)
        fun e hstale hdropin => hnot ?_ e s rfl hs)
      · apply reload_spec
        · refine fun _ => hok (hinstalls.mpr ⟨hdir, ?_⟩)
          simp [Writes, hsame, hfresh]
        · intro h
          cases h
      · apply reload_spec
        · intro hcode
          refine hok (hinstalls.mpr ⟨hdir, ?_⟩)
          simp [Writes, hsame, hdropin, hcode rfl]
        · intro _ hcode e s' hr hends
          refine hnot (fun h => ?_) e s' (hr.trans hr₂) hends
          exact hcode ((hinstalls.mp h).2.2.2 (.inr hstale))
      · intro h
        simp [(hinstalls.mp h).2.2.1 hstale] at hdropin
    · -- the unit was written, so systemd has to read it again
      refine .bind (writeDropin_spec hs₁ (fun hfresh => ?_) (fun hstale hdropin s₂ hr₂ hs₂ => ?_)
        fun e hstale hdropin => hnot ?_ e s₁ hr₁ hs₁)
      all_goals rw [hd₁] at *
      · apply reload_spec
        · intro hcode
          refine hok (hinstalls.mpr ⟨hdir, ?_⟩)
          simp [Writes, hunit, hfresh, hcode rfl]
        · intro _ hcode e s' hr hends
          refine hnot (fun h => ?_) e s' (hr.trans hr₁) hends
          exact hcode ((hinstalls.mp h).2.2.2 (.inl hdiffers))
      · apply reload_spec
        · intro hcode
          refine hok (hinstalls.mpr ⟨hdir, ?_⟩)
          simp [Writes, hunit, hdropin, hcode rfl]
        · intro _ hcode e s' hr hends
          refine hnot (fun h => ?_) e s' (hr.trans (hr₂.trans hr₁)) hends
          exact hcode ((hinstalls.mp h).2.2.2 (.inl hdiffers))
      · intro h
        simp [(hinstalls.mp h).2.2.1 hstale] at hdropin
    · intro h
      simp [(hinstalls.mp h).2.1 hdiffers] at hunit

omit [SerdeJson] in
private theorem prepareIdentity_spec {Q : Bool → Running → Prop} (h : ∀ ok s', Q ok s') :
    After Q E (prepareIdentity host s) := by
  unfold prepareIdentity
  cases host.migrated with
  | copied  => exact .bind (tell_spec fun s' _ _ => h true s')
  | failed  => exact .bind (tell_spec fun s' _ _ => h false s')
  | nothing => exact h true s

omit [SerdeJson] in
theorem radioFailed_spec {err : Text} {Q : α → Running → Prop} (h : ∀ e, E e s) :
    After Q E ((radioFailed err : Run α) s) := h _

omit [SerdeJson] in
/-- The receiver is started, or not, or the command ends with its unit. -/
theorem startReceiver_spec {Q : Bool → Running → Prop} (hs : EndsOut s)
    (hok : Ready host s.desk → ∀ started s', (started = true → s'.desk.receiver = true) →
      Q started s')
    (hnot : ¬ Ready host s.desk → ∀ e s', s'.desk.receiver = s.desk.receiver → EndsOut s' →
      E e s') : After Q E (startReceiver host s) := by
  unfold startReceiver
  rcases hplugin : host.plugin with _ | plugin
  · have hready : Ready host s.desk := by
      intro plugin h
      rw [hplugin] at h
      cases h
    exact .bind (tell_spec fun s' _ _ => hok hready false s' fun h => nomatch h)
  · have hready : Ready host s.desk ↔ Installs host plugin s.desk := by
      simp [Ready, hplugin]
    refine .bind (unitInstall_spec hs (fun hi _ s₁ => ?_) fun hi => hnot (mt hready.mp hi))
    have hok := hok (hready.mpr hi)
    refine .bind (prepareIdentity_spec fun _ s₂ => ?_)
    refine .ite (fun _ => hok false s₂ fun h => nomatch h) fun _ => ?_
    refine .bind (.bind (child_spec fun code _ s₃ _ _ _ _ _ => ?_))
    refine .ite (fun _ => hok false s₃ fun h => nomatch h) fun _ => ?_
    refine .bind (run_any fun _ s₄ => ?_)
    refine .bind (startUnit_spec fun s' hrunning => ?_)
    exact hok _ s' fun h => hrunning (by simpa using h)

/-- **Bringing receiver and radio up.**  It is done, or every way out has cleared what `window`
    set up, except out of a unit that cannot be installed and where a signal cuts the start short. -/
theorem bringUp_spec {secs : Text} {Q : Unit → Running → Prop} (hs : EndsOut s)
    (hok : ∀ s', KeepsOn host s.desk → s'.desk.receiver = true → Q () s')
    (hclean : ∀ e s', KeepsOn host s.desk → (s'.desk.receiver = true ∨ Aborted s') → E e s')
    (hnot : ∀ e s', ¬ KeepsOn host s.desk → s'.desk.receiver = s.desk.receiver → EndsOut s' →
      E e s') : After Q E (bringUp host secs s) := by
  refine .ite (fun hlocal => ?_) fun hlocal => ?_
  · -- the receiver first
    have hwhole : ¬ CutShort host := fun h => by simp [CutShort, hlocal] at h
    refine .bind (startReceiver_spec hs (fun hready started s₁ hrunning => ?_) fun hready e s' =>
      hnot e s' fun h => hready (h.2 (.inl hlocal)))
    have hon : KeepsOn host s.desk := ⟨hwhole, fun _ => hready⟩
    have hclean := fun e s' h => hclean e s' hon h
    refine .ite (fun _ => ?_) fun hstarted => ?_
    · refine .bind (cancelWindow_spec fun s₂ _ _ => ?_)
      exact .bind (identityAbort_spec fun s' hs' => hclean _ s' (.inr hs'))
    · have hrunning : s₁.desk.receiver = true := hrunning (by simpa using hstarted)
      refine .bind (radioUp_spec (fun radio s₂ _ hdesk _ => ?_) fun e s' _ hdesk _ =>
        -- the receiver is left running
        hclean e s' (.inl (hdesk ▸ hrunning)))
      rcases radio with _ | err | _
      · exact hok s₂ hon (hdesk ▸ hrunning)
      · refine .bind (cancelWindow_spec fun s₃ _ _ => .bind (run_any fun _ s₄ => ?_))
        refine .bind (radioStop_spec fun s₅ _ => .bind (identityAbort_spec fun s' hs' => ?_))
        exact radioFailed_spec fun e => hclean e s' (.inr hs')
      · exact undoAndCancel_spec fun e s' hs' => hclean e s' (.inr hs')
  · -- the radio first
    have hlocal : host.linkLocal = false := by simpa using hlocal
    refine .bind (radioUp_spec (fun radio s₁ hradio hdesk hends => ?_) fun e s' hradio hdesk =>
      hnot e s' (fun h => h.1 ⟨hlocal, e, hradio⟩) (congrArg Desk.receiver hdesk))
    have hwhole : ¬ CutShort host := by
      rintro ⟨-, e, he⟩
      rw [hradio] at he
      cases he
    rcases radio with _ | err | _
    · rw [← hdesk] at hok hclean hnot
      refine .bind (startReceiver_spec (hends hs) (fun hready started s₂ hrunning => ?_)
        fun hready e s' => hnot e s' fun h => hready (h.2 (.inr hradio)))
      have hon : KeepsOn host s₁.desk := ⟨hwhole, fun _ => hready⟩
      refine .ite (fun _ => ?_) fun hstarted => ?_
      · refine .bind (cancelWindow_spec fun s₃ _ _ => .bind (radioStop_spec fun s₄ _ => ?_))
        exact .bind (identityAbort_spec fun s' hs' => hclean _ s' hon (.inr hs'))
      · exact hok s₂ hon (hrunning (by simpa using hstarted))
    all_goals
      have hon : KeepsOn host s.desk := by
        refine ⟨hwhole, fun h => ?_⟩
        rcases h with h | h
        · rw [hlocal] at h
          cases h
        · rw [hradio] at h
          cases h
    · refine .bind (cancelWindow_spec fun s₃ _ _ => .bind (radioStop_spec fun s₄ _ => ?_))
      refine .bind (identityAbort_spec fun s' hs' => ?_)
      exact radioFailed_spec fun e => hclean e s' hon (.inr hs')
    · exact undoAndCancel_spec fun e s' hs' => hclean e s' hon (.inr hs')

omit [SerdeJson] in
theorem offTimer_out (after unit : Text) :
    offTimer host after unit ≠ startUnit ∧ offTimer host after unit ≠ stopUnit := by
  simp [offTimer, startUnit, stopUnit]

omit [SerdeJson] in
/-- Past the radio the receiver runs, whether the window is armed or not. -/
private theorem armWindow_spec {mode : Mode} {Q : Unit → Running → Prop}
    (hok : ∀ s', s'.desk = s.desk → Q () s') (hnot : ∀ e s', s'.desk = s.desk → E e s') :
    After Q E (armWindow host mode s) := by
  cases mode with
  | timed dur secs =>
    obtain ⟨hstart, hstop⟩ := @offTimer_out host dur "omdrop-window"
    refine .bind (run_spec hstart hstop fun s₁ h₁ _ => .ite (fun _ => hnot _ s₁ h₁) fun _ => ?_)
    rcases host.helper with _ | helper
    · exact hok s₁ h₁
    · refine .bind (run_spec ?_ ?_ fun s₂ h₂ _ => hok s₂ (h₂.trans h₁))
      · simp [startUnit]
      · simp [stopUnit]
  | forever => exact hok s rfl
  | once    => exact hok s rfl

/-- From the watcher on. -/
theorem watched_spec {mode : Mode} :
    Ends (KeepsOn host s.desk) s.desk ((do
      watch host mode
      bringUp host mode.radioSecs
      armWindow host mode
      return host.status : Run Int) s) := by
  have hwatched : ∀ s₁, s₁.desk = s.desk → EndsOut s₁ →
      Ends (KeepsOn host s.desk) s.desk ((do
        bringUp host mode.radioSecs
        armWindow host mode
        return host.status : Run Int) s₁) := by
    intro s₁ h₁ hs₁
    rw [← h₁]
    refine After.bind (bringUp_spec hs₁ (fun s₂ hon hrunning => ?_)
      (fun _ s' hon hclean => .inl ⟨hon, hclean⟩)
      fun _ s' hon hsame hends => .inr ⟨hon, hsame, hends⟩)
    refine .bind (armWindow_spec (fun s' hs' => ⟨hon, hs' ▸ hrunning⟩) fun _ s' hs' => ?_)
    exact .inl ⟨hon, .inl (hs' ▸ hrunning)⟩
  refine After.bind (.bind (run_spec ?_ ?_ fun s₁ h₁ hs₁ => ?_))
  · simp [watchArgv, startUnit]
  · simp [watchArgv, stopUnit]
  · refine .ite (fun _ => tell_spec fun s₂ h₂ hran => ?_) fun _ => hwatched s₁ h₁ hs₁
    apply hwatched s₂ (h₂.trans h₁)
    unfold EndsOut
    rw [hran]
    exact hs₁

/-- **After the window is recorded.**  The receiver runs, or every way out has cleared what
    `window` set up, except where the start breaks off. -/
theorem startWindow_spec {mode : Mode} {source expiry : Text} :
    Ends (Armed host source expiry → KeepsOn host s.desk) s.desk
      (startWindow host mode source expiry s) := by
  refine After.bind (cancelWindow_spec fun s₁ h₁ _ => ?_)
  rw [← h₁]
  refine .bind (.ite (fun hexpires => ?_) fun hexpires => ?_)
  · obtain ⟨hstart, hstop⟩ := @offTimer_out host _ "omdrop-identity-expiry"
    refine .bind (run_spec hstart hstop fun s₂ h₂ _ => .ite (fun hcode => ?_) fun hcode => ?_)
    · refine .bind (identityAbort_spec fun s' hs' => .inl ⟨fun h => ?_, .inr hs'⟩)
      exact absurd (h hexpires) hcode
    · have harmed : Armed host source expiry := fun _ => by simpa using hcode
      rw [forall_prop_of_true harmed, ← h₂]
      exact watched_spec
  · have harmed : Armed host source expiry := fun h => absurd h hexpires
    rw [forall_prop_of_true harmed]
    exact watched_spec

end Commands

/-! ### Every way out -/

/-- Notices leave the desk as it is. -/
private theorem notices_spec {host : Host} {s : Running} {E : Exit → Running → Prop}
    {Q : Unit → Running → Prop} (events : List Event)
    (h : ∀ s', s'.desk = s.desk → Q () s') : After Q E (notices host events s) := by
  induction events generalizing s with
  | nil => exact h s rfl
  | cons e events ih =>
    cases e with
    | warn text => exact ih h
    | op args res => exact ih h
    | exit code => exact ih h
    | say key v =>
      have hrest : ∀ s₁, s₁.desk = s.desk → After Q E (notices host events s₁) :=
        fun s₁ h₁ => ih fun s' h' => h s' (h'.trans h₁)
      refine .ite (fun _ => .bind (.bind (tell_spec fun s₁ h₁ _ => ?_))) fun _ => hrest s rfl
      refine .ite (fun _ => .bind (run_spec ?_ ?_ fun s₂ h₂ _ => hrest s₂ (h₂.trans h₁)))
        fun _ => hrest s₁ h₁
      · simp [startUnit]
      · simp [stopUnit]

/-- **No dead window.**  When the identity window step has succeeded, every way out of a start that
    leaves no receiver running has cleared what that step set up, exactly when a receiver was
    running before, or the expiry cannot be armed, or the start is not cut short by a signal while
    the radio goes first and does not get to a unit that does not install. -/
theorem on_cleans [SerdeJson] {host : Host} {mode : Mode} {seq : Text} {s s₁ : Running}
    {events : List Event} (hwindow : child host.window ["window", "--seq", seq]
      (windowCommand seq) s = (.ok (0, events), s₁)) :
    Cleans (onLocked host mode seq s) ↔
      s₁.desk.receiver = true ∨
        (Armed host (lastSaid "source" events) (lastSaid "expiry_in" events) →
          ¬ CutShort host ∧ (ReachesUnit host → Ready host s₁.desk)) := by
  have hends : Ends (Armed host (lastSaid "source" events) (lastSaid "expiry_in" events) →
      KeepsOn host s₁.desk) s₁.desk (onLocked host mode seq s) := by
    unfold onLocked
    rw [Fallible.bind_of_ok hwindow]
    refine After.bind (notices_spec events fun s₂ h₂ => ?_)
    rw [← h₂]
    exact startWindow_spec
  rcases hrun : onLocked host mode seq s with ⟨e | code, s'⟩
  · rw [hrun] at hends
    rcases hends with ⟨hon, hclean⟩ | ⟨hon, hsame, hout⟩
    · refine iff_of_true (fun hno => ?_) (.inr hon)
      rcases hclean with hrunning | haborted
      · rw [hrunning] at hno
        cases hno
      · exact haborted
    · -- the start broke off: nothing is cleared
      constructor
      · intro hcleans
        by_cases hrunning : s₁.desk.receiver = true
        · exact .inl hrunning
        · exact absurd (hcleans (hsame.trans (by simpa using hrunning))) hout.not_aborted
      · rintro (hrunning | hholds)
        · intro hno
          rw [hsame, hrunning] at hno
          cases hno
        · exact absurd hholds hon
  · rw [hrun] at hends
    obtain ⟨hon, hrunning⟩ := hends
    refine iff_of_true (fun hno => ?_) (.inr hon)
    rw [hrunning] at hno
    cases hno

/-- A plugin that is installed, on a computer where everything works. -/
def sampleHost (templateReadable : Bool) : Host where
  window := some sampleEnv
  stopBegin := some sampleEnv
  stopEnd := some sampleEnv
  ensureTls := some sampleEnv
  code _ := 0
  linkLocal := true
  helper := none
  gate := .cancelled
  command := "/p/bin/omdrop"
  plugin := some "/p".toList
  receiver := none
  home := "/h"
  dropinPath := "/c"
  templateReadable
  template := some "ExecStart=@PLUGIN_DIR@/bin/airdrop-serve.py\n".toList
  scriptReadable := true
  createsDir := true
  writesUnit := true
  writesDropin := true
  migrated := .nothing
  notifies := false
  status := 0

/-- Nothing runs and nothing is set. -/
def sampleRunning : Running :=
  ⟨⟨{ sampleBoot.world with settings := none }, false, none, none⟩, [], []⟩

section

attribute [local instance] sampleJson

theorem on_cleans_sample : Cleans (onLocked (sampleHost true) .forever "0" sampleRunning) := by
  have hwindow : (child (sampleHost true).window ["window", "--seq", "0"] (windowCommand "0")
      sampleRunning).1 = .ok (0, [.say "source" "self-signed", .exit 0]) := by decide +kernel
  apply (on_cleans (Prod.ext hwindow rfl)).mpr
  refine .inr fun _ => ⟨fun h => absurd h.1 (by decide), fun _ plugin hplugin => ?_⟩
  obtain rfl : "/p".toList = plugin := Option.some.inj hplugin
  have htext : unitText (sampleHost true) "/p" = .ok "ExecStart=/p/bin/airdrop-serve.py" := by
    decide +kernel
  exact ⟨_, htext, rfl, fun _ => rfl, fun _ => rfl, fun _ => rfl⟩

/-- What a way out has left: whether the receiver runs, whether a window is recorded, and whether
    an identity command was the last thing it ran. -/
def leftBy (r : Except Exit Int × Running) : Bool × Bool × Option Bool :=
  (r.2.desk.receiver, r.2.desk.world.window.isSome, r.2.ran.getLast?.map fun
    | .id .. => true
    | _      => false)

theorem not_aborted_of_leftBy {r : Except Exit Int × Running}
    (h : leftBy r = (false, true, some false)) :
    r.2.desk.receiver = false ∧ r.2.desk.world.window.isSome = true ∧ ¬ Aborted r.2 ∧
      ¬ Cleans r := by
  simp only [leftBy, Prod.mk.injEq] at h
  obtain ⟨hreceiver, hwindow, hlast⟩ := h
  have hopen : ¬ Aborted r.2 := by
    rintro ⟨ran, begun, ended, hran, -⟩
    rw [hran] at hlast
    simp at hlast
  exact ⟨hreceiver, hwindow, hopen, fun hcleans => hopen (hcleans hreceiver)⟩

/-- **A dead window.**  The identity window is recorded, the unit's template cannot be read, and
    the command ends there. -/
theorem dead_window :
    let r := onLocked (sampleHost false) .forever "0" sampleRunning
    r.2.desk.receiver = false ∧ r.2.desk.world.window.isSome = true ∧ ¬ Aborted r.2 ∧
      ¬ Cleans r :=
  not_aborted_of_leftBy (by decide +kernel)

/-- A computer without a link-local address, where the radio helper's end is met by a signal. -/
def signalledHost : Host :=
  { sampleHost true with linkLocal := false, helper := some "/p/radio".toList, gate := .caughtLate }

/-- **Another dead window.**  The signals are untrapped after the radio, one is found caught, and the
    command ends there. -/
theorem signalled_window :
    let r := onLocked signalledHost .forever "0" sampleRunning
    r.2.desk.receiver = false ∧ r.2.desk.world.window.isSome = true ∧ ¬ Aborted r.2 ∧
      ¬ Cleans r :=
  not_aborted_of_leftBy (by decide +kernel)

end

end Omdrop.Cli
