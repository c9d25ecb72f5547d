import Omdrop.Cli.Specs

namespace Omdrop.Cli

open Omdrop.Text Omdrop.Identity Fallible

/-!
# What `on` and `off` do to the counters

Under the lock they bump the counters of the identity commands, and change them in no other way:
what bumps keep, they keep.
-/


variable [SerdeJson] {α β : Type} {J : World → Prop} {host : Host}

/-- A part of a command that keeps what bumps keep. -/
def Keeps (J : World → Prop) (x : Run α) : Prop :=
  Triple (fun s => J s.desk.world) x (fun _ s => J s.desk.world) fun _ s => J s.desk.world

/-- Bumps of the counters keep `J`. -/
def Bumpable (J : World → Prop) : Prop := ∀ w w', CountersKept w w' → J w → J w'

omit [SerdeJson] in
/-- What two runs keep, one after the other keeps. -/
theorem Keeps.bind {x : Run α} {f : α → Run β} (hx : Keeps J x) (hf : ∀ a, Keeps J (f a)) :
    Keeps J (x >>= f) :=
  Triple.bind hx hf

omit [SerdeJson] in
/-- A run that does nothing keeps everything. -/
theorem Keeps.pure (a : α) : Keeps J (Pure.pure a) := Triple.pure fun _ h => h

omit [SerdeJson] in
/-- A run that only fails keeps everything. -/
theorem Keeps.fail (e : Exit) : Keeps J (Fallible.fail e : Run α) := Triple.fail fun _ h => h

omit [SerdeJson] in
/-- A change outside of the world keeps it. -/
theorem Keeps.modify {f : Running → Running} (h : ∀ s, (f s).desk.world = s.desk.world) :
    Keeps J (Fallible.modify f) :=
  Triple.modify fun s hs => by rwa [h s]

omit [SerdeJson] in
/-- What both branches keep is kept. -/
theorem Keeps.ite {c : Prop} [Decidable c] {x y : Run α} (hx : Keeps J x) (hy : Keeps J y) :
    Keeps J (if c then x else y) := by
  split
  · exact hx
  · exact hy

omit [SerdeJson] in
/-- Reading the desk changes nothing. -/
theorem desk_keeps : Keeps J desk := fun _ h => h

omit [SerdeJson] in
/-- A change of the desk outside of the world keeps it. -/
theorem setDesk_keeps {f : Desk → Desk} (h : ∀ d, (f d).world = d.world) :
    Keeps J (setDesk f) := Keeps.modify fun s => h s.desk

omit [SerdeJson] in
/-- To die is to fail. -/
theorem die_keeps (message : Text) : Keeps J (die message : Run α) := Keeps.fail _

omit [SerdeJson] in
/-- A command of the system is outside of the identity's world. -/
theorem run_keeps (argv : Argv) : Keeps J (run host argv) :=
  Keeps.bind (Keeps.modify fun _ => rfl) fun _ => Keeps.pure _

omit [SerdeJson] in
/-- What is told changes nothing of the world. -/
theorem tell_keeps (text : Text) : Keeps J (tell text) := Keeps.modify fun _ => rfl

omit [SerdeJson] in
/-- Several commands of the system are outside of the world, as one is. -/
private theorem runAll_keeps (argvs : List Argv) : Keeps J (runAll host argvs) := by
  induction argvs with
  | nil => exact Keeps.pure _
  | cons argv argvs ih => exact (run_keeps argv).bind fun _ => ih

omit [SerdeJson] in
/-- A child process that keeps the counters keeps what `Bumpable` asks for. -/
theorem child_keeps (hJ : Bumpable J) {env : Option Env} {args : Argv}
    {x : Env → World → Int × List Event × World}
    (hx : ∀ env w, CountersKept w (x env w).2.2) : Keeps J (child env args x) := by
  intro s hs
  cases env with
  | none => exact hs
  | some env => exact hJ _ _ (hx env s.desk.world) hs

/-- Every identity command keeps the counters. -/
theorem command_kept (c : Cmd) (env : Env) (w : World) :
    CountersKept w (command c env w).2.2 := (advance_next env (start c) w).1.countersKept

/-- The command `window` keeps the counters. -/
private theorem windowCommand_kept (seq : Text) (env : Env) (w : World) :
    CountersKept w (windowCommand seq env w).2.2 := by
  unfold windowCommand
  rcases pyInt seq with _ | n
  · exact .inl ⟨rfl, rfl⟩
  · exact command_kept _ env w

/-- The counters as they were. -/
def Uncounted (w : World) (s : Sys) : Prop :=
  s.world.state = w.state ∧ s.world.bumps = w.bumps

omit [SerdeJson] in
private theorem migrateLegacy_uncounted {w : World} {env : Env} {s : Sys} (h : Uncounted w s) :
    After (fun _ s => Uncounted w s) (fun _ s => Uncounted w s) (migrateLegacy env s) := by
  obtain ⟨w', n, es⟩ := s
  refine .bind (ask_spec (.ite (fun _ => h) fun _ => ?_))
  refine .bind (call_spec (fun _ => .ite (fun _ => h) fun _ => ?_) fun _ _ => h)
  refine .ite (fun _ => h) fun _ => .bind (call_spec (fun _ => ?_) fun _ _ => h)
  refine .bind (call_spec (fun _ => .ite (fun _ => h) fun _ => ?_) fun _ _ => h)
  refine .bind (call_spec (fun _ => .ite (fun _ => h) fun _ => ?_) fun _ _ => h)
  refine .bind (call_spec (fun _ => .bind (change_spec ?_)) fun _ _ => h)
  exact .bind (call_spec (fun _ => .bind (change_spec h)) fun _ _ => h)

omit [SerdeJson] in
private theorem unlinkAll_uncounted {w : World} {env : Env} {left : List KeyFile} {s : Sys}
    (h : Uncounted w s) :
    After (fun _ s => Uncounted w s) (fun _ s => Uncounted w s) (unlinkAll env left s) := by
  induction left generalizing s with
  | nil => exact h
  | cons f left ih =>
    obtain ⟨w', n, es⟩ := s
    exact .bind (.bind (call_spec (fun _ => change_spec (ih h)) fun _ _ => h))

omit [SerdeJson] in
private theorem renameLegacy_uncounted {w : World} {env : Env} {s : Sys} (h : Uncounted w s) :
    After (fun _ s => Uncounted w s) (fun _ s => Uncounted w s) (renameLegacy env s) := by
  refine .bind ((migrateLegacy_uncounted h).imp (fun p s hs => ?_) fun _ _ hs => hs)
  cases p with
  | unlinkLegacy left => exact .bind ((unlinkAll_uncounted hs).imp (fun _ _ hs => hs) fun _ _ hs => hs)
  | _ => exact hs

omit [SerdeJson] in
private theorem ensureSelfSigned_uncounted {w : World} {env : Env} :
    After (fun _ s => Uncounted w s) (fun _ s => Uncounted w s)
      (ensureSelfSigned env ⟨w, 0, []⟩) := by
  have h : Uncounted w ⟨w, 1, []⟩ := ⟨rfl, rfl⟩
  refine .bind (call_spec (fun _ => ?_) fun _ _ => h)
  rcases env.created with e | made
  · exact .bind (emit_spec h)
  · have hmade : Uncounted w ⟨madePair made w, 1, []⟩ := by
      rcases made with _ | ⟨certificate, key⟩
      · exact h
      · exact h
    refine .bind (change_spec (.bind ((renameLegacy_uncounted hmade).imp ?_ fun _ _ hs => hs)))
    exact fun _ _ hs => .bind (emit_spec hs)

omit [SerdeJson] in
private theorem ensureCommand_kept (env : Env) (w : World) :
    CountersKept w (ensureCommand env w).2.2 := by
  have h := @ensureSelfSigned_uncounted w env
  unfold ensureCommand
  rcases hrun : ensureSelfSigned env ⟨w, 0, []⟩ with ⟨e | code, s⟩
  · rw [hrun] at h
    exact .inl h
  · rw [hrun] at h
    exact .inl h

omit [SerdeJson] in
theorem cancelWindow_keeps : Keeps J (cancelWindow host) := runAll_keeps _

/-- The abort keeps what `Bumpable` asks for. -/
theorem identityAbort_keeps (hJ : Bumpable J) : Keeps J (identityAbort host) :=
  (child_keeps hJ (command_kept _)).bind fun _ =>
    (child_keeps hJ (command_kept _)).bind fun _ => Keeps.pure _

omit [SerdeJson] in
/-- The notices change nothing of the world. -/
private theorem notices_keeps (events : List Event) : Keeps J (notices host events) := by
  induction events with
  | nil => exact Keeps.pure _
  | cons e events ih =>
    cases e with
    | warn text => exact ih
    | op args res => exact ih
    | exit code => exact ih
    | say key v =>
      refine Keeps.ite ?_ ih
      refine Keeps.bind (Keeps.bind (tell_keeps v) fun _ => ?_) fun _ => ih
      exact Keeps.ite ((run_keeps _).bind fun _ => Keeps.pure _) (Keeps.pure _)

omit [SerdeJson] in
/-- The installation of the unit changes nothing of the world. -/
private theorem unitInstall_keeps (plugin : Text) : Keeps J (unitInstall host plugin) := by
  unfold unitInstall
  rcases unitText host plugin with message | rendered
  · exact die_keeps message
  · refine Keeps.ite (die_keeps _) (Keeps.bind ?_ fun _ => Keeps.bind ?_ fun _ => ?_)
    · refine desk_keeps.bind fun _ => Keeps.ite (Keeps.pure _) (Keeps.ite (die_keeps _) ?_)
      exact Keeps.bind (setDesk_keeps fun _ => rfl) fun _ => Keeps.pure _
    · refine desk_keeps.bind fun _ => Keeps.ite (Keeps.pure _) (Keeps.ite (die_keeps _) ?_)
      exact Keeps.bind (setDesk_keeps fun _ => rfl) fun _ => Keeps.pure _
    · refine Keeps.ite (Keeps.pure _) ((run_keeps _).bind fun _ => ?_)
      exact Keeps.ite (die_keeps _) (Keeps.pure _)

omit [SerdeJson] in
/-- The preparation of the identity, as the program sees it, is a command of the system. -/
private theorem prepareIdentity_keeps : Keeps J (prepareIdentity host) := by
  unfold prepareIdentity
  cases host.migrated with
  | copied  => exact (tell_keeps _).bind fun _ => Keeps.pure _
  | failed  => exact (tell_keeps _).bind fun _ => Keeps.pure _
  | nothing => exact Keeps.pure _

omit [SerdeJson] in
/-- The start of the receiver keeps what `Bumpable` asks for. -/
theorem startReceiver_keeps (hJ : Bumpable J) : Keeps J (startReceiver host) := by
  unfold startReceiver
  rcases host.plugin with _ | plugin
  · exact (tell_keeps _).bind fun _ => Keeps.pure _
  · refine (unitInstall_keeps plugin).bind fun _ => prepareIdentity_keeps.bind fun _ => ?_
    refine Keeps.ite (Keeps.pure _) (Keeps.bind ?_ fun _ => Keeps.ite (Keeps.pure _) ?_)
    · exact (child_keeps hJ ensureCommand_kept).bind fun _ => Keeps.pure _
    · exact (run_keeps _).bind fun _ => (run_keeps _).bind fun _ => Keeps.pure _

omit [SerdeJson] in
/-- The start of the radio changes nothing of the world. -/
theorem radioUp_keeps (secs : Text) : Keeps J (radioUp host secs) := by
  have hended : Keeps J (Fallible.ofExcept (radioOutcome host)) := by
    rcases radioOutcome host with e | radio
    · exact Keeps.fail e
    · exact Keeps.pure radio
  unfold radioUp
  rcases host.helper with _ | helper
  · exact hended
  · exact (run_keeps _).bind fun _ => Keeps.bind (Keeps.modify fun _ => rfl) fun _ => hended

omit [SerdeJson] in
/-- The end of the radio changes nothing of the world. -/
theorem radioStop_keeps : Keeps J (radioStop host) := by
  unfold radioStop
  rcases host.helper with _ | helper
  · exact Keeps.pure _
  · exact (run_keeps _).bind fun _ => Keeps.pure _

/-- A start that is undone keeps what `Bumpable` asks for. -/
theorem undoAndCancel_keeps (hJ : Bumpable J) (receiverUp : Bool) :
    Keeps J (undoAndCancel host receiverUp : Run α) := by
  refine cancelWindow_keeps.bind fun _ => ?_
  have hrest : Keeps J (do
      radioStop host
      identityAbort host
      Fallible.fail ⟨130, "Cancelled."⟩ : Run α) :=
    radioStop_keeps.bind fun _ => (identityAbort_keeps hJ).bind fun _ => Keeps.fail _
  exact Keeps.ite ((run_keeps _).bind fun _ => hrest) hrest

/-- A whole start keeps what `Bumpable` asks for. -/
private theorem bringUp_keeps (hJ : Bumpable J) (secs : Text) : Keeps J (bringUp host secs) := by
  have habort {x : Run Unit} (hx : Keeps J x) : Keeps J (do identityAbort host; x) :=
    (identityAbort_keeps hJ).bind fun _ => hx
  refine Keeps.ite ?_ ?_
  · refine (startReceiver_keeps hJ).bind fun _ => Keeps.ite ?_ ?_
    · exact cancelWindow_keeps.bind fun _ => habort (die_keeps _)
    · refine (radioUp_keeps secs).bind fun radio => ?_
      cases radio with
      | up         => exact Keeps.pure _
      | cancelled  => exact undoAndCancel_keeps hJ true
      | failed err =>
        refine cancelWindow_keeps.bind fun _ => (run_keeps _).bind fun _ => ?_
        exact radioStop_keeps.bind fun _ => habort (die_keeps _)
  · refine (radioUp_keeps secs).bind fun radio => ?_
    cases radio with
    | cancelled  => exact undoAndCancel_keeps hJ false
    | failed err =>
      exact cancelWindow_keeps.bind fun _ => radioStop_keeps.bind fun _ => habort (die_keeps _)
    | up         =>
      refine (startReceiver_keeps hJ).bind fun _ => Keeps.ite ?_ (Keeps.pure _)
      exact cancelWindow_keeps.bind fun _ => radioStop_keeps.bind fun _ => habort (die_keeps _)

/-- The start of a window keeps what `Bumpable` asks for. -/
private theorem startWindow_keeps (hJ : Bumpable J) (mode : Mode) (source expiry : Text) :
    Keeps J (startWindow host mode source expiry) := by
  refine cancelWindow_keeps.bind fun _ => Keeps.bind ?_ fun _ => Keeps.bind ?_ fun _ => ?_
  · refine Keeps.ite ((run_keeps _).bind fun _ => Keeps.ite ?_ (Keeps.pure _)) (Keeps.pure _)
    exact (identityAbort_keeps hJ).bind fun _ => die_keeps _
  · exact (run_keeps _).bind fun _ => Keeps.ite (tell_keeps _) (Keeps.pure _)
  · refine (bringUp_keeps hJ _).bind fun _ => Keeps.bind ?_ fun _ => Keeps.pure _
    cases mode with
    | forever => exact Keeps.pure _
    | once    => exact Keeps.pure _
    | timed dur secs =>
      refine (run_keeps _).bind fun _ => Keeps.ite (die_keeps _) ?_
      rcases host.helper with _ | helper
      · exact Keeps.pure _
      · exact (run_keeps _).bind fun _ => Keeps.pure _

/-- `on` under the lock keeps what `Bumpable` asks for. -/
theorem onLocked_keeps (hJ : Bumpable J) (mode : Mode) (seq : Text) :
    Keeps J (onLocked host mode seq) := by
  refine (child_keeps hJ (windowCommand_kept seq)).bind fun _ => Keeps.ite ?_ ?_
  · exact (tell_keeps _).bind fun _ => Keeps.pure _
  · exact Keeps.ite (die_keeps _) ((notices_keeps _).bind fun _ => startWindow_keeps hJ _ _ _)

/-- `off` under the lock keeps what `Bumpable` asks for. -/
theorem offUnderLock_keeps (hJ : Bumpable J) : Keeps J (offUnderLock host) := by
  refine (child_keeps hJ (command_kept _)).bind fun _ => (run_keeps _).bind fun _ => ?_
  refine Keeps.ite (die_keeps _) (cancelWindow_keeps.bind fun _ => radioStop_keeps.bind fun _ => ?_)
  exact (child_keeps hJ (command_kept _)).bind fun _ => Keeps.pure _

end Omdrop.Cli
