import Omdrop.Cli.Window

namespace Omdrop.Cli

open Omdrop.Text Omdrop.Identity Fallible

/-!
# What the parts of `on` and `off` do

For each way to start a program, what it leaves of the desk and of what was started.
-/

/-- The last program that a command started was not an identity command. -/
def EndsOut (s : Running) : Prop :=
  ∃ ran, (∃ argv code, s.ran = ran ++ [.run argv code]) ∨ ∃ secs, s.ran = ran ++ [.radio secs]

section Programs

variable {host : Host} {s : Running} {E : Exit → Running → Prop}

/-- What a command of the system does to the desk. -/
theorem run_eq (host : Host) (argv : Argv) (s : Running) :
    run host argv s = (.ok (host.code argv), { s with
      desk := { s.desk with receiver := receiverAfter argv (host.code argv) s.desk.receiver }
      ran := s.ran ++ [.run argv (host.code argv)] }) := rfl

/-- A program that is not about the receiver leaves the desk as it is. -/
theorem run_spec {argv : Argv} {Q : Int → Running → Prop}
    (hstart : argv ≠ startUnit) (hstop : argv ≠ stopUnit)
    (h : ∀ s', s'.desk = s.desk → EndsOut s' → Q (host.code argv) s') :
    After Q E (run host argv s) := by
  apply h
  · simp [receiverAfter, hstart, hstop]
  · exact ⟨s.ran, .inl ⟨argv, _, rfl⟩⟩

/-- Whatever a program is about. -/
theorem run_any {argv : Argv} {Q : Int → Running → Prop} (h : ∀ code s', Q code s') :
    After Q E (run host argv s) := h _ _

/-- A receiver that is started runs. -/
theorem startUnit_spec {Q : Int → Running → Prop}
    (h : ∀ s', (host.code startUnit = 0 → s'.desk.receiver = true) → Q (host.code startUnit) s') :
    After Q E (run host startUnit s) := by
  apply h
  intro hcode
  simp [receiverAfter, hcode]

/-- Telling something leaves the desk. -/
theorem tell_spec {text : Text} {Q : Unit → Running → Prop}
    (h : ∀ s', s'.desk = s.desk → s'.ran = s.ran → Q () s') : After Q E (tell text s) :=
  h _ rfl rfl

/-- Programs that are not about the receiver. -/
private theorem runAll_spec {argvs : List Argv} {Q : Unit → Running → Prop}
    (hout : ∀ argv ∈ argvs, argv ≠ startUnit ∧ argv ≠ stopUnit) (hs : argvs = [] → EndsOut s)
    (h : ∀ s', s'.desk = s.desk → EndsOut s' → Q () s') : After Q E (runAll host argvs s) := by
  induction argvs generalizing s with
  | nil => exact h s rfl (hs rfl)
  | cons argv argvs ih =>
    obtain ⟨hstart, hstop⟩ := hout argv List.mem_cons_self
    refine .bind (run_spec hstart hstop fun s₁ hdesk hs₁ => ?_)
    apply ih (fun argv' h' => hout argv' (List.mem_cons_of_mem _ h')) fun _ => hs₁
    intro s' hs' hends
    exact h s' (hs'.trans hdesk) hends

/-- To cancel a window neither starts nor stops the receiver. -/
private theorem cancelUnits_out : ∀ argv ∈ cancelUnits, argv ≠ startUnit ∧ argv ≠ stopUnit :=
  by decide

/-- To cancel a window leaves the desk, and ends with a program that is no identity command. -/
theorem cancelWindow_spec {Q : Unit → Running → Prop}
    (h : ∀ s', s'.desk = s.desk → EndsOut s' → Q () s') : After Q E (cancelWindow host s) :=
  runAll_spec cancelUnits_out (fun hnil => nomatch hnil) h

/-- To stop the radio leaves the desk. -/
theorem radioStop_spec {Q : Unit → Running → Prop}
    (h : ∀ s', s'.desk = s.desk → Q () s') : After Q E (radioStop host s) := by
  unfold radioStop
  cases host.helper with
  | none => exact h s rfl
  | some helper =>
    refine .bind (run_spec ?_ ?_ fun s' hs' _ => h s' hs')
    · simp [startUnit]
    · simp [stopUnit]

/-- The radio comes to something, or the command ends where the signals are untrapped. -/
theorem radioUp_spec {secs : Text} {Q : Radio → Running → Prop}
    (h : ∀ radio s', radioOutcome host = .ok radio → s'.desk = s.desk →
      (EndsOut s → EndsOut s') → Q radio s')
    (hout : ∀ e s', radioOutcome host = .error e → s'.desk = s.desk → EndsOut s' → E e s') :
    After Q E (radioUp host secs s) := by
  unfold radioUp
  rcases hhelper : host.helper with _ | helper
  · have hradio : radioOutcome host = .ok .up := by
      unfold radioOutcome
      rw [hhelper]
    show After Q E (radioOutcome host, s)
    rw [hradio]
    exact h .up s hradio rfl id
  · refine .bind (run_spec ?_ ?_ fun s₁ hdesk _ => .bind ?_)
    · simp [startUnit]
    · simp [stopUnit]
    · have hends : EndsOut { s₁ with ran := s₁.ran ++ [.radio secs] } :=
        ⟨s₁.ran, .inr ⟨secs, rfl⟩⟩
      show After Q E (radioOutcome host, { s₁ with ran := s₁.ran ++ [.radio secs] })
      rcases hradio : radioOutcome host with e | radio
      · exact hout e _ hradio hdesk hends
      · exact h radio _ hradio hdesk fun _ => hends

end Programs

section Children

variable [SerdeJson] {s : Running} {E : Exit → Running → Prop}

omit [SerdeJson] in
/-- A child process changes the world, and its exit is seen. -/
theorem child_spec {env : Option Env} {args : Argv} {x : Env → World → Int × List Event × World}
    {Q : Int × List Event → Running → Prop}
    (h : ∀ code events s', s'.ran = s.ran ++ [.id args code] →
      s'.desk.receiver = s.desk.receiver → s'.desk.unit = s.desk.unit →
      s'.desk.dropin = s.desk.dropin →
      (code = 127 ∨ ∃ env, x env s.desk.world = (code, events, s'.desk.world)) →
      Q (code, events) s') : After Q E (child env args x s) := by
  cases env with
  | none => exact h _ _ _ rfl rfl rfl rfl (.inl rfl)
  | some env => exact h _ _ _ rfl rfl rfl rfl (.inr ⟨env, rfl⟩)

omit [SerdeJson] in
/-- A child that can be started. -/
theorem child_some {env : Env} {args : Argv} {x : Env → World → Int × List Event × World}
    {code : Int} {events : List Event} {w' : World} (hx : x env s.desk.world = (code, events, w')) :
    child (some env) args x s = (.ok (code, events), { s with
      desk := { s.desk with world := w' }
      ran := s.ran ++ [.id args code] }) := by
  simp only [child, hx]

omit [SerdeJson] in
/-- The exit code is that of the last event. -/
theorem exitCode_append (events : List Event) (code : Int) :
    exitCode (events ++ [.exit code]) = code := by
  simp [exitCode]

/-- An identity command of one step that returns. -/
theorem command_of_ok {c : Cmd} {x : R Int} {env : Env} {w : World} {code : Int} {s : Sys}
    (hc : next env (start c) = returning x) (h : x ⟨w, 0, []⟩ = (.ok code, s)) :
    command c env w = (code, s.events ++ [.exit code], s.world) := by
  have hnext : next env (start c) ⟨w, 0, []⟩ =
      (.ok .done, { s with events := s.events ++ [.exit code] }) := by
    rw [hc]
    exact Fallible.bind_of_ok h
  simp [command, advance, hnext, exitCode_append]

/-- An identity command of one step that fails. -/
theorem command_of_error {c : Cmd} {x : R Int} {env : Env} {w : World} {e : Fail} {s : Sys}
    (hc : next env (start c) = returning x) (h : x ⟨w, 0, []⟩ = (.error e, s)) :
    command c env w =
      (1, s.events ++ [.warn ("omdrop: ".toList ++ e.text), .exit 1], s.world) := by
  have hnext : next env (start c) ⟨w, 0, []⟩ = (.error e, s) := by
    rw [hc]
    exact Fallible.bind_of_error h
  have hcode := exitCode_append (s.events ++ [.warn ("omdrop: ".toList ++ e.text)]) 1
  rw [List.append_assoc] at hcode
  simp only [command, advance, hnext, List.flatMap_cons, List.flatMap_nil, List.append_nil]
  exact Prod.ext hcode rfl

end Children

end Omdrop.Cli
