import Omdrop.Machine.Pool
import Omdrop.Cli.Keeping
import Omdrop.Cli.Abort

namespace Omdrop.Cli

open Omdrop.Text Omdrop.Identity Fallible

/-!
# Off wins over an earlier on

Any number of `on`s, `off`s and identity commands at once.  An `on` reads the sequence number in
its `begin`, and with the lock `window` refuses when the number has moved.  `off_wins` says that an
`off` in between is enough, and `off_loses` that it is not when the number comes round.
-/

section Runs

variable [SerdeJson]

/-! ### The commands -/

/-- A command line: `on`, `off`, or one of the identity commands. -/
inductive Order
  | on (mode : Mode)
  | off
  | identity (c : Cmd)

/-- How far it has come: an `on` in its `begin`, with what that printed, and then at the lock with
    the sequence number; an `off` at the lock; an identity command. -/
inductive Job
  | begin (mode : Mode) (p : Proc) (said : List Event)
  | locked (mode : Mode) (number : Text)
  | off
  | identity (p : Proc)
  | done
  deriving DecidableEq

/-- What a step finds outside. -/
structure Input where
  env : Env
  host : Host

/-- What a step did: a step of an identity command, or a section under the lock, how it ended and
    what it started. -/
inductive Did
  | moved (m : Moved)
  | on (result : Except Exit Int) (ran : List Ran)
  | off (result : Except Exit Unit) (ran : List Ran)

/-- An `on` after its `begin`. -/
def afterBegin (mode : Mode) (said : List Event) : Job :=
  if exitCode said = 0 then .locked mode (lastSaid seq said) else .done

/-- The next step of a command; a section under the lock is one. -/
def Job.advance (i : Input) (job : Job) (d : Desk) : Job × List Did × Desk :=
  match job with
  | .begin mode p said =>
    let (p', moved, world) := Identity.advance i.env p d.world
    let said := said ++ moved.flatMap Moved.events
    (if p' = .done then afterBegin mode said else .begin mode p' said,
      moved.map .moved, { d with world })
  | .locked mode number =>
    let (result, s) := onLocked i.host mode number ⟨d, [], []⟩
    (.done, [.on result s.ran], s.desk)
  | .off =>
    let (result, s) := offUnderLock i.host ⟨d, [], []⟩
    (.done, [.off result s.ran], s.desk)
  | .identity p =>
    let (p', moved, world) := Identity.advance i.env p d.world
    (.identity p', moved.map .moved, { d with world })
  | .done => (.done, [], d)

/-- Where a command starts. -/
def Job.start : Order → Job
  | .on mode    => .begin mode .createPair []
  | .off        => .off
  | .identity c => .identity (Identity.start c)

/-- Any number of commands at once. -/
def orders : Pool Desk Job Order Input Outside Did :=
  ⟨Job.start, Job.advance, fun e d => { d with world := outside e d.world }⟩

abbrev Orders := Pool.State Desk Job Did

abbrev Move := Pool.Action Order Input Outside

/-! ### The counters -/

/-- What bumps and commands keep is kept by every step of a job. -/
theorem advance_keeps {J : World → Prop} (hJ : Bumpable J) (i : Input) (job : Job) {d : Desk}
    (h : J d.world) : J (job.advance i d).2.2.world := by
  cases job with
  | begin mode p said => exact hJ _ _ (advance_next i.env p d.world).1.countersKept h
  | identity p        => exact hJ _ _ (advance_next i.env p d.world).1.countersKept h
  | done              => exact h
  | locked mode number =>
    have hkeeps := @onLocked_keeps _ _ i.host hJ mode number ⟨d, [], []⟩ h
    rcases hrun : onLocked i.host mode number ⟨d, [], []⟩ with ⟨e | code, s⟩
    · rw [hrun] at hkeeps
      simp only [Job.advance, hrun]
      exact hkeeps
    · rw [hrun] at hkeeps
      simp only [Job.advance, hrun]
      exact hkeeps
  | off =>
    have hkeeps := @offUnderLock_keeps _ _ i.host hJ ⟨d, [], []⟩ h
    rcases hrun : offUnderLock i.host ⟨d, [], []⟩ with ⟨e | code, s⟩
    · rw [hrun] at hkeeps
      simp only [Job.advance, hrun]
      exact hkeeps
    · rw [hrun] at hkeeps
      simp only [Job.advance, hrun]
      exact hkeeps

omit [SerdeJson] in
/-- The outside world touches no counter. -/
private theorem outside_kept (e : Outside) (w : World) : CountersKept w (outside e w) := by
  cases e <;> exact .inl ⟨rfl, rfl⟩

/-- What bumps and commands keep is kept in every run. -/
theorem run_keeps_world {J : World → Prop} (hJ : Bumpable J) {s : Orders} (h : J s.shared.world)
    (as : List Move) : J (orders.machine.run s as).shared.world := by
  have hrule : orders.Invariant (fun _ _ _ => True) (fun d => J d.world) fun _ _ _ => True := by
    apply Pool.Invariant.of_shared
    · exact fun d job i _ hd => advance_keeps hJ i job hd
    · exact fun d e hd => hJ _ _ (outside_kept e d.world) hd
  exact (hrule.run ⟨h, fun _ _ _ => trivial⟩ (.of_forall fun _ _ _ => trivial)).1

/-- Since `u` the sequence number was bumped, so far as its counter tells. -/
def Since (u w : World) : Prop :=
  ∃ n, w.bumps seq = u.bumps seq + n ∧ w.counter seq = (u.counter seq + n) % counterRange

omit [SerdeJson] in
/-- A world comes after itself. -/
private theorem since_refl (u : World) : Since u u :=
  ⟨0, rfl, (Nat.mod_eq_of_lt (counter_lt _ _)).symm⟩

omit [SerdeJson] in
/-- That one world comes after another is kept. -/
theorem since_bumpable (u : World) : Bumpable (Since u) := by
  rintro w w' hkept ⟨n, hbumps, hcounter⟩
  rcases hkept with ⟨hstate, hsame⟩ | ⟨name, hname, hstate, hsame⟩
  · refine ⟨n, hsame ▸ hbumps, ?_⟩
    rw [← hcounter]
    simp only [World.counter, hstate]
  · have hcounter' : w'.counter seq = (w.bumped name).counter seq := by
      simp only [World.counter, hstate]
    rcases hname with rfl | rfl
    · refine ⟨n, ?_, ?_⟩
      · rw [hsame, bumped_bumps, Function.update_of_ne (by decide), hbumps]
      · rw [hcounter', counter_bumped _ clean_gen, if_neg (by decide), hcounter]
    · refine ⟨n + 1, ?_, ?_⟩
      · rw [hsame, bumped_bumps, Function.update_self, hbumps, Nat.add_assoc]
      · rw [hcounter', counter_bumped _ clean_seq, if_pos rfl, hcounter, Nat.mod_add_mod,
          Nat.add_assoc]

/-- The sequence number was bumped since `u`. -/
def Bumped (u w : World) : Prop := Since u w ∧ u.bumps seq < w.bumps seq

omit [SerdeJson] in
/-- That a counter has moved is kept by bumps and commands. -/
theorem bumped_bumpable (u : World) : Bumpable (Bumped u) :=
  fun w w' hkept h => ⟨since_bumpable u w w' hkept h.1, h.2.trans_le (hkept.le seq)⟩

omit [SerdeJson] in
/-- A number that was bumped is another one, unless it came round. -/
theorem Bumped.counter_ne {u w : World} (h : Bumped u w)
    (hfew : w.bumps seq < u.bumps seq + counterRange) : w.counter seq ≠ u.counter seq := by
  obtain ⟨⟨n, hbumps, hcounter⟩, hlt⟩ := h
  rw [hbumps] at hlt hfew
  rw [hcounter]
  intro hsame
  have hu := Nat.mod_eq_of_lt (counter_lt u seq)
  have hround : u.counter seq + n ≡ u.counter seq + 0 [MOD counterRange] := by
    rw [Nat.ModEq, hsame, Nat.add_zero, hu]
  have hdvd := (Nat.modEq_zero_iff_dvd).mp (Nat.ModEq.add_left_cancel' _ hround)
  have hzero := Nat.eq_zero_of_dvd_of_lt hdvd (by omega)
  omega

/-! ### What `begin` prints -/

/-- What `begin` does after it has read the sequence number. -/
def Later : Proc → Bool
  | .beginMode | .beginCache | .beginWindow | .fillCache .begin => true
  | .fetchItem f | .fetchFiles f _ _ | .fetchCheck f _ _ | .fetchEncode f _ _ _
  | .publish f _ => f.caller = .begin
  | .done => true
  | _ => false

/-- Nothing is printed of the sequence number. -/
def Quiet (es : List Event) : Prop := ∀ v, Event.say seq v ∉ es

omit [SerdeJson] in
/-- What says nothing of a sequence does not change what was said of it last. -/
private theorem lastSaid_append_quiet {said es : List Event} (h : Quiet es) :
    lastSaid seq (said ++ es) = lastSaid seq said := by
  have hnone : es.filterMap (valueSaid seq) = [] := by
    rw [List.filterMap_eq_nil_iff]
    intro e he
    cases e with
    | say k v =>
      refine if_neg fun hk => h v ?_
      rw [← hk]
      exact he
    | warn text => rfl
    | op args res => rfl
    | exit code => rfl
  simp only [lastSaid, List.filterMap_append, hnone, List.append_nil]

section Printing

variable {env : Env} {w : World} {n : Nat} {es : List Event}

/-- A step of `begin` that prints nothing of the sequence number. -/
def Hushed : Except Fail Proc × Sys → Prop :=
  After (fun p s => Later p = true ∧ Quiet s.events) fun _ s => Quiet s.events

omit [SerdeJson] in
/-- Nothing said is quiet. -/
private theorem quiet_nil : Quiet [] := fun _ h => absurd h List.not_mem_nil

omit [SerdeJson] in
/-- Two quiet outputs make a quiet one. -/
theorem Quiet.append {fs : List Event} (h : Quiet es) (h' : Quiet fs) : Quiet (es ++ fs) := by
  intro v hv
  rcases List.mem_append.mp hv with hv | hv
  · exact h v hv
  · exact h' v hv

omit [SerdeJson] in
/-- An exit says nothing of a sequence. -/
private theorem quiet_exit (code : Int) : Quiet [.exit code] := by simp [Quiet]

omit [SerdeJson] in
/-- A command that exits says nothing of one more. -/
theorem exit_hushed {code : Int} (h : Quiet es) : Hushed (exit code ⟨w, n, es⟩) :=
  exit_spec ⟨rfl, h.append (quiet_exit code)⟩

omit [SerdeJson] in
/-- The outcome of a fetch for `begin` says nothing of a sequence. -/
theorem filled_hushed {o : Outcome} {why : Option Fail} (h : Quiet es) :
    Hushed (filled .begin o why ⟨w, n, es⟩) := by
  cases o with
  | failed =>
    refine After.bind (emit_spec (exit_hushed (h.append ?_)))
    simp [Quiet, seq]
  | _ => exact exit_hushed h

omit [SerdeJson] in
/-- A fetch around a quiet command is quiet. -/
theorem fetching_hushed {x : R Proc} (h : Hushed (x ⟨w, n, es⟩)) :
    Hushed (fetching .begin x ⟨w, n, es⟩) := by
  refine After.bind (.attempt (After.imp h (fun _ _ h => h) fun e s hs => ?_))
  obtain ⟨w', n', es'⟩ := s
  cases e with
  | fetch e => exact filled_hushed hs
  | _ => exact hs

/-- The publication says nothing of a sequence. -/
private theorem publishIfCurrent_hushed {f : Fetched} {g : Nat} (h : Quiet es) :
    After (fun _ s => Quiet s.events) (fun _ s => Quiet s.events)
      (publishIfCurrent env f g ⟨w, n, es⟩) := by
  refine .bind (call_spec (fun _ => ?_) fun _ _ => h)
  refine .bind (counter_spec (fun _ => .ite (fun _ => h) fun _ => ?_) fun _ _ => h)
  refine .bind (readWindow_spec (fun _ => .ite (fun _ => h) fun _ => ?_) fun _ _ => h)
  rcases parsePayload f.data with _ | p
  · exact h
  · exact .bind (ask_spec (.bind (publish_spec (fun _ => h) fun _ _ => h)))

/-- **After the number is read**, `begin` prints nothing more of it. -/
theorem next_hushed {p : Proc} (hp : Later p = true) : Hushed (next env p ⟨w, 0, []⟩) := by
  have hq := quiet_nil
  have hop : ∀ {args} res, Quiet [.op args res] := by simp [Quiet]
  cases p with
  -- what comes before the fetch reads files, and exits or goes on
  | beginMode =>
    refine After.bind (mode_spec (fun _ => ?_) fun _ _ => hq)
    exact .ite (fun _ => exit_hushed hq) fun _ => ⟨rfl, hq⟩
  | beginCache =>
    refine After.bind (currentCache_spec (fun _ => ?_) fun _ => ?_)
    · exact .bind (ask_spec (.ite (fun _ => exit_hushed hq) fun _ => ⟨rfl, hq⟩))
    · exact .bind (ask_spec (.ite (fun _ => exit_hushed hq) fun _ => ⟨rfl, hq⟩))
  | beginWindow =>
    refine After.bind (readWindow_spec (fun _ => ?_) fun _ _ => hq)
    rcases windowOf w.window with _ | _ | existing
    · exact ⟨rfl, hq⟩
    · exact ⟨rfl, hq⟩
    · exact exit_hushed hq
  -- only a fetch for `begin` is meant
  | fillCache c =>
    cases c with
    | unlock => cases hp
    | begin =>
      refine After.bind (call_spec (fun _ => ?_) fun _ _ => hq)
      exact .bind (counter_spec (fun _ => .bind (ask_spec ⟨rfl, hq⟩)) fun _ _ => hq)
  | fetchItem f =>
    obtain ⟨_, g, asOf⟩ := f
    obtain rfl := of_decide_eq_true hp
    exact fetching_hushed (itemRef_comes (fun _ => ⟨rfl, hq⟩) fun _ _ => hq)
  | fetchFiles f ref stored =>
    obtain ⟨_, g, asOf⟩ := f
    obtain rfl := of_decide_eq_true hp
    -- `op` tells what it printed, which says nothing of a sequence
    refine fetching_hushed (.bind (op_comes (fun raw _ => ?_) fun _ _ => hop _))
    exact .ite (fun _ => ⟨rfl, hop _⟩) fun _ => ⟨rfl, hop _⟩
  | fetchCheck f ref stored =>
    obtain ⟨_, g, asOf⟩ := f
    obtain rfl := of_decide_eq_true hp
    apply fetching_hushed
    rcases checkFiles env stored with _ | problem
    · exact After.bind (ask_spec ⟨rfl, hq⟩)
    · exact hq
  | fetchEncode f ref stored t0 =>
    obtain ⟨_, g, asOf⟩ := f
    obtain rfl := of_decide_eq_true hp
    apply fetching_hushed
    refine After.bind (settings_spec (fun _ => ?_) fun _ _ => hq)
    refine .bind (call_spec (fun _ => ?_) fun _ _ => hq)
    rcases payloadOf env (fieldsOf w.settings) t0 stored with _ | data
    · exact hq
    · exact ⟨rfl, hq⟩
  | publish f payload =>
    obtain ⟨_, g, asOf⟩ := f
    obtain rfl := of_decide_eq_true hp
    -- a fetch that is published, or is not, says so to `begin`
    refine After.bind (.attempt ((publishIfCurrent_hushed hq).imp (fun o s hs => ?_)
      fun e s hs => ?_))
    · obtain ⟨w', n', es'⟩ := s
      exact filled_hushed hs
    · obtain ⟨w', n', es'⟩ := s
      cases e with
      | keyring e => exact filled_hushed hs
      | _ => exact hs
  | done => exact ⟨rfl, hq⟩
  | _ => cases hp

end Printing

/-! ### The number that an `on` has -/

section Numbers

variable {i : Input} {mode : Mode} {said : List Event} {d : Desk}

/-- An `on` that has read a number: its `begin` printed it last, or it is at the lock with it. -/
def Knows (n : Nat) : Job → Prop
  | .begin _ p said  => Later p = true ∧ lastSaid seq said = decimal n
  | .locked _ number => number = decimal n
  | .done            => True
  | _                => False

/-- A step of `begin` goes on to the next, or to what comes after `begin`. -/
theorem begin_ok {p p' : Proc} {s : Sys} (h : next i.env p ⟨d.world, 0, []⟩ = (.ok p', s)) :
    (Job.advance i (.begin mode p said) d).1 =
      if p' = .done then afterBegin mode (said ++ s.events)
      else .begin mode p' (said ++ s.events) := by
  simp [Job.advance, Identity.advance, h]

/-- A `begin` that fails ends the job. -/
theorem begin_error {p : Proc} {e : Fail} {s : Sys}
    (h : next i.env p ⟨d.world, 0, []⟩ = (.error e, s)) :
    (Job.advance i (.begin mode p said) d).1 = .done := by
  have hcode := exitCode_append (said ++ s.events ++ [.warn ("omdrop: ".toList ++ e.text)]) 1
  simp only [List.append_assoc, List.cons_append, List.nil_append] at hcode
  simp only [Job.advance, Identity.advance, h, List.flatMap_cons, List.flatMap_nil,
    List.append_nil, if_true, afterBegin]
  rw [if_neg]
  rw [hcode]
  decide

/-- The step that reads it. -/
private theorem knows_read :
    Knows (d.world.counter seq) (Job.advance i (.begin mode .beginSeq said) d).1 := by
  have hspec : After (fun p s => p = .beginMode ∧
      s.events = [.say seq (decimal (d.world.counter seq))]) (fun _ _ => True)
      (next i.env .beginSeq ⟨d.world, 0, []⟩) := by
    refine .bind (call_spec (fun _ => ?_) fun _ _ => trivial)
    exact .bind (counter_spec (fun _ => .bind (emit_spec ⟨rfl, rfl⟩)) fun _ _ => trivial)
  rcases hr : next i.env .beginSeq ⟨d.world, 0, []⟩ with ⟨e | p', s⟩
  · rw [begin_error hr]
    trivial
  · rw [hr] at hspec
    obtain ⟨rfl, hevents⟩ := hspec
    rw [begin_ok hr, if_neg (by decide), hevents]
    exact ⟨rfl, by simp [lastSaid, valueSaid]⟩

/-- The steps after it. -/
private theorem knows_advance {n : Nat} {job : Job} (h : Knows n job) :
    Knows n (job.advance i d).1 := by
  cases job with
  | done     => trivial
  | off      => exact h.elim
  | identity => exact h.elim
  | locked mode number => trivial
  | begin mode p said =>
    obtain ⟨hlater, hsaid⟩ := h
    have hhushed := @next_hushed _ i.env d.world _ hlater
    rcases hr : next i.env p ⟨d.world, 0, []⟩ with ⟨e | p', s⟩
    · rw [begin_error hr]
      trivial
    · rw [hr] at hhushed
      obtain ⟨hlater', hquiet⟩ := hhushed
      have hsaid' := (@lastSaid_append_quiet said _ hquiet).trans hsaid
      rw [begin_ok hr]
      by_cases hdone : p' = .done
      · rw [if_pos hdone, afterBegin]
        split
        · exact hsaid'
        · trivial
      · rw [if_neg hdone]
        exact ⟨hlater', hsaid'⟩

end Numbers

/-! ### The window step -/

omit [SerdeJson] in
/-- A number holds no space to trim. -/
private theorem trim_decimal (n : Nat) : trim (decimal n) = decimal n := by
  have hdigit : ∀ c ∈ decimal n, isWhitespace c = false :=
    fun c hc => isWhitespace_of_isDigit (isDigit_of_mem_decimal hc)
  have hstart : trimStart (decimal n) = decimal n := by
    rcases hn : decimal n with _ | ⟨c, cs⟩
    · rfl
    · have hc := hdigit c (hn ▸ List.mem_cons_self)
      simp [trimStart, hc]
  rw [trim, hstart, trimEnd, List.rdropWhile_eq_self_iff]
  intro hne
  simp [hdigit _ (List.getLast_mem hne)]

omit [SerdeJson] in
/-- A sequence number reads back. -/
private theorem pyInt_decimal {n : Nat} (hn : n < 2 ^ 127) :
    pyInt (decimal n) = some (some (n : Int)) := by
  have hdigit : ∀ c ∈ decimal n, c.isDigit = true := fun c hc => isDigit_of_mem_decimal hc
  have hnot : ∀ x : Char, x.isDigit = false → x ∉ decimal n := by
    intro x hx hmem
    rw [hdigit x hmem] at hx
    cases hx
  have hhead : ∀ x : Char, x.isDigit = false → ((decimal n).head? == some x) = false := by
    intro x hx
    by_contra h
    have h : (decimal n).head? = some x := by simpa using h
    exact hnot x hx (List.mem_of_mem_head? h)
  have hlast : ((decimal n).getLast? == some '_') = false := by
    by_contra h
    have h : (decimal n).getLast? = some '_' := by simpa using h
    exact hnot '_' (by decide) (List.mem_of_mem_getLast? h)
  have hinfix : ¬ "__".toList <:+: decimal n := fun h => hnot '_' (by decide) (h.subset (by decide))
  have hall : ((decimal n).all fun c => c.isDigit || c == '_') = true := by
    rw [List.all_eq_true]
    intro c hc
    simp [hdigit c hc]
  have hfilter : (decimal n).filter (· ≠ '_') = decimal n := by
    rw [List.filter_eq_self]
    intro c hc
    simpa using fun h : c = '_' => hnot '_' (by decide) (h ▸ hc)
  have hempty : (decimal n).isEmpty = false := by simpa using decimal_ne_nil n
  simp only [pyInt, trim_decimal, hhead '-' (by decide), hhead '+' (by decide),
    hhead '_' (by decide), hlast, hinfix, hall, hfilter, hempty, ofDecimal_decimal, hn,
    Bool.or_self, decide_false, Bool.not_true, Bool.false_eq_true, if_false, if_true]

/-- The window step refuses a number that is not the current one, unless it cannot look. -/
private theorem window_refuses {env : Env} {w : World} {n : Nat} (hn : n < 2 ^ 127)
    (h : n ≠ w.counter seq) :
    ∃ code events, windowCommand (decimal n) env w = (code, events, w) ∧
      (code = 3 ∨ code = 1 ∧ env.faults 0 ≠ none) := by
  have hspec : After (fun code s => code = 3 ∧ s.world = w)
      (fun _ s => s.world = w ∧ env.faults 0 ≠ none)
      (cmdWindow env (some (n : Int)) ⟨w, 0, []⟩) := by
    refine .bind (counter_spec (fun _ => ?_) fun t ht => ⟨rfl, by simp [ht]⟩)
    refine .ite (fun _ => ⟨rfl, rfl⟩) fun hsame => ?_
    exact absurd (by simpa using hsame) h
  rw [windowCommand, pyInt_decimal hn]
  rcases hrun : cmdWindow env (some (n : Int)) ⟨w, 0, []⟩ with ⟨e | code, s⟩
  · rw [hrun] at hspec
    exact ⟨1, _, (command_of_error (c := .window (some n)) rfl hrun).trans (by rw [hspec.1]),
      .inr ⟨rfl, hspec.2⟩⟩
  · rw [hrun] at hspec
    exact ⟨code, _, (command_of_ok (c := .window (some n)) rfl hrun).trans (by rw [hspec.2]),
      .inl hspec.1⟩

/-! ### Off wins -/

/-- An `off` is next whose `stop-begin` succeeds. -/
def Stops (s : Orders) (j : Nat) (i : Input) : Prop :=
  (∃ past, s.procs[j]? = some (.off, past)) ∧ ∃ events s',
    child i.host.stopBegin ["stop-begin"] (command .stopBegin) ⟨s.shared, [], []⟩ =
      (.ok (0, events), s')

/-- The window step cannot be run, or cannot read the sequence number. -/
def Blind (host : Host) : Prop := ∀ env, host.window = some env → env.faults 0 ≠ none

/-- A `stop-begin` that succeeds bumps the sequence number. -/
private theorem bumped_of_stopBegin {env : Env} {w w' : World} {events : List Event}
    (h : command .stopBegin env w = (0, events, w')) : w' = w.bumped seq := by
  have hspec := @cmdStopBegin_spec env w 0 []
  rcases hrun : cmdStopBegin env ⟨w, 0, []⟩ with ⟨e | code, s⟩
  · rw [command_of_error rfl hrun] at h
    cases h
  · rw [hrun] at hspec
    rw [command_of_ok rfl hrun] at h
    cases h
    exact hspec

/-- A job that stops bumps the sequence. -/
theorem Stops.bumped {s : Orders} {j : Nat} {i : Input} (h : Stops s j i) {u : World}
    (hu : Since u s.shared.world) :
    Bumped u (orders.step s (.advance j i)).1.shared.world := by
  obtain ⟨⟨past, hj⟩, events, s', hchild⟩ := h
  have hworld : s'.desk.world = s.shared.world.bumped seq := by
    rcases henv : i.host.stopBegin with _ | env
    · rw [henv] at hchild
      cases hchild
    · rw [henv] at hchild
      have hcommand : command .stopBegin env s.shared.world = (0, events, s'.desk.world) := by
        rcases hx : command .stopBegin env s.shared.world with ⟨code, events', w'⟩
        simp only [child, hx] at hchild
        cases hchild
        rfl
      exact bumped_of_stopBegin hcommand
  have hbumped : Bumped u s'.desk.world := by
    rw [hworld]
    refine ⟨since_bumpable u _ _ (.inr ⟨seq, .inr rfl, rfl, rfl⟩) hu, ?_⟩
    obtain ⟨n, hn, -⟩ := hu
    rw [bumped_bumps, Function.update_self, hn]
    omega
  -- the rest of the `off` keeps it
  have hrest : After (fun _ s => Bumped u s.desk.world) (fun _ s => Bumped u s.desk.world)
      (offUnderLock i.host ⟨s.shared, [], []⟩) := by
    rw [offUnderLock, Fallible.bind_of_ok hchild]
    have hJ := bumped_bumpable u
    refine Keeps.bind (run_keeps _) (fun _ => Keeps.ite (die_keeps _) ?_) s' hbumped
    refine cancelWindow_keeps.bind fun _ => radioStop_keeps.bind fun _ => ?_
    exact (child_keeps hJ (command_kept _)).bind fun _ => Keeps.pure _
  simp only [Pool.step, hj, orders, Job.advance]
  rcases hrun : offUnderLock i.host ⟨s.shared, [], []⟩ with ⟨e | code, s₁⟩
  · rw [hrun] at hrest
    exact hrest
  · rw [hrun] at hrest
    exact hrest

/-- A refused `on`: it runs the window step and nothing else, and changes nothing. -/
def Refused (host : Host) (number : Text) (d d' : Desk) (did : List Did) : Prop :=
  d' = d ∧ ∃ code result, did = [.on result [.id ["window", "--seq", number] code]] ∧
    (code = 3 ∧ result = .ok 0 ∨ Blind host ∧ code ≠ 0 ∧ ∃ e, result = .error e)

/-- The locked section of an `on` with a number that is not the current one. -/
private theorem on_refused {i : Input} {mode : Mode} {d : Desk} {n : Nat} (hn : n < 2 ^ 127)
    (h : n ≠ d.world.counter seq) :
    Refused i.host (decimal n) d (Job.advance i (.locked mode (decimal n)) d).2.2
      (Job.advance i (.locked mode (decimal n)) d).2.1 := by
  rcases hwindow : i.host.window with _ | env
  · have hchild : child i.host.window ["window", "--seq", decimal n] (windowCommand (decimal n))
        ⟨d, [], []⟩ = (.ok (127, []), ⟨d, [.id ["window", "--seq", decimal n] 127], []⟩) := by
      rw [hwindow]
      rfl
    simp only [Job.advance, onLocked, Fallible.bind_of_ok hchild]
    refine ⟨rfl, 127, _, rfl, .inr ⟨?_, by decide, _, rfl⟩⟩
    intro env henv
    rw [hwindow] at henv
    cases henv
  · obtain ⟨code, events, hx, hcode⟩ := @window_refuses _ env d.world _ hn h
    have hchild : child i.host.window ["window", "--seq", decimal n] (windowCommand (decimal n))
        ⟨d, [], []⟩ = (.ok (code, events), ⟨d, [.id ["window", "--seq", decimal n] code], []⟩) := by
      rw [hwindow]
      simp only [child, hx]
      rfl
    simp only [Job.advance, onLocked, Fallible.bind_of_ok hchild]
    rcases hcode with rfl | ⟨rfl, hfault⟩
    · exact ⟨rfl, 3, _, rfl, .inl ⟨rfl, rfl⟩⟩
    · refine ⟨rfl, 1, _, rfl, .inr ⟨?_, by decide, _, rfl⟩⟩
      intro env' henv
      rw [hwindow] at henv
      obtain rfl := Option.some.inj henv
      exact hfault

/-- Process `k` reads the sequence number next. -/
def Reads (s : Orders) (k : Nat) : Prop :=
  ∃ mode said past, s.procs[k]? = some (.begin mode .beginSeq said, past)

/-- Process `k` is an `on` that is next at the lock, with a number. -/
def AtLock (s : Orders) (k : Nat) (number : Text) : Prop :=
  ∃ mode past, s.procs[k]? = some (.locked mode number, past)

/-- An `on` that has read the number has no other one at the lock. -/
private theorem number_of_reads {s₀ s₂ : Orders} {k : Nat} {i : Input} {as : List Move}
    (hread : Reads s₀ k) (hs₂ : s₂ = orders.machine.run s₀ (.advance k i :: as)) {number : Text}
    (hlock : AtLock s₂ k number) : number = decimal (s₀.shared.world.counter seq) := by
  obtain ⟨mode₀, said, past₀, hk⟩ := hread
  obtain ⟨mode, past, hlocked⟩ := hlock
  have hafter : ∃ job past, (orders.step s₀ (.advance k i)).1.procs[k]? = some (job, past) ∧
      Knows (s₀.shared.world.counter seq) job := by
    have hlt : k < s₀.procs.length := (List.getElem?_eq_some_iff.mp hk).1
    simp only [Pool.step, hk]
    exact ⟨_, _, List.getElem?_set_self hlt, knows_read⟩
  obtain ⟨job, past', hjob, hknows⟩ :=
    Pool.run_own (P := orders) (fun i job d h => knows_advance h) hafter as
  rw [hs₂, Machine.run_cons] at hlocked
  obtain ⟨rfl, -⟩ := Prod.mk.inj (Option.some.inj (hjob.symm.trans hlocked))
  exact hknows

/-- **Off wins over an earlier on.**  An `on` read the sequence number, then an `off`'s
    `stop-begin` succeeded, and now the `on` has the lock: it is refused, if the number was bumped
    fewer than `counterRange` times in between. -/
theorem off_wins {s₀ s₁ s₂ : Orders} {k j : Nat} {i i' : Input} {mid post : List Move}
    (hread : Reads s₀ k) (hs₁ : s₁ = orders.machine.run s₀ (.advance k i :: mid))
    (hoff : Stops s₁ j i') (hs₂ : s₂ = orders.machine.run s₁ (.advance j i' :: post))
    {number : Text} (hlock : AtLock s₂ k number)
    (hfew : s₂.shared.world.bumps seq < s₀.shared.world.bumps seq + counterRange) (i'' : Input) :
    Refused i''.host number s₂.shared (orders.step s₂ (.advance k i'')).1.shared
      (orders.step s₂ (.advance k i'')).2 := by
  have hrun : s₂ = orders.machine.run s₀ (.advance k i :: (mid ++ .advance j i' :: post)) := by
    rw [hs₂, hs₁, ← Machine.run_append, List.cons_append]
  obtain rfl := number_of_reads hread hrun hlock
  have hsince : Since s₀.shared.world s₁.shared.world := by
    rw [hs₁]
    exact run_keeps_world (since_bumpable _) (since_refl _) _
  have hbumped : Bumped s₀.shared.world s₂.shared.world := by
    rw [hs₂, Machine.run_cons]
    exact run_keeps_world (bumped_bumpable _) (hoff.bumped hsince) _
  have hrange : counterRange ≤ 2 ^ 127 := by decide
  obtain ⟨mode, past, hk⟩ := hlock
  simp only [Pool.step, hk]
  exact on_refused ((counter_lt _ _).trans_le hrange) (hbumped.counter_ne hfew).symm

end Runs

/-! ### A number that comes round -/

/-- Everything works. -/
def sampleInput : Input := ⟨sampleEnv, sampleHost true⟩

/-- No window and no cache, and the settings name the self-signed identity. -/
def sampleDesk : Desk :=
  ⟨{ sampleBoot.world with settings := some (windowText ["identity_source=self-signed"]) },
    false, none, none⟩

/-- An `on` that reads the sequence number next. -/
def sampleOn : List Move :=
  [.start (.on .forever), .advance 0 sampleInput, .advance 0 sampleInput]

/-- It reads the number and comes to the lock. -/
def sampleRead : List Move := [.advance 0 sampleInput, .advance 0 sampleInput]

/-- Then so many `off`s run, the first of them as process `m + 1`. -/
def sampleOffs (m : Nat) : Nat → List Move
  | 0     => []
  | n + 1 => .start .off :: .advance (m + 1) sampleInput :: sampleOffs (m + 1) n

section

attribute [local instance] sampleJson

/-- After `n` `off`s the `on` is where it was. -/
structure Queued (n : Nat) (s : Orders) : Prop where
  settings : s.shared.world.settings = sampleDesk.world.settings
  window : s.shared.world.window = none
  cache : s.shared.world.cache = none
  counter : s.shared.world.counter seq = n % counterRange
  bumps : s.shared.world.bumps seq = n
  jobs : s.procs.map Prod.fst = .locked .forever ['0'] :: List.replicate n .done

/-- A first `on` has read the sequence and waits for the lock. -/
private theorem queued_read :
    Queued 0 (orders.machine.run ⟨sampleDesk, []⟩ (sampleOn ++ sampleRead)) := by
  have h : (fun s : Orders => (s.shared.world.settings, s.shared.world.window,
      s.shared.world.cache, s.shared.world.counter seq, s.shared.world.bumps seq,
      s.procs.map Prod.fst)) (orders.machine.run ⟨sampleDesk, []⟩ (sampleOn ++ sampleRead)) =
      (sampleDesk.world.settings, none, none, 0, 0, [.locked .forever ['0']]) := by
    decide +kernel
  simp only [Prod.mk.injEq] at h
  obtain ⟨hsettings, hwindow, hcache, hcounter, hbumps, hjobs⟩ := h
  exact ⟨hsettings, hwindow, hcache, hcounter, hbumps, hjobs⟩

/-- Where nothing fails, `stop-begin` bumps the sequence. -/
theorem stopBegin_sample (w : World) :
    command .stopBegin sampleEnv w = (0, [.exit 0], w.bumped seq) :=
  command_of_ok (s := ⟨w.bumped seq, 3, []⟩) rfl rfl

/-- Where nothing fails, `stop-end` closes the window. -/
private theorem stopEnd_sample {w : World} (h : w.cache = none) :
    ∃ events, command .stopEnd sampleEnv w = (0, events, w.closed) := by
  have hspec : After (fun code s => code = 0 ∧ s.world = w.closed) (fun _ _ => False)
      (cmdStopEnd sampleEnv ⟨w, 0, []⟩) := by
    refine .bind (removeFile_spec (fun _ => ?_) fun _ ht => nomatch ht)
    refine .bind (currentCache_spec (fun _ => ?_) fun hfault => absurd rfl hfault)
    have hnone : w.closed.currentCache = none := by
      simp [World.currentCache, h]
    rw [hnone]
    exact ⟨rfl, rfl⟩
  rcases hrun : cmdStopEnd sampleEnv ⟨w, 0, []⟩ with ⟨e | code, s⟩
  · rw [hrun] at hspec
    exact hspec.elim
  · rw [hrun] at hspec
    obtain ⟨rfl, hworld⟩ := hspec
    exact ⟨_, (command_of_ok (c := .stopEnd) rfl hrun).trans (by rw [hworld])⟩

/-- An `off` that nothing stops. -/
private theorem off_sample {d : Desk} (h : d.world.cache = none) :
    (offUnderLock (sampleHost true) ⟨d, [], []⟩).2.desk.world = (d.world.bumped seq).closed := by
  have hspec : After (fun _ s => s.desk.world = (d.world.bumped seq).closed) (fun _ _ => False)
      (offUnderLock (sampleHost true) ⟨d, [], []⟩) := by
    have hbegin : child (sampleHost true).stopBegin ["stop-begin"] (command .stopBegin)
        ⟨d, [], []⟩ = _ := child_some (stopBegin_sample d.world)
    rw [offUnderLock, Fallible.bind_of_ok hbegin]
    have hstop := run_eq (sampleHost true) stopUnit
      ⟨{ d with world := d.world.bumped seq }, [.id ["stop-begin"] 0], []⟩
    refine Eq.subst (motive := After _ _) (Fallible.bind_of_ok hstop).symm ?_
    refine .ite (fun hcode => absurd rfl hcode) fun _ => ?_
    refine .bind (cancelWindow_spec fun s₁ h₁ _ => .bind (radioStop_spec fun s₂ h₂ => ?_))
    have hworld : s₂.desk.world = d.world.bumped seq := by rw [h₂, h₁]
    obtain ⟨events, hend⟩ := stopEnd_sample (w := s₂.desk.world) (by rw [hworld]; exact h)
    have hended : child (sampleHost true).stopEnd ["stop-end"] (command .stopEnd) s₂ = _ :=
      child_some hend
    rw [Fallible.bind_of_ok hended]
    exact congrArg World.closed hworld
  rcases hrun : offUnderLock (sampleHost true) ⟨d, [], []⟩ with ⟨e | u, s⟩
  · rw [hrun] at hspec
    exact hspec.elim
  · rw [hrun] at hspec
    exact hspec

/-- An `off` that comes and goes leaves the `on` waiting. -/
theorem Queued.off {n : Nat} {s : Orders} (h : Queued n s) :
    Queued (n + 1) (orders.machine.run s [.start .off, .advance (n + 1) sampleInput]) := by
  have hlength : s.procs.length = n + 1 := by
    rw [← List.length_map (f := Prod.fst), h.jobs]
    simp
  have hproc : (s.procs ++ [(Job.off, [])])[n + 1]? = some (.off, []) := by
    rw [← hlength]
    simp
  have hworld : (orders.machine.run s [.start .off, .advance (n + 1) sampleInput]).shared.world =
      (s.shared.world.bumped seq).closed := by
    simp only [Machine.run_cons, Machine.run_nil, Pool.machine, Pool.step, orders, Job.start,
      hproc, Job.advance]
    exact off_sample h.cache
  have hjobs : (orders.machine.run s [.start .off, .advance (n + 1) sampleInput]).procs.map
      Prod.fst = .locked .forever ['0'] :: List.replicate (n + 1) .done := by
    simp only [Machine.run_cons, Machine.run_nil, Pool.machine, Pool.step, orders, Job.start, hproc]
    rw [List.map_set, List.map_append, h.jobs]
    simp [List.replicate_succ', Job.advance]
  refine ⟨?_, ?_, ?_, ?_, ?_, hjobs⟩ <;> rw [hworld]
  · exact h.settings
  · rfl
  · exact h.cache
  · show (s.shared.world.bumped seq).counter seq = _
    rw [counter_bumped _ clean_seq, if_pos rfl, h.counter, Nat.mod_add_mod]
  · show (s.shared.world.bumped seq).bumps seq = _
    rw [bumped_bumps, Function.update_self, h.bumps]

/-- Any number of `off`s leave the `on` waiting. -/
theorem Queued.offs {m : Nat} (n : Nat) {s : Orders} (h : Queued m s) :
    Queued (m + n) (orders.machine.run s (sampleOffs m n)) := by
  induction n generalizing m s with
  | zero => exact h
  | succ n ih =>
    have hrest := ih h.off
    rw [Nat.add_right_comm] at hrest
    exact hrest

/-- A window step that nothing stops. -/
private theorem window_sample {w : World} (hsettings : w.settings = sampleDesk.world.settings)
    (hwindow : w.window = none) (hcounter : w.counter seq = 0) :
    (windowCommand ['0'] sampleEnv w).1 = 0 := by
  have hmode : modeOf (fieldsOf w.settings) = "self-signed".toList := by
    rw [hsettings]
    decide +kernel
  have hspec : After (fun code _ => code = 0) (fun _ _ => False)
      (cmdWindow sampleEnv (some 0) ⟨w, 0, []⟩) := by
    refine .bind (counter_spec (fun _ => ?_) fun _ ht => nomatch ht)
    refine .ite (fun hseq => absurd (by rw [hcounter]; rfl) hseq) fun _ => ?_
    refine .bind (readWindow_spec (fun _ => ?_) fun _ ht => nomatch ht)
    rw [hwindow]
    refine .bind (.bind (mode_spec (fun _ => ?_) fun _ ht => nomatch ht))
    rw [hmode]
    have hnone : windowFor sampleEnv "self-signed".toList ⟨w, 3, []⟩ = (.ok [], ⟨w, 3, []⟩) := by
      rw [windowFor, if_neg (by decide), if_neg (by decide)]
      rfl
    refine Eq.subst (motive := After _ _) (Fallible.bind_of_ok hnone).symm ?_
    refine .ite (fun _ => .bind (emit_spec ?_)) fun hempty => absurd rfl hempty
    show After (fun code _ => code = 0) (fun _ _ => False)
      ((writePrivate sampleEnv (fun w => w.opened ["source=self-signed"]) >>= fun _ =>
        (pure 0 : R Int)) ⟨w, 3, [.say "source" "self-signed"]⟩)
    exact .bind (writePrivate_spec (fun _ => rfl) fun _ ht => nomatch ht)
  rw [windowCommand, show pyInt ['0'] = some (some 0) by decide]
  rcases hrun : cmdWindow sampleEnv (some 0) ⟨w, 0, []⟩ with ⟨e | code, s⟩
  · rw [hrun] at hspec
    exact hspec.elim
  · rw [hrun] at hspec
    exact congrArg Prod.fst ((command_of_ok (c := .window (some 0)) rfl hrun).trans (by rw [hspec]))

/-- A job that says so in the pool has read the sequence. -/
private theorem reads_of_jobs {s : Orders} {k : Nat} {mode : Mode} {said : List Event}
    (h : (s.procs.map Prod.fst)[k]? = some (.begin mode .beginSeq said)) : Reads s k := by
  rw [List.getElem?_map] at h
  obtain ⟨⟨job, past⟩, hk, rfl⟩ := Option.map_eq_some_iff.mp h
  exact ⟨mode, said, past, hk⟩

/-- A job that says so in the pool is at the lock. -/
private theorem atLock_of_jobs {s : Orders} {k : Nat} {mode : Mode} {number : Text}
    (h : (s.procs.map Prod.fst)[k]? = some (.locked mode number)) : AtLock s k number := by
  rw [List.getElem?_map] at h
  obtain ⟨⟨job, past⟩, hk, rfl⟩ := Option.map_eq_some_iff.mp h
  exact ⟨mode, past, hk⟩

/-- An `off` in the pool is about to stop. -/
private theorem stops_of_jobs {s : Orders} {k : Nat} (h : (s.procs.map Prod.fst)[k]? = some .off) :
    Stops s k sampleInput := by
  rw [List.getElem?_map] at h
  obtain ⟨⟨job, past⟩, hk, rfl⟩ := Option.map_eq_some_iff.mp h
  exact ⟨⟨past, hk⟩, _, _, child_some (stopBegin_sample s.shared.world)⟩

/-- Sample states: the `on` reads next; it is at the lock and an `off` is next; so many `off`s have
    run. -/
def sampleReads : Orders := orders.machine.run ⟨sampleDesk, []⟩ sampleOn

def sampleStops : Orders := orders.machine.run sampleReads (sampleRead ++ [.start .off])

def sampleLock (n : Nat) : Orders :=
  orders.machine.run sampleStops (.advance 1 sampleInput :: sampleOffs 1 n)

/-- The `on` still waits after any number of times that `off` was run. -/
theorem queued_lock (n : Nat) : Queued (n + 1) (sampleLock n) := by
  have h := queued_read.offs (n + 1)
  rw [Nat.zero_add, Machine.run_append] at h
  rw [sampleLock, sampleStops, sampleReads, Machine.run_append]
  exact h

/-- The first `on` has read the sequence. -/
theorem reads_sample : Reads sampleReads 0 :=
  @reads_of_jobs _ _ .forever [] (by decide +kernel)

/-- The `off` after it stops. -/
theorem stops_sample : Stops sampleStops 1 sampleInput := stops_of_jobs (by decide +kernel)

/-- The `on` gets to the lock with the number that it read first. -/
theorem atLock_sample (n : Nat) : AtLock (sampleLock n) 0 ['0'] :=
  @atLock_of_jobs _ _ .forever _ (by rw [(queued_lock n).jobs]; rfl)

/-- After one `off` the `on` is refused. -/
theorem off_wins_sample : Refused (sampleHost true) ['0'] (sampleLock 0).shared
    (orders.step (sampleLock 0) (.advance 0 sampleInput)).1.shared
    (orders.step (sampleLock 0) (.advance 0 sampleInput)).2 := by
  have hrange : 1 < counterRange := by decide
  refine @off_wins _ _ _ _ _ _ _ _ [.advance 0 sampleInput, .start .off] _ reads_sample rfl
    stops_sample rfl _ (atLock_sample 0) ?_ sampleInput
  show (sampleLock 0).shared.world.bumps seq < _
  rw [(queued_lock 0).bumps]
  exact Nat.lt_add_left _ hrange

/-- No file can be read. -/
def unreadable : Env := { sampleEnv with faults := fun _ => some "EIO".toList }

/-- Where the sequence cannot be read, `window` fails. -/
private theorem window_unreadable (w : World) : (windowCommand ['0'] unreadable w).1 = 1 := by
  have hrun : cmdWindow unreadable (some 0) ⟨w, 0, []⟩ = (.error (.io "EIO".toList), ⟨w, 1, []⟩) :=
    rfl
  rw [windowCommand, show pyInt ['0'] = some (some 0) by decide]
  exact congrArg Prod.fst (command_of_error (c := .window (some 0)) rfl hrun)

/-- The window step of an `on` that read the number before an `off` does not always answer 3: the
    number may have come round, and the state file may not be there to read. -/
theorem off_loses :
    (¬ ∀ (_ : SerdeJson) (s₀ s₁ s₂ : Orders) (k j : Nat) (i i' : Input) (mid post : List Move)
      (number : Text) (env : Env), Reads s₀ k → s₁ = orders.machine.run s₀ (.advance k i :: mid) →
      Stops s₁ j i' → s₂ = orders.machine.run s₁ (.advance j i' :: post) → AtLock s₂ k number →
      (∀ n, env.faults n = none) → (windowCommand number env s₂.shared.world).1 = 3) ∧
    ¬ ∀ (_ : SerdeJson) (s₀ s₁ s₂ : Orders) (k j : Nat) (i i' : Input) (mid post : List Move)
      (number : Text) (env : Env), Reads s₀ k → s₁ = orders.machine.run s₀ (.advance k i :: mid) →
      Stops s₁ j i' → s₂ = orders.machine.run s₁ (.advance j i' :: post) → AtLock s₂ k number →
      s₂.shared.world.bumps seq < s₀.shared.world.bumps seq + counterRange →
      (windowCommand number env s₂.shared.world).1 = 3 := by
  have hrange : 1 < counterRange := by decide
  refine ⟨fun h => ?_, fun h => ?_⟩
  · obtain ⟨n, hn⟩ : ∃ n, counterRange = n + 1 := ⟨counterRange - 1, by omega⟩
    have hqueued := queued_lock n
    have hcounter : (sampleLock n).shared.world.counter seq = 0 := by
      rw [hqueued.counter, ← hn, Nat.mod_self]
    have hanswer := h sampleJson _ _ (sampleLock n) 0 1 sampleInput sampleInput
      [.advance 0 sampleInput, .start .off] _ ['0'] sampleEnv reads_sample rfl stops_sample rfl
      (atLock_sample n) fun _ => rfl
    rw [window_sample hqueued.settings hqueued.window hcounter] at hanswer
    cases hanswer
  · have hanswer := h sampleJson _ _ (sampleLock 0) 0 1 sampleInput sampleInput
      [.advance 0 sampleInput, .start .off] _ ['0'] unreadable reads_sample rfl stops_sample rfl
      (atLock_sample 0) ?_
    · rw [window_unreadable] at hanswer
      cases hanswer
    · show (sampleLock 0).shared.world.bumps seq < _
      rw [(queued_lock 0).bumps]
      exact Nat.lt_add_left _ hrange

end

end Omdrop.Cli
