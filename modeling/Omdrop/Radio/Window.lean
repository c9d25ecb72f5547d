import Mathlib.Logic.Function.Basic
import Mathlib.Data.List.Range

namespace Omdrop.Radio.Window

/-!
# The discoverability window

Any number of `start`s, supervisors and `stop`s at once.  They meet in the run directory: the
deadline `until`, the record of the supervisor, its token, and two locks.  A step of a process is
one look at it, one change of it, one look at a clock or one call of a hook of the backend, and
the processes take their steps in any order.

The files of the run directory can be written and removed: a step that does either succeeds.
Spawning a supervisor is one step of a `start`, which may fail.
-/

/-! ### The processes -/

/-- The hooks of the backend. -/
inductive Hook
  | probe | up | identity | tick | down
  deriving DecidableEq, Repr

/-- How a hook ended. -/
inductive Outcome
  | exited (code : Int)
  | signaled | timedOut | cancelled | missing | broken
  deriving DecidableEq, Repr

/-- Why a window ends. -/
inductive End
  | stopped | expired | radioLost
  deriving DecidableEq, Repr

/-- Where a `start` for `secs` seconds is. -/
inductive Start
  | idle
  /-- at `start.lock` -/
  | lock (secs : Nat)
  | legacy (secs : Nat)
  /-- at `window.lock` -/
  | windowLock (secs : Nat)
  | record (secs : Nat)
  | alive (secs sup : Nat)
  | deadline (secs sup : Nat)
  | extendTime (secs sup : Nat)
  | extend (sup until' : Nat)
  | extended (sup until' : Nat)
  | closing (secs sup : Nat)
  | children (secs : Nat)
  | probe (secs : Nat)
  | up (secs : Nat)
  | link (secs : Nat)
  | identity (secs : Nat)
  | published (secs : Nat)
  | untilTime (secs : Nat)
  | setUntil (until' : Nat)
  | newToken
  | opening (token : Nat)
  | dropToken
  | spawn (token : Nat)
  | unspawned
  | check (sup : Nat)
  | giveUp (sup : Nat)
  | kill (sup : Nat)
  | dropUntil
  | failed (code : Int)
  | done (code : Int)
  deriving DecidableEq, Repr

/-- Where a supervisor is; it was given a token, or none. -/
inductive Sup
  | idle
  | entry (want : Option Nat)
  | dropToken
  | record
  | loop
  | glance
  | glanceTime (seen : Option Nat)
  /-- at `window.lock`, to end an expired window -/
  | lockExpired
  | look
  | lookTime (seen : Option Nat)
  | dropExpired
  | tick
  | pause
  /-- at `window.lock`, to end a window that has not expired -/
  | lockEnd (why : End)
  | dropEnd (why : End)
  | finish (why : End)
  | down (why : End)
  | forget
  | unrecord
  | exited
  deriving DecidableEq, Repr

/-- Where a `stop` is; `snap` are the processes it found, `todo` those it has yet to signal. -/
inductive Stop
  | idle
  | lookStarts
  | cancel (todo snap : List Nat)
  | waitStarts (snap : List Nat)
  | lookSups
  | term (todo snap : List Nat)
  | waitSups (snap : List Nat)
  | kill (todo snap : List Nat)
  | waitKilled (snap : List Nat)
  | children
  | dropUntil
  | dropRecord
  | dropToken
  | down
  | reason
  | done
  deriving DecidableEq, Repr

/-- Who holds `window.lock`. -/
inductive Holder
  | start (i : Nat)
  | sup (j : Nat)
  deriving DecidableEq, Repr

/-- What was done: a deadline written, a report that the window of a supervisor was extended or
    opened, a supervisor closing its window, or that at a time because it expired, a hook. -/
inductive Act
  | deadline (until' : Nat)
  | extended (sup until' : Nat)
  | opened
  | closed (sup : Nat)
  | expired (sup time : Nat)
  | hook (h : Hook)
  deriving DecidableEq, Repr

/-- The clock, the processes with the signals they have yet to notice, the locks, the run
    directory, the number of tokens so far, and what was done, the latest first. -/
structure State where
  now : Nat
  started : Nat
  starts : Nat → Start
  startTerm : Nat → Bool
  spawned : Nat
  sups : Nat → Sup
  supTerm : Nat → Bool
  stopped : Nat
  stops : Nat → Stop
  startLock : Option Nat
  windowLock : Option Holder
  deadline : Option Nat
  supervisor : Option Nat
  token : Option Nat
  tokens : Nat
  history : List Act

/-- Nothing runs, and the run directory is empty. -/
def init : State where
  now := 0
  started := 0
  starts _ := .idle
  startTerm _ := false
  spawned := 0
  sups _ := .idle
  supTerm _ := false
  stopped := 0
  stops _ := .idle
  startLock := none
  windowLock := none
  deadline := none
  supervisor := none
  token := none
  tokens := 0
  history := []

/-- What a step finds outside: an older helper has a window, waiting has taken too long,
    `window.lock` was not to be had in time, something that can fail succeeded, the interface has
    its address, and how a hook ended. -/
structure Input where
  legacy : Bool
  tooLong : Bool
  lockFails : Bool
  ok : Bool
  linkLocal : Bool
  outcome : Outcome

/-- Is this process there? -/
def Sup.isAlive : Sup → Bool
  | .idle | .exited => false
  | _ => true

/-- Is this process there? -/
def Start.isAlive : Start → Bool
  | .idle | .done _ => false
  | _ => true

/-- Does it finish what it does when it is terminated?  Before it catches the signal, it dies. -/
def Sup.catches : Sup → Bool
  | .idle | .exited | .entry _ | .dropToken | .record => false
  | _ => true

/-- Does it finish what it does when it is terminated?  Before it catches the signal, it dies. -/
def Start.catches : Start → Bool
  | .idle | .done _ | .lock _ => false
  | _ => true

namespace State

variable (s : State)

/-- A `start` goes on. -/
def startAt (i : Nat) (pc : Start) : State := { s with starts := Function.update s.starts i pc }

/-- A supervisor goes on. -/
def supAt (j : Nat) (pc : Sup) : State := { s with sups := Function.update s.sups j pc }

/-- A `stop` goes on. -/
def stopAt (k : Nat) (pc : Stop) : State := { s with stops := Function.update s.stops k pc }

/-- Something was done. -/
def did (a : Act) : State := { s with history := a :: s.history }

/-- The locks of a process are free. -/
def release (h : Holder) : State :=
  { s with windowLock := if s.windowLock = some h then none else s.windowLock }

/-- A `start` ends, and its locks are free. -/
def startDone (i : Nat) (code : Int) : State :=
  { (s.release (.start i)).startAt i (.done code) with
    startLock := if s.startLock = some i then none else s.startLock }

/-- A supervisor ends. -/
def supDone (j : Nat) : State := (s.release (.sup j)).supAt j .exited

/-- A `start` is killed, if it is there. -/
def killStart (i : Nat) : State := if (s.starts i).isAlive then s.startDone i 137 else s

/-- A supervisor is killed, if it is there. -/
def killSup (j : Nat) : State := if (s.sups j).isAlive then s.supDone j else s

/-- A `start` is terminated. -/
def termStart (i : Nat) : State :=
  if (s.starts i).catches then { s with startTerm := Function.update s.startTerm i true }
  else s.killStart i

/-- A supervisor is terminated. -/
def termSup (j : Nat) : State :=
  if (s.sups j).catches then { s with supTerm := Function.update s.supTerm j true }
  else s.killSup j

end State

/-- Is the recorded supervisor alive? -/
def supervisorAlive (s : State) : Bool := s.supervisor.any fun j => (s.sups j).isAlive

/-- Is a deadline still ahead, or none at all? -/
def isLive (deadline : Option Nat) (now : Nat) : Bool := deadline.any fun d => d == 0 || now < d

/-! ### Steps of a start -/

/-- The next step of a `start`. -/
def startStep (i : Nat) (x : Input) (s : State) : State :=
  match s.starts i with
  | .idle | .done _ => s
  | .lock secs =>
    if s.startLock = none then { s.startAt i (.legacy secs) with startLock := some i }
    else s.startDone i 5
  | .legacy secs => if x.legacy then s.startDone i 5 else s.startAt i (.windowLock secs)
  | .windowLock secs =>
    if s.windowLock = none then { s.startAt i (.record secs) with windowLock := some (.start i) }
    else if x.lockFails then s.startDone i 3
    else s
  | .record secs =>
    match s.supervisor with
    | none     => (s.release (.start i)).startAt i (.children secs)
    | some sup => s.startAt i (.alive secs sup)
  | .alive secs sup =>
    if (s.sups sup).isAlive then s.startAt i (.deadline secs sup)
    else (s.release (.start i)).startAt i (.children secs)
  | .deadline secs sup =>
    if s.deadline.isSome then s.startAt i (.extendTime secs sup)
    else (s.release (.start i)).startAt i (.closing secs sup)
  | .extendTime secs sup => s.startAt i (.extend sup (if secs = 0 then 0 else s.now + secs))
  | .extend sup until' =>
    ({ s.startAt i (.extended sup until') with deadline := some until' }).did (.deadline until')
  | .extended sup until' => (s.did (.extended sup until')).startDone i 5
  | .closing secs sup =>
    if ¬ (s.sups sup).isAlive then s.startAt i (.children secs)
    else if x.tooLong then s.startDone i 3
    else if s.startTerm i then s.startDone i 3
    else s
  | .children secs => s.startAt i (.probe secs)
  | .probe secs =>
    let s := s.did (.hook .probe)
    match x.outcome with
    | .exited 0  => if x.ok then s.startAt i (.up secs) else s.startDone i 4
    | .cancelled => s.startDone i 3
    | _          => s.startDone i 4
  | .up secs =>
    let s := s.did (.hook .up)
    match x.outcome with
    | .exited 0          => s.startAt i (.link secs)
    | .cancelled         => s.startDone i 3
    | .exited 4          => s.startAt i (.failed 4)
    | .missing | .broken => s.startDone i 4
    | _                  => s.startAt i (.failed 3)
  | .link secs => if x.linkLocal then s.startAt i (.identity secs) else s.startAt i (.failed 4)
  | .identity secs =>
    let s := s.did (.hook .identity)
    match x.outcome with
    | .cancelled => s.startDone i 3
    | _          => s.startAt i (.published secs)
  | .published secs => if s.startTerm i then s.startDone i 3 else s.startAt i (.untilTime secs)
  | .untilTime secs => s.startAt i (.setUntil (if secs = 0 then 0 else s.now + secs))
  | .setUntil until' =>
    ({ s.startAt i .newToken with deadline := some until' }).did (.deadline until')
  | .newToken =>
    if x.ok then
      { s.startAt i (.opening s.tokens) with token := some s.tokens, tokens := s.tokens + 1 }
    else s.startAt i .dropUntil
  | .opening token => if s.startTerm i then s.startAt i .dropToken else s.startAt i (.spawn token)
  -- the deadline stays: `stop`, which cancelled the start, tears down
  | .dropToken => { s with token := none }.startDone i 3
  | .spawn token =>
    if x.ok then
      { (s.startAt i (.check s.spawned)).supAt s.spawned (.entry (some token)) with
        spawned := s.spawned + 1 }
    else s.startAt i .unspawned
  | .unspawned => { s.startAt i .dropUntil with token := none }
  | .check sup =>
    if supervisorAlive s then (s.did .opened).startDone i 0
    else if x.tooLong then s.startAt i (.giveUp sup)
    else s
  | .giveUp sup => { s.startAt i (.kill sup) with token := none }
  | .kill sup => (s.killSup sup).startAt i .dropUntil
  | .dropUntil => { s.startAt i (.failed 3) with deadline := none }
  | .failed code => (s.did (.hook .down)).startDone i code

/-! ### Steps of a supervisor -/

/-- The next step of a supervisor. -/
def supStep (j : Nat) (x : Input) (s : State) : State :=
  match s.sups j with
  | .idle | .exited => s
  | .entry want =>
    -- one that cannot show the token leaves it alone
    if want.isSome ∧ want = s.token then s.supAt j .dropToken else s.supDone j
  | .dropToken => { s.supAt j .record with token := none }
  | .record => { s.supAt j .loop with supervisor := some j }
  | .loop => if s.supTerm j then s.supAt j (.lockEnd .stopped) else s.supAt j .glance
  | .glance => s.supAt j (.glanceTime s.deadline)
  | .glanceTime seen =>
    if isLive seen s.now then s.supAt j .tick else s.supAt j .lockExpired
  | .lockExpired =>
    if s.windowLock = none then { s.supAt j .look with windowLock := some (.sup j) }
    else if x.lockFails then s.supAt j .look
    else s
  | .look => s.supAt j (.lookTime s.deadline)
  | .lookTime seen =>
    if isLive seen s.now then (s.release (.sup j)).supAt j .tick else s.supAt j .dropExpired
  | .dropExpired =>
    let s := { s with deadline := none, history := .expired j s.now :: .closed j :: s.history }
    (s.release (.sup j)).supAt j (.finish .expired)
  | .tick =>
    let s := s.did (.hook .tick)
    match x.outcome with
    | .cancelled => s.supAt j (.lockEnd .stopped)
    | .exited 4  => s.supAt j (.lockEnd .radioLost)
    | _          => s.supAt j .pause
  | .pause => if s.supTerm j then s.supAt j (.lockEnd .stopped) else s.supAt j .loop
  | .lockEnd why =>
    if s.windowLock = none then { s.supAt j (.dropEnd why) with windowLock := some (.sup j) }
    else if x.lockFails then s.supAt j (.dropEnd why)
    else s
  | .dropEnd why =>
    (({ s with deadline := none }).did (.closed j)).release (.sup j) |>.supAt j (.finish why)
  | .finish why => s.supAt j (if why = .stopped then .forget else .down why)
  | .down _ => (s.did (.hook .down)).supAt j .forget
  | .forget => if s.supervisor = some j then s.supAt j .unrecord else s.supDone j
  | .unrecord => { s.supDone j with supervisor := none }

/-! ### Steps of a stop -/

/-- The `start`s that are there. -/
def liveStarts (s : State) : List Nat := (List.range s.started).filter fun i => (s.starts i).isAlive

/-- The supervisors that are there. -/
def liveSups (s : State) : List Nat := (List.range s.spawned).filter fun j => (s.sups j).isAlive

/-- The next step of a `stop`. -/
def stopStep (k : Nat) (x : Input) (s : State) : State :=
  match s.stops k with
  | .idle | .done => s
  | .lookStarts => s.stopAt k (.cancel (liveStarts s) (liveStarts s))
  | .cancel (i :: todo) snap => (s.termStart i).stopAt k (.cancel todo snap)
  | .cancel [] snap => s.stopAt k (.waitStarts snap)
  | .waitStarts snap =>
    if snap.all (fun i => ¬ (s.starts i).isAlive) ∨ x.tooLong then s.stopAt k .lookSups else s
  | .lookSups => s.stopAt k (.term (liveSups s) (liveSups s))
  | .term (j :: todo) snap => (s.termSup j).stopAt k (.term todo snap)
  | .term [] snap => s.stopAt k (.waitSups snap)
  | .waitSups snap =>
    if snap.all fun j => ¬ (s.sups j).isAlive then s.stopAt k .children
    else if x.tooLong then s.stopAt k (.kill snap snap)
    else s
  | .kill (j :: todo) snap => (s.killSup j).stopAt k (.kill todo snap)
  | .kill [] snap => s.stopAt k (.waitKilled snap)
  | .waitKilled snap =>
    if snap.all (fun j => ¬ (s.sups j).isAlive) ∨ x.tooLong then s.stopAt k .children else s
  | .children => s.stopAt k .dropUntil
  | .dropUntil => { s.stopAt k .dropRecord with deadline := none }
  | .dropRecord => { s.stopAt k .dropToken with supervisor := none }
  | .dropToken => { s.stopAt k .down with token := none }
  | .down => (s.did (.hook .down)).stopAt k .reason
  | .reason => s.stopAt k .done

/-! ### Runs -/

/-- What can happen: time passes, a command is given, a process makes its next step or is killed;
    a supervisor without a token is what `__supervise` on a command line makes. -/
inductive Action
  | wait
  | newStart (secs : Nat)
  | newSup
  | newStop
  | start (i : Nat) (x : Input)
  | sup (j : Nat) (x : Input)
  | stop (k : Nat) (x : Input)
  | killStart (i : Nat)
  | killSup (j : Nat)

/-- One step. -/
def step (s : State) : Action → State
  | .wait          => { s with now := s.now + 1 }
  | .newStart secs => { s.startAt s.started (.lock secs) with started := s.started + 1 }
  | .newSup        => { s.supAt s.spawned (.entry none) with spawned := s.spawned + 1 }
  | .newStop       => { s.stopAt s.stopped .lookStarts with stopped := s.stopped + 1 }
  | .start i x     => startStep i x s
  | .sup j x       => supStep j x s
  | .stop k x      => stopStep k x s
  | .killStart i   => s.killStart i
  | .killSup j     => s.killSup j

/-- A run. -/
def run (s : State) (as : List Action) : State := as.foldl step s

/-- Two runs in a row are one run. -/
theorem run_append (s : State) (as bs : List Action) :
    run s (as ++ bs) = run (run s as) bs := List.foldl_append

/-- The last deadline that was written. -/
def lastDeadline : List Act → Option Nat
  | []                    => none
  | .deadline until' :: _ => some until'
  | _ :: acts             => lastDeadline acts

/-- The last hook that was called. -/
def lastHook : List Act → Option Hook
  | []            => none
  | .hook h :: _  => some h
  | _ :: acts     => lastHook acts

/-! ### The processes of a run -/

section Tables

variable (s : State) (j : Nat)

/-- Killing a supervisor leaves the starts alone. -/
theorem killSup_starts : (s.killSup j).starts = s.starts := by
  unfold State.killSup
  split <;> rfl

/-- Killing a supervisor leaves the stops alone. -/
theorem killSup_stops : (s.killSup j).stops = s.stops := by
  unfold State.killSup
  split <;> rfl

/-- Killing a start leaves the stops alone. -/
theorem killStart_stops (i : Nat) : (s.killStart i).stops = s.stops := by
  unfold State.killStart
  split <;> rfl

/-- A signal to a supervisor leaves the stops alone. -/
theorem termSup_stops : (s.termSup j).stops = s.stops := by
  unfold State.termSup
  split
  · rfl
  · exact killSup_stops s j

/-- A signal to a start leaves the stops alone. -/
theorem termStart_stops (i : Nat) : (s.termStart i).stops = s.stops := by
  unfold State.termStart
  split
  · rfl
  · exact killStart_stops s i

/-- Killing a supervisor frees no lock of the starts. -/
theorem killSup_startLock : (s.killSup j).startLock = s.startLock := by
  unfold State.killSup
  split <;> rfl

/-- A killed supervisor leaves its record in place. -/
theorem killSup_supervisor : (s.killSup j).supervisor = s.supervisor := by
  unfold State.killSup
  split <;> rfl

/-- A killed supervisor does nothing more to the radio. -/
theorem killSup_history : (s.killSup j).history = s.history := by
  unfold State.killSup
  split <;> rfl

/-- Killing one supervisor leaves the others as they were. -/
theorem killSup_sups_of_ne {j' : Nat} (h : j' ≠ j) : (s.killSup j).sups j' = s.sups j' := by
  unfold State.killSup
  split
  · exact Function.update_of_ne h _ _
  · rfl

/-- A supervisor that was killed does not run. -/
theorem killSup_sups : ¬ ((s.killSup j).sups j).isAlive := by
  unfold State.killSup
  split
  · simp [State.supDone, State.supAt, Sup.isAlive]
  · assumption

/-- A lock that another process holds stays held. -/
theorem release_windowLock {x y : Holder} (hne : y ≠ x) (h : s.windowLock = some y) :
    (s.release x).windowLock = some y := by
  have hx : s.windowLock ≠ some x := fun hx => hne (Option.some.inj (h.symm.trans hx))
  exact (if_neg hx).trans h

/-- A kill ends a supervisor that runs, and no other. -/
theorem killSup_cases :
    s.killSup j = s ∨ s.killSup j = s.supDone j := by
  unfold State.killSup
  split
  · exact .inr rfl
  · exact .inl rfl

/-- Which supervisors have exited after one has. -/
theorem supDone_sups (j' : Nat) :
    (s.supDone j).sups j' = if j' = j then .exited else s.sups j' := by
  simp [State.supDone, State.supAt, State.release, Function.update_apply]

end Tables

/-- No process is made, and none that is not there does anything. -/
structure Keeps (s s' : State) : Prop where
  started : s'.started = s.started
  spawned : s'.spawned = s.spawned
  stopped : s'.stopped = s.stopped
  starts : ∀ i, ¬ (s.starts i).isAlive → s'.starts i = s.starts i
  sups : ∀ j, ¬ (s.sups j).isAlive → s'.sups j = s.sups j
  stops : ∀ k, s.stops k = .idle → s'.stops k = .idle

namespace Keeps

variable {s s' s'' : State} {x : Input} {i j k : Nat}

/-- Nothing is forgotten where nothing happens. -/
theorem refl (s : State) : Keeps s s where
  started := rfl
  spawned := rfl
  stopped := rfl
  starts _ _ := rfl
  sups _ _ := rfl
  stops _ h := h

/-- What is kept twice is kept. -/
theorem trans (h : Keeps s s') (h' : Keeps s' s'') : Keeps s s'' where
  started := h'.started.trans h.started
  spawned := h'.spawned.trans h.spawned
  stopped := h'.stopped.trans h.stopped
  starts i hi := by
    have hkept := h.starts i hi
    rw [h'.starts i (hkept ▸ hi), hkept]
  sups j hj := by
    have hkept := h.sups j hj
    rw [h'.sups j (hkept ▸ hj), hkept]
  stops k hk := h'.stops k (h.stops k hk)

/-- A `start` that is there goes on. -/
theorem of_start {pc : Start} (hi : (s.starts i).isAlive)
    (hstarts : s'.starts = Function.update s.starts i pc) (hsups : s'.sups = s.sups)
    (hstops : s'.stops = s.stops) (hstarted : s'.started = s.started)
    (hspawned : s'.spawned = s.spawned) (hstopped : s'.stopped = s.stopped) : Keeps s s' where
  started := hstarted
  spawned := hspawned
  stopped := hstopped
  starts i' hi' := by
    have hne : i' ≠ i := fun heq => hi' (heq ▸ hi)
    rw [hstarts, Function.update_of_ne hne]
  sups j _ := congrFun hsups j
  stops k hk := (congrFun hstops k).trans hk

/-- A supervisor that is there goes on. -/
theorem of_sup {pc : Sup} (hj : (s.sups j).isAlive)
    (hsups : s'.sups = Function.update s.sups j pc) (hstarts : s'.starts = s.starts)
    (hstops : s'.stops = s.stops) (hstarted : s'.started = s.started)
    (hspawned : s'.spawned = s.spawned) (hstopped : s'.stopped = s.stopped) : Keeps s s' where
  started := hstarted
  spawned := hspawned
  stopped := hstopped
  starts i _ := congrFun hstarts i
  sups j' hj' := by
    have hne : j' ≠ j := fun heq => hj' (heq ▸ hj)
    rw [hsups, Function.update_of_ne hne]
  stops k hk := (congrFun hstops k).trans hk

/-- A killed start forgets nothing of what was. -/
theorem killStart (s : State) (i : Nat) : Keeps s (s.killStart i) := by
  unfold State.killStart
  split
  · next hi => exact of_start hi rfl rfl rfl rfl rfl rfl
  · exact refl s

/-- A killed supervisor forgets nothing of what was. -/
theorem killSup (s : State) (j : Nat) : Keeps s (s.killSup j) := by
  unfold State.killSup
  split
  · next hj => exact of_sup hj rfl rfl rfl rfl rfl rfl
  · exact refl s

/-- A signal to a start changes nothing but the signal. -/
theorem termStart (s : State) (i : Nat) : Keeps s (s.termStart i) := by
  unfold State.termStart
  split
  · exact ⟨rfl, rfl, rfl, fun _ _ => rfl, fun _ _ => rfl, fun _ h => h⟩
  · exact killStart s i

/-- A signal to a supervisor changes nothing but the signal. -/
theorem termSup (s : State) (j : Nat) : Keeps s (s.termSup j) := by
  unfold State.termSup
  split
  · exact ⟨rfl, rfl, rfl, fun _ _ => rfl, fun _ _ => rfl, fun _ h => h⟩
  · exact killSup s j

/-- A `stop` that is there goes on. -/
theorem stopAt {pc : Stop} (h : Keeps s s') (hk : s.stops k ≠ .idle) :
    Keeps s (s'.stopAt k pc) where
  started := h.started
  spawned := h.spawned
  stopped := h.stopped
  starts := h.starts
  sups := h.sups
  stops k' hk' := by
    have hne : k' ≠ k := by
      rintro rfl
      exact hk hk'
    exact (Function.update_of_ne hne _ _).trans (h.stops k' hk')

/-- A `stop` that is there goes on, and nothing else. -/
private theorem of_stop {pc : Stop} (hk : s.stops k ≠ .idle)
    (hstops : s'.stops = Function.update s.stops k pc) (hstarts : s'.starts = s.starts)
    (hsups : s'.sups = s.sups) (hstarted : s'.started = s.started)
    (hspawned : s'.spawned = s.spawned) (hstopped : s'.stopped = s.stopped) : Keeps s s' where
  started := hstarted
  spawned := hspawned
  stopped := hstopped
  starts i _ := congrFun hstarts i
  sups j _ := congrFun hsups j
  stops k' hk' := by
    rw [hstops]
    exact ((refl s).stopAt hk).stops k' hk'

end Keeps

/-- A start that has exited takes no step. -/
theorem startStep_of_dead {i : Nat} {x : Input} {s : State} (hi : ¬ (s.starts i).isAlive) :
    startStep i x s = s := by
  unfold startStep
  cases hpc : s.starts i <;> simp_all [Start.isAlive]

/-- A supervisor that has exited takes no step. -/
private theorem supStep_of_dead {j : Nat} {x : Input} {s : State} (hj : ¬ (s.sups j).isAlive) :
    supStep j x s = s := by
  unfold supStep
  cases hpc : s.sups j <;> simp_all [Sup.isAlive]

/-- A supervisor's step leaves the starts alone. -/
theorem supStep_starts (j : Nat) (x : Input) (s : State) :
    (supStep j x s).starts = s.starts := by
  unfold supStep
  repeat' split
  all_goals rfl

/-- A supervisor's step leaves the other supervisors alone. -/
theorem supStep_sups_of_ne {j j' : Nat} (x : Input) (s : State) (h : j' ≠ j) :
    (supStep j x s).sups j' = s.sups j' := by
  unfold supStep
  repeat' split
  all_goals first
    | rfl
    | exact Function.update_of_ne h _ _

/-- A step of a `start` makes no process but a supervisor with a token. -/
theorem startStep_cases (i : Nat) (x : Input) (s : State) :
    Keeps s (startStep i x s) ∨ (s.starts i).isAlive ∧ ∃ token,
      startStep i x s =
        { (s.startAt i (.check s.spawned)).supAt s.spawned (.entry (some token)) with
          spawned := s.spawned + 1 } := by
  by_cases hi : (s.starts i).isAlive
  · unfold startStep
    split
    case h_24 =>
      split
      · exact .inr ⟨hi, _, rfl⟩
      · exact .inl (.of_start hi rfl rfl rfl rfl rfl rfl)
    case h_28 sup _ =>
      refine .inl ((Keeps.killSup s sup).trans (.of_start ?_ rfl rfl rfl rfl rfl rfl))
      rwa [killSup_starts]
    all_goals
      left
      repeat' split
      all_goals first
        | exact .of_start hi rfl rfl rfl rfl rfl rfl
        | exact .refl s
  · left
    rw [startStep_of_dead hi]
    exact .refl s

/-- A supervisor's step keeps what was. -/
private theorem supStep_keeps (j : Nat) (x : Input) (s : State) : Keeps s (supStep j x s) := by
  by_cases hj : (s.sups j).isAlive
  · unfold supStep
    repeat' split
    all_goals first
      | exact .of_sup hj rfl rfl rfl rfl rfl rfl
      | exact .refl s
  · rw [supStep_of_dead hj]
    exact .refl s

/-- A stop's step keeps what was. -/
private theorem stopStep_keeps (k : Nat) (x : Input) (s : State) : Keeps s (stopStep k x s) := by
  by_cases hk : s.stops k = .idle
  · unfold stopStep
    simp only [hk]
    exact .refl s
  · unfold stopStep
    repeat' split
    all_goals first
      | exact .of_stop hk rfl rfl rfl rfl rfl rfl
      | exact .refl s
      | exact (Keeps.termStart s _).stopAt hk
      | exact (Keeps.termSup s _).stopAt hk
      | exact (Keeps.killSup s _).stopAt hk

/-- The processes that were not made yet do nothing. -/
structure Fresh (s : State) : Prop where
  starts : ∀ i, s.started ≤ i → s.starts i = .idle
  sups : ∀ j, s.spawned ≤ j → s.sups j = .idle
  stops : ∀ k, s.stopped ≤ k → s.stops k = .idle

namespace Fresh

variable {s s' : State}

/-- What is kept leaves the numbers fresh. -/
theorem of_keeps (h : Fresh s) (hkeeps : Keeps s s') : Fresh s' where
  starts i hi := by
    have hidle := h.starts i (hkeeps.started ▸ hi)
    rw [hkeeps.starts i (by simp [hidle, Start.isAlive]), hidle]
  sups j hj := by
    have hidle := h.sups j (hkeeps.spawned ▸ hj)
    rw [hkeeps.sups j (by simp [hidle, Sup.isAlive]), hidle]
  stops k hk := hkeeps.stops k (h.stops k (hkeeps.stopped ▸ hk))

/-- Numbers stay fresh in a step. -/
theorem step (h : Fresh s) (a : Action) : Fresh (step s a) := by
  have hlater : ∀ {pc : Sup} {j : Nat}, s.spawned + 1 ≤ j →
      Function.update s.sups s.spawned pc j = .idle := by
    intro pc j hj
    rw [Function.update_of_ne (by omega)]
    exact h.sups j (by omega)
  cases a with
  | wait => exact ⟨h.starts, h.sups, h.stops⟩
  | newStart secs =>
    refine ⟨fun i hi => ?_, h.sups, h.stops⟩
    have hi' : s.started + 1 ≤ i := hi
    exact (Function.update_of_ne (by omega) _ _).trans (h.starts i (by omega))
  | newSup => exact ⟨h.starts, fun _ hj => hlater hj, h.stops⟩
  | newStop =>
    refine ⟨h.starts, h.sups, fun k hk => ?_⟩
    have hk' : s.stopped + 1 ≤ k := hk
    exact (Function.update_of_ne (by omega) _ _).trans (h.stops k (by omega))
  | start i x =>
    change Fresh (startStep i x s)
    rcases startStep_cases i x s with hkeeps | ⟨hi, token, heq⟩
    · exact h.of_keeps hkeeps
    · rw [heq]
      refine ⟨fun i' hi' => ?_, fun _ hj => hlater hj, h.stops⟩
      have hidle := h.starts i' hi'
      have hne : i' ≠ i := by
        rintro rfl
        simp [hidle, Start.isAlive] at hi
      exact (Function.update_of_ne hne _ _).trans hidle
  | sup j x => exact h.of_keeps (supStep_keeps j x s)
  | stop k x => exact h.of_keeps (stopStep_keeps k x s)
  | killStart i => exact h.of_keeps (.killStart s i)
  | killSup j => exact h.of_keeps (.killSup s j)

/-- At the start none is used. -/
theorem init : Fresh init := ⟨fun _ _ => rfl, fun _ _ => rfl, fun _ _ => rfl⟩

/-- Numbers are fresh in every state reached. -/
theorem run (h : Fresh s) (as : List Action) : Fresh (run s as) := by
  induction as generalizing s with
  | nil => exact h
  | cons a as ih => exact ih (h.step a)

end Fresh

end Omdrop.Radio.Window
