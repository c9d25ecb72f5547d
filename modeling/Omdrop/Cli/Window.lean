import Omdrop.Text.Space
import Omdrop.Identity.Steps
import Omdrop.Cli.Unit

namespace Omdrop.Cli

open Omdrop.Text Omdrop.Identity

/-!
# Receiving on and off

What `on` and `off` do under the identity lock, as programs over a `Desk`: the identity commands'
world, whether the receiver runs, and its unit.  The identity commands they run are the ones of
the identity model; of every other program they start, `Host` says how it ends.
-/

variable [SerdeJson]

/-! ### What a command finds -/

/-- A program and its arguments. -/
abbrev Argv := List Text

/-- What came of `pkexec HELPER start`. -/
inductive Gate
  | notRun (err : Text)
  | cancelled
  | timedOut
  | exited (rc : Int) (out : Text)
  /-- it was not run, timed out or ended, and a signal came after the last look for one -/
  | caughtLate
  deriving DecidableEq, Repr

/-- What came of copying an older identity. -/
inductive Migrated
  | copied
  | nothing
  | failed
  deriving DecidableEq, Repr

/-- What a command finds outside: the environments of the identity commands it starts (`none`: the
    command cannot be started); how other programs end; whether `awdl0` has a link-local address;
    the radio helper, when it is executable, and what came of starting it; the paths of `omdrop`,
    of its plugin, of the core receiver, of the home directory and of the unit's drop-in; the
    plugin's files; which files can be written; and how `status` ends. -/
structure Host where
  window : Option Env
  stopBegin : Option Env
  stopEnd : Option Env
  ensureTls : Option Env
  code : Argv → Int
  linkLocal : Bool
  helper : Option Text
  gate : Gate
  command : Text
  plugin : Option Text
  receiver : Option Text
  home : Text
  dropinPath : Text
  templateReadable : Bool
  template : Option Text
  scriptReadable : Bool
  createsDir : Bool
  writesUnit : Bool
  writesDropin : Bool
  migrated : Migrated
  notifies : Bool
  status : Int

/-- What commands change: the world of the identity commands, whether the receiver runs, its
    installed unit, and the unit's drop-in. -/
structure Desk where
  world : World
  receiver : Bool
  unit : Option Text
  dropin : Option Text

/-- What a command started, and how it ended: an identity command, the radio helper, or another
    program. -/
inductive Ran
  | id (args : Argv) (code : Int)
  | radio (secs : Text)
  | run (argv : Argv) (code : Int)
  deriving DecidableEq, Repr

/-- The desk in the middle of a command, with what the command started and said on stderr. -/
structure Running where
  desk : Desk
  ran : List Ran
  said : List Text

/-- The way out of a command. -/
structure Exit where
  code : Int
  message : Text
  deriving DecidableEq, Repr

/-- A part of a command. -/
abbrev Run (α : Type) := Fallible Exit Running α

/-- Say something on stderr. -/
def tell (text : Text) : Run Unit :=
  Fallible.modify fun s => { s with said := s.said ++ [text] }

def die {α : Type} (message : Text) : Run α := Fallible.fail ⟨1, message⟩

def receiverUnit : Text := "airdrop-receiver.service"

def startUnit : Argv := ["systemctl", "--user", "start", receiverUnit]

def stopUnit : Argv := ["systemctl", "--user", "stop", receiverUnit]

/-- Does the receiver run after a program ended? -/
def receiverAfter (argv : Argv) (code : Int) (receiver : Bool) : Bool :=
  if code = 0 ∧ argv = startUnit then true
  else if code = 0 ∧ argv = stopUnit then false
  else receiver

/-- Run a program. -/
def run (host : Host) (argv : Argv) : Run Int := do
  let code := host.code argv
  Fallible.modify fun s => { s with
    desk := { s.desk with receiver := receiverAfter argv code s.desk.receiver }
    ran := s.ran ++ [.run argv code] }
  return code

/-! ### Identity commands -/

/-- The status an identity command returned. -/
def exitCode (events : List Event) : Int :=
  (events.filterMap fun
    | .exit code => some code
    | _          => none).getLast?.getD 1

/-- What an event prints of a key. -/
def valueSaid (key : Text) : Event → Option Text
  | .say k value => if k = key then some value else none
  | _            => none

/-- The last value it printed of a key. -/
def lastSaid (key : Text) (events : List Event) : Text :=
  (events.filterMap (valueSaid key)).getLast?.getD []

/-- Run one identity command in a child process. -/
def child (env : Option Env) (args : Argv) (x : Env → World → Int × List Event × World) :
    Run (Int × List Event) := fun s =>
  match env with
  | none     => (.ok (127, []), { s with ran := s.ran ++ [.id args 127] })
  | some env =>
    let (code, events, world) := x env s.desk.world
    (.ok (code, events), { s with
      desk := { s.desk with world }
      ran := s.ran ++ [.id args code] })

/-- An identity command of one step. -/
def command (c : Cmd) (env : Env) (w : World) : Int × List Event × World :=
  let (_, moved, w') := advance env (start c) w
  let events := moved.flatMap Moved.events
  (exitCode events, events, w')

/-- An integer argument: `some none` for one too large. -/
def pyInt (text : Text) : Option (Option Int) :=
  let t := trim text
  let neg := t.head? == some '-'
  let body := if neg || t.head? == some '+' then t.tail else t
  if body.isEmpty || body.head? == some '_' || body.getLast? == some '_' ||
      decide ("__".toList <:+: body) then none
  else if !(body.all fun c => c.isDigit || c == '_') then none
  else
    match ofDecimal (body.filter (· ≠ '_')) with
    | some n => if n < 2 ^ 127 then some (some (if neg then -n else n)) else some none
    | none   => some none

/-- `window --seq SEQ`. -/
def windowCommand (seq : Text) (env : Env) (w : World) : Int × List Event × World :=
  match pyInt seq with
  | none   => (2, [], w)
  | some n => command (.window n) env w

/-- The world with the self-signed pair, if it was made. -/
def madePair (made : Option (List UInt8 × List UInt8)) (w : World) : World :=
  match made with
  | none                    => w
  | some (certificate, key) => { w with
    files := Function.update (Function.update w.files .selfCertificate (some certificate))
      .selfKey (some key) }

def unlinkAll (env : Env) : List KeyFile → R Unit
  | []        => return ()
  | f :: left => do
    unlink env f
    unlinkAll env left

/-- A legacy pair under the Apple names is renamed, when there is one.  Is it? -/
def renameLegacy (env : Env) : R Bool := do
  match ← migrateLegacy env with
  | .unlinkLegacy left => do
    unlinkAll env left
    return true
  | _ => return false

/-- `ensure-self-signed`. -/
def ensureSelfSigned (env : Env) : R Int := do
  Identity.call env .io
  match env.created with
  | .error e => do
    warn e
    return 2
  | .ok made => do
    change (madePair made)
    let renamed ← renameLegacy env
    say "renamed" (if renamed then "true" else "false")
    return if made.isSome then 0 else 1

def ensureCommand (env : Env) (w : World) : Int × List Event × World :=
  match ensureSelfSigned env ⟨w, 0, []⟩ with
  | (.ok code, s) => (code, s.events, s.world)
  | (.error _, s) => (1, s.events, s.world)

def ensureTls (host : Host) : Run Int := do
  let (code, _) ← child host.ensureTls ["ensure-self-signed"] ensureCommand
  return code

/-- A notice from an identity command, on stderr and as a toast. -/
def identityNotice (host : Host) (message : Text) : Run Unit := do
  tell message
  if host.notifies then
    let _ ← run host ["omarchy-notification-send", "-t", "8000", "Omdrop", message]

def notices (host : Host) : List Event → Run Unit
  | []                => return ()
  | .say key v :: es  => do
    if key = "notice".toList then identityNotice host v
    notices host es
  | _ :: es           => notices host es

/-! ### The receiver's unit -/

def oldPaths : Text := "ReadWritePaths=%h/.opendrop"

def newPaths : Text := "ReadWritePaths=%h/.omdrop"

/-- A drop-in of before the identity moved. -/
def isStale (dropin : Option Text) : Bool :=
  match dropin with
  | none      => false
  | some text => (strLines text).contains oldPaths

def fixDropin (text : Text) : Text :=
  List.intercalate ['\n'] ((text.splitOn '\n').map fun l => if l = oldPaths then newPaths else l)

/-- What the unit should be, or why it cannot be told. -/
def unitText (host : Host) (plugin : Text) : Except Text Text :=
  if !host.templateReadable then
    .error "This copy of omdrop is missing the file that describes the receiving service, so there is nothing to set up. Install the plugin again.".toList
  else if host.receiver.isNone && !host.scriptReadable then
    .error "This copy of omdrop is missing the program that receives files. Install the plugin again.".toList
  else
  match host.template with
  | none     => .error "omdrop could not read its own files.".toList
  | some raw =>
  match renderUnit (raw.rdropWhile (· == '\n')) plugin host.receiver with
  | none          =>
    .error "omdrop is installed under a path with a line break in it, so the receiving service was left alone.".toList
  | some rendered =>
    -- a unit with the placeholder still in it starts nothing
    if pluginDirMark <:+: rendered then
      .error "omdrop could not work out where it is installed, so the receiving service was left alone.".toList
    else .ok rendered

/-- The installed unit, as it is compared. -/
def installedUnit (d : Desk) : Text := (d.unit.getD []).rdropWhile (· == '\n')

/-- Read the desk. -/
def desk : Run Desk := fun s => (.ok s.desk, s)

/-- Change the desk. -/
def setDesk (f : Desk → Desk) : Run Unit := Fallible.modify fun s => { s with desk := f s.desk }

/-- Write the unit when the installed copy differs.  Is it written? -/
def writeUnit (host : Host) (rendered : Text) : Run Bool := do
  if rendered = installedUnit (← desk) then return false
  else if !host.writesUnit then die "omdrop could not write the receiving service."
  else
  setDesk fun d => { d with unit := some (rendered ++ ['\n']) }
  return true

/-- Rewrite a drop-in that names the old identity folder.  Is it rewritten? -/
def writeDropin (host : Host) : Run Bool := do
  if !isStale (← desk).dropin then return false
  else if !host.writesDropin then
    die ("omdrop could not update ".toList ++ host.dropinPath ++ ".".toList)
  else
  setDesk fun d => { d with dropin := d.dropin.map fixDropin }
  return true

def daemonReload : Argv := ["systemctl", "--user", "daemon-reload"]

/-- Have systemd read its units again, when any is written. -/
def reload (host : Host) (changed : Bool) : Run Bool := do
  if !changed then return false
  else if (← run host daemonReload) ≠ 0 then
    die "The receiving service was written, but systemd would not reload it. Log out and back in, then try again."
  else return true

/-- Write the receiving service when the installed copy differs from the template.  Is anything
    written? -/
def unitInstall (host : Host) (plugin : Text) : Run Bool := do
  match unitText host plugin with
  | .error message => die message
  | .ok rendered   =>
    if !host.createsDir then
      die "omdrop could not create the folder systemd keeps your own services in."
    else
    let unit ← writeUnit host rendered
    let dropin ← writeDropin host
    reload host (unit || dropin)

/-! ### Starting and stopping -/

def cancelUnits : List Argv :=
  [["systemctl", "--user", "stop", "omdrop-window.timer"],
    ["systemctl", "--user", "stop", "omdrop-watch.service"],
    ["systemctl", "--user", "stop", "omdrop-identity-expiry.timer"],
    -- a transient unit that failed stays loaded under its name
    ["systemctl", "--user", "reset-failed", "omdrop-window.timer", "omdrop-window.service",
      "omdrop-watch.service", "omdrop-identity-expiry.timer", "omdrop-identity-expiry.service"]]

def runAll (host : Host) : List Argv → Run Unit
  | []            => return ()
  | argv :: argvs => do
    let _ ← run host argv
    runAll host argvs

def cancelWindow (host : Host) : Run Unit := runAll host cancelUnits

/-- Clear what `window` set up. -/
def identityAbort (host : Host) : Run Unit := do
  let _ ← child host.stopBegin ["stop-begin"] (command .stopBegin)
  let _ ← child host.stopEnd ["stop-end"] (command .stopEnd)

def copiedMessage (host : Host) : Text :=
  "Copied this computer's AirDrop identity from ".toList ++ host.home ++
    "/.opendrop/keys to ".toList ++ host.home ++
    "/.omdrop/keys. The original is left in place.".toList

def copyFailedMessage (host : Host) : Text :=
  "omdrop could not copy the AirDrop identity from ".toList ++ host.home ++
    "/.opendrop/keys to ".toList ++ host.home ++ "/.omdrop/keys.".toList

def prepareIdentity (host : Host) : Run Bool := do
  match host.migrated with
  | .copied  => do
    tell (copiedMessage host)
    return true
  | .failed  => do
    tell (copyFailedMessage host)
    return false
  | .nothing => return true

/-- Start the receiver, its unit and identity brought up to date first. -/
def startReceiver (host : Host) : Run Bool := do
  match host.plugin with
  | none => do
    tell "omdrop cannot tell where it is installed."
    return false
  | some plugin => do
    let _ ← unitInstall host plugin
    if !(← prepareIdentity host) then return false
    else if (← ensureTls host) = 2 then return false
    else
    let _ ← run host ["systemctl", "--user", "reset-failed", receiverUnit]
    return decide ((← run host startUnit) = 0)

/-- What bringing the radio up came to. -/
inductive Radio
  | up
  | failed (err : Text)
  | cancelled
  deriving DecidableEq, Repr

/-- Does a line start with the time of day? -/
def isStamped (l : Text) : Bool :=
  match l.take 10 with
  | [a, b, c, d, e, f, g, h, z, s] =>
    [a, b, d, e, g, h].all Char.isDigit && c == ':' && f == ':' && z == 'Z' && s == ' '
  | _ => false

/-- The last line the helper said, without its time. -/
def lastRadioLine (out : Text) : Text :=
  let last := ((strLines out).reverse.find? fun l => !(trim l).isEmpty).getD []
  if isStamped last then last.drop 10 else last

/-- What the helper's end means, or the way out of the command where the signals are untrapped. -/
def radioOutcome (host : Host) : Except Exit Radio :=
  match host.helper, host.gate with
  | none, _                => .ok .up
  | some _, .notRun err    => .ok (.failed err)
  | some _, .cancelled     => .ok .cancelled
  | some _, .timedOut      => .ok (.failed "The AirDrop radio did not come up within 720 seconds.")
  -- 5: already starting or already visible
  | some _, .exited rc out => .ok (if rc = 0 ∨ rc = 5 then .up else .failed (lastRadioLine out))
  -- `untrap_signals` ends the command itself, and nobody undoes the start
  | some _, .caughtLate    => .error ⟨130, "Cancelled."⟩

/-- The radio half. -/
def radioUp (host : Host) (secs : Text) : Run Radio := do
  match host.helper with
  | none        => Fallible.ofExcept (radioOutcome host)
  | some helper => do
    let _ ← run host ["pkexec", "--disable-internal-agent", helper, "status"]
    Fallible.modify fun s => { s with ran := s.ran ++ [.radio secs] }
    Fallible.ofExcept (radioOutcome host)

def radioStop (host : Host) : Run Unit := do
  match host.helper with
  | none        => return ()
  | some helper => do
    let _ ← run host ["pkexec", helper, "stop"]

def radioFailed {α : Type} (err : Text) : Run α :=
  die (if err.isEmpty then "The AirDrop radio could not be started.".toList else err)

/-- Undo a start that was cancelled while the radio came up. -/
def undoAndCancel {α : Type} (host : Host) (receiverUp : Bool) : Run α := do
  cancelWindow host
  if receiverUp then
    let _ ← run host stopUnit
  radioStop host
  identityAbort host
  Fallible.fail ⟨130, "Cancelled."⟩

/-! ### `on` -/

/-- The shape of a window: for a time, with its span as systemd is given it and its seconds. -/
inductive Mode
  | timed (dur : Text) (secs : Nat)
  | forever
  | once
  deriving DecidableEq, Repr

/-- The seconds the radio is told. -/
def Mode.radioSecs : Mode → Text
  | timed _ secs => decimal secs
  | _            => decimal 0

/-- A whole number of 64 bits, 0 when it is none. -/
def parseSeconds (t : Text) : Int :=
  let body := if t.head? == some '-' || t.head? == some '+' then t.tail else t
  if allDigits body then
    let n : Int := (ofDecimal body).getD 0
    let i := if t.head? == some '-' then -n else n
    if -2 ^ 63 ≤ i ∧ i < 2 ^ 63 then i else 0
  else 0

/-- A timer that turns everything off. -/
def offTimer (host : Host) (after unit : Text) : Argv :=
  ["systemd-run", "--user", "--quiet", "--on-active=".toList ++ after, "--unit=".toList ++ unit,
    host.command, "off", "--force"]

def expiryTimer (host : Host) (expiry : Text) : Argv :=
  let n := parseSeconds (trim expiry)
  offTimer host (decimalInt (if 0 < n then n else 1) ++ ['s']) "omdrop-identity-expiry"

/-- Is there a hard expiry to arm? -/
def expires (source expiry : Text) : Bool :=
  decide (source = "1password".toList) && !expiry.isEmpty

/-- The cache's hard expiry; a window that cannot arm it does not start. -/
def armExpiry (host : Host) (source expiry : Text) : Run Unit := do
  if expires source expiry then
    if (← run host (expiryTimer host expiry)) ≠ 0 then do
      identityAbort host
      die "The AirDrop receiver would not start: the identity cache's expiry could not be armed."
    else return ()
  else return ()

/-- The watcher carries the window's shape. -/
def Mode.shape : Mode → Argv
  | timed dur _ => ["--window", dur]
  | forever     => []
  | once        => ["--once"]

def watchArgv (host : Host) (mode : Mode) : Argv :=
  "systemd-run".toList :: "--user".toList :: "--quiet".toList :: "--unit=omdrop-watch".toList ::
    host.command :: "watch".toList :: mode.shape

def watch (host : Host) (mode : Mode) : Run Unit := do
  if (← run host (watchArgv host mode)) ≠ 0 then
    tell "receiving, but nothing is watching for arrivals"

def wouldNotStart : Text := "The AirDrop receiver would not start."

/-- The receiver first when it can start, the radio second; without a link-local address the radio
    goes first. -/
def bringUp (host : Host) (secs : Text) : Run Unit := do
  if host.linkLocal then
    if !(← startReceiver host) then do
      cancelWindow host
      identityAbort host
      die wouldNotStart
    else
    match ← radioUp host secs with
    | .up         => return ()
    | .cancelled  => undoAndCancel host true
    | .failed err => do
      cancelWindow host
      let _ ← run host stopUnit
      radioStop host
      identityAbort host
      radioFailed err
  else
    match ← radioUp host secs with
    | .cancelled  => undoAndCancel host false
    | .failed err => do
      cancelWindow host
      -- a start that timed out may still finish
      radioStop host
      identityAbort host
      radioFailed err
    | .up         =>
      if !(← startReceiver host) then do
        cancelWindow host
        radioStop host
        identityAbort host
        die wouldNotStart
      else return ()

/-- The window's deadline, from where receiving works, and the radio's again. -/
def armWindow (host : Host) : Mode → Run Unit
  | .timed dur secs => do
    if (← run host (offTimer host dur "omdrop-window")) ≠ 0 then
      die ("receiving, but the ".toList ++ dur ++
        " window could not be armed -- turn it off yourself".toList)
    else
    match host.helper with
    | none        => return ()
    | some helper => do
      let _ ← run host ["pkexec", helper, "start", decimal secs]
  | _ => return ()

/-- What `on` does once the identity window is recorded. -/
def startWindow (host : Host) (mode : Mode) (source expiry : Text) : Run Int := do
  cancelWindow host
  armExpiry host source expiry
  watch host mode
  bringUp host mode.radioSecs
  armWindow host mode
  return host.status

/-- What `on` does with the lock: `window` refuses if an `off` ran since the sequence number was
    read, and otherwise fixes this window's identity. -/
def onLocked (host : Host) (mode : Mode) (seq : Text) : Run Int := do
  let (code, events) ← child host.window ["window", "--seq", seq] (windowCommand seq)
  if code = 3 then do
    tell "Omdrop was turned off while it was starting."
    return 0
  else if code ≠ 0 then
    die "The AirDrop receiver would not start: its identity could not be settled."
  else do
    notices host events
    startWindow host mode (lastSaid "source" events) (lastSaid "expiry_in" events)

/-! ### `off` -/

/-- Under the lock, in this order: nothing that starts later can publish into this window; the
    receiver stops before the identity it loaded is released; the window file goes last. -/
def offUnderLock (host : Host) : Run Unit := do
  let _ ← child host.stopBegin ["stop-begin"] (command .stopBegin)
  if (← run host stopUnit) ≠ 0 then die "The AirDrop receiver would not stop."
  else
  cancelWindow host
  radioStop host
  let _ ← child host.stopEnd ["stop-end"] (command .stopEnd)

end Omdrop.Cli
