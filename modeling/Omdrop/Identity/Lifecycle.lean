import Omdrop.Identity.Store

namespace Omdrop.Identity

open Omdrop.Text

/-!
# The parts of the identity commands

The parts of the identity commands that run under the identity lock, each as one program: the
commands that are no more than that, and `publishIfCurrent`, `saveItemIds` and `adopt`, with which
the longer ones commit.
-/

variable [SerdeJson]

/-! ### Parts of commands -/

def opAccount : Text := "identity_op_account"
def opVault : Text := "identity_op_vault"
def opItem : Text := "identity_op_item"

/-- The item that settings name. -/
def refOf (s : Settings) : ItemRef :=
  ⟨(s.lookup opAccount).getD [], (s.lookup opVault).getD [], (s.lookup opItem).getD []⟩

/-- The settings that name an item. -/
def ItemRef.changes (ref : ItemRef) : List (Text × Text) :=
  [(opAccount, ref.account), (opVault, ref.vault), (opItem, ref.item)]

def itemRef (env : Env) : R ItemRef := do
  let ref := refOf (← settings env)
  Fallible.failIf (ref.vault.isEmpty || ref.item.isEmpty)
    (.fetch ⟨"No 1Password item configured", "run: omdrop identity 1password import"⟩)
  return ref

/-- Run `op`. -/
def op (env : Env) (call : OpCall) : R (List UInt8) := do
  let res := env.op call.args
  emit (.op call.args res)
  Fallible.ofExcept (res.mapError .fetch)

def notJson : Fail :=
  .fetch ⟨"1Password could not provide the identity", "op printed something that is not JSON"⟩

/-- What `op` prints, as JSON; nothing printed counts as `empty`. -/
def opJson (env : Env) (call : OpCall) (empty : Text) : R Json := do
  let raw ← op env call
  match SerdeJson.value (if raw.isEmpty then utf8 empty else raw) with
  | some v => return v
  | none   => Fallible.fail notJson

def jsonId (v : Json) : Text := ((v.get "id".toList).bind Json.asStr).getD []

def jsonVaultId (v : Json) : Text := ((v.get "vault".toList).map jsonId).getD []

/-- The 1Password account to pin, when the app has exactly one. -/
def accountOf (accounts : Json) : Text :=
  match accounts.asArray with
  | some [one] => ((one.get "account_uuid".toList).bind Json.asStr).getD []
  | _          => []

def accountId (env : Env) : R Text := do
  return accountOf (← opJson env .accounts "[]")

/-- The certificate, the key and the record of a set of files. -/
def checkFiles (env : Env) (stored : List (List UInt8)) : Option Text :=
  env.checkApple (stored.getD 0 []) (stored.getD 1 []) (stored.getD 2 [])

def unusable (problem : Text) : Fail :=
  .fetch ⟨"The Apple identity in 1Password is unusable", problem⟩

/-- The payload of fetched files. -/
def payloadOf (env : Env) (s : Settings) (t0 : Int) (stored : List (List UInt8)) :
    Option (List UInt8) :=
  let t2 := t0 + maxLifetime
  let t1 := min (t0 + cacheHours s * 3600) t2
  let fetchId := env.random.flatMap fun b => hex 2 b.toNat
  encodePayload fetchId t0 t1 t2 (stored.getD 0 []) (stored.getD 1 []) (stored.getD 2 [])

/-- What publishing came to. -/
inductive Outcome
  | published
  | superseded
  | windowOpen
  | failed
  deriving DecidableEq, Repr

/-- Is a 1Password window recorded? -/
def WindowState.isOnePassword : WindowState → Bool
  | parsed (.onePassword ..) => true
  | _                        => false

/-- Publish under the lock, only if nothing invalidated this fetch. -/
def publishIfCurrent (env : Env) (f : Fetched) (generation : Nat) : R Outcome := do
  call env .io
  if (← counter env gen) ≠ generation then return .superseded
  -- never replace a live window's cache
  else if (← readWindow env).isOnePassword then return .windowOpen
  else
    match parsePayload f.data with
    | none   => Fallible.fail (.keyring "identity payload would not parse".toList)
    | some p =>
      publish env f (p.periodEnds - (← ask World.now))
      return .published

def turnOff : Text := "Turn Omdrop off first."

/-- Under the lock: refuse if a window opened or the generation moved. -/
def checkCurrent (env : Env) (generation : Nat) : R Unit := do
  Fallible.failIf (← windowOpen) (.superseded turnOff)
  Fallible.failIf ((← counter env gen) ≠ generation)
    (.superseded "Cancelled: the identity settings changed meanwhile.".toList)

/-- Record a newly created item's IDs, mode unchanged. -/
def saveItemIds (env : Env) (ref : ItemRef) (generation : Nat) : R Unit := do
  call env .io
  checkCurrent env generation
  settingSet env ref.changes

/-- Commit to a 1Password item, under the lock: the old cache is cleared, the IDs are saved and
    the mode last, and the generation moves. -/
def adopt (env : Env) (ref : ItemRef) (generation : Nat) : R Unit := do
  call env .io
  checkCurrent env generation
  match ← Fallible.attempt (revoke env) with
  | .error e =>
    Fallible.fail (.superseded ("Could not clear the cached identity (".toList ++ e.text ++
      "); nothing changed.".toList))
  | .ok _ =>
    settingSet env ref.changes
    settingSet env [(identitySource, "1password")]
    let _ ← bump env gen
    killFetch env

/-! ### Commands of one step -/

def onePasswordLines (p : Payload) (serial : Text) : List Text :=
  ["source=1password", "fetch_id=".toList ++ p.fetchId,
    "hard_expiry=".toList ++ decimalInt p.hardExpiry, "cache_serial=".toList ++ serial]

/-- The serial of the cache key, for readers that cannot search the keyring. -/
def findSerial (env : Env) : R Text := do
  match ← Fallible.attempt (call env .keyring) with
  | .error _ => return "None"
  | .ok ()   =>
    let found ← ask fun w => w.cache.isSome
    return if found then decimalInt env.serial else "None"

/-- Let the cache live as long as its window can, and make the lines of the window's file. -/
def extendCache (env : Env) (p : Payload) (serial : Text) : R (List Text) := do
  let left ← ask fun w => p.hardExpiry - w.now
  let _ ← setTimeout env left
  say "source" "1password"
  say "expiry_in" (decimalInt left)
  return onePasswordLines p serial

/-- A 1Password window, when the cache can serve one: the lines of its file. -/
def windowFromCache (env : Env) : R (List Text) := do
  let payload ← currentCache env
  let usable ← usableForNewWindow payload
  match payload.filter fun _ => usable with
  | none   => return []
  | some p => extendCache env p (← findSerial env)

/-- Read a file of the identity; what cannot be read counts as present. -/
def readOrPresent (env : Env) (f : KeyFile) : R (Option (List UInt8) × Bool) := do
  match ← Fallible.attempt (call env .io) with
  | .error _ => return (none, true)
  | .ok ()   =>
    let data ← ask fun w => w.files f
    return (data, data.isSome)

/-- What is wrong with the record on disk, if there is one. -/
def recordProblem (env : Env) (cert key : List UInt8) : R (Option Text) := do
  if ← ask fun w => (w.files .record).isSome then
    call env .io
    let record ← ask fun w => (w.files .record).getD []
    return env.checkApple cert key record
  else return none

/-- A window with the identity on disk, when there is a good one: the lines of its file. -/
def windowFromDisk (env : Env) : R (List Text) := do
  let (cert, haveCert) ← readOrPresent env .certificate
  let (key, haveKey) ← readOrPresent env .key
  let matching :=
    match cert, key with
    | some c, some k => !c.isEmpty && !k.isEmpty && env.keyMatches c k
    | _, _           => false
  if !(haveCert && haveKey && matching) then return []
  else
    match ← recordProblem env (cert.getD []) (key.getD []) with
    | some problem =>
      say "notice" "Apple identity unusable; using self-signed certificates. Peers must be in \"Everyone\" mode."
      warn ("omdrop: the Apple identity on disk is unusable: ".toList ++ problem)
      return []
    | none =>
      say "source" "disk"
      return ["source=disk"]

/-- The lines of a window of a mode, none when it cannot serve one. -/
def windowFor (env : Env) (m : Text) : R (List Text) :=
  if m = "1password".toList then windowFromCache env
  else if m = "disk".toList then windowFromDisk env
  else pure []

/-- A window with the self-signed identity: the lines of its file. -/
def selfSignedWindow : R (List Text) := do
  say "source" "self-signed"
  return ["source=self-signed"]

/-- The lines of a new window's file. -/
def windowLines (env : Env) : R (List Text) := do
  let lines ← windowFor env (← mode env)
  if lines.isEmpty then selfSignedWindow else return lines

/-- With `omdrop` holding the lock: fix this window's identity, or refuse. -/
def cmdWindow (env : Env) (n : Option Int) : R Int := do
  let current ← counter env seq
  -- `off` ran meanwhile: start nothing
  if n ≠ some (current : Int) then return 3
  else
    match ← readWindow env with
    | .parsed existing =>
      -- a repeated `on` keeps the window's choice
      say "source" existing.source
      match existing with
      | .onePassword _ hardExpiry =>
        say "expiry_in" (decimalInt (max (hardExpiry - (← ask World.now)) 0))
        return 0
      | _ => return 0
    | _ =>
      let lines ← windowLines env
      writePrivate env fun w => w.opened lines
      return 0

def cmdStopBegin (env : Env) : R Int := do
  let _ ← bump env seq
  return 0

def cmdStopEnd (env : Env) : R Int := do
  removeFile env World.closed
  match ← currentCache env with
  | none   => return 0
  | some p =>
    match ← Fallible.attempt (setTimeout env (p.periodEnds - (← ask World.now))) with
    | .ok _    => return 0
    | .error e =>
      warn ("omdrop: ".toList ++ e.text)
      return 0

def cmdLock (env : Env) : R Int := do
  call env .io
  if ← windowOpen then
    warn turnOff
    return 1
  else
  let _ ← bump env gen
  killFetch env
  match ← Fallible.attempt (revoke env) with
  | .error e =>
    warn ("omdrop: ".toList ++ e.text)
    return 1
  | .ok revoked =>
    warn (if revoked then "Cleared the identity cache."
      else "The identity cache was already empty.")
    return 0

def cmdOnepasswordOff (env : Env) : R Int := do
  call env .io
  if ← windowOpen then
    warn turnOff
    return 1
  else
  let _ ← bump env gen
  killFetch env
  let _ ← Fallible.attempt (revoke env)
  settingSet env [(identitySource, "self-signed")]
  warn "Omdrop no longer uses 1Password; the item in 1Password is kept."
  return 0

end Omdrop.Identity
