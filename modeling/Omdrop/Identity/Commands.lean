import Omdrop.Machine.Pool
import Omdrop.Identity.Lifecycle

namespace Omdrop.Identity

open Omdrop.Text

/-!
# The identity commands

Each command as the steps it makes: a part under the identity lock is one step, and so is every
look at something that another command may change meanwhile.  `Proc` is how far a command has
come, `advance` its next step, and `lifecycle` any number of commands at once.
-/

variable [SerdeJson]

/-- The arguments of `use`. -/
structure UseArgs where
  item : Text
  vault : Option Text
  account : Option Text
  deriving DecidableEq, Repr

/-- The arguments of `import`. -/
structure ImportArgs where
  vault : Option Text
  title : Text
  deriving DecidableEq, Repr

/-- The commands. -/
inductive Cmd
  | begin
  | window (n : Option Int)
  | stopBegin
  | stopEnd
  | lock
  | unlock
  | importFiles (args : ImportArgs)
  | use (args : UseArgs)
  | onepasswordOff
  deriving DecidableEq, Repr

/-- The commands that fill the cache. -/
inductive Caller
  | begin
  | unlock
  deriving DecidableEq, Repr

/-- A fetch: for which command, with the generation it read, and as of how many bumps. -/
structure Fetch where
  caller : Caller
  generation : Nat
  asOf : Nat
  deriving DecidableEq, Repr

/-- An import: its arguments, the generation it read, and what it read of the files. -/
structure Import where
  args : ImportArgs
  generation : Nat
  present : List (Option (List UInt8))
  deriving DecidableEq, Repr

/-- How far a command has come: what it does next. -/
inductive Proc
  -- `begin`
  | createPair
  | migrateLegacy
  | unlinkLegacy (left : List KeyFile)
  | beginSeq
  | beginMode
  | beginCache
  | beginWindow
  -- `unlock`
  | unlockMode
  | unlockCache
  -- `fill_cache`, and `fetch` in it
  | fillCache (caller : Caller)
  | fetchItem (f : Fetch)
  | fetchFiles (f : Fetch) (ref : ItemRef) (stored : List (List UInt8))
  | fetchCheck (f : Fetch) (ref : ItemRef) (stored : List (List UInt8))
  | fetchEncode (f : Fetch) (ref : ItemRef) (stored : List (List UInt8)) (t0 : Int)
  | publish (f : Fetch) (payload : Fetched)
  -- the commands of one step
  | window (n : Option Int)
  | stopBegin
  | stopEnd
  | lock
  | onepasswordOff
  -- `use`
  | useStart (args : UseArgs)
  | useGet (args : UseArgs) (generation : Nat)
  | useAccount (generation : Nat) (vault item : Text)
  | useFiles (generation : Nat) (ref : ItemRef) (stored : List (List UInt8))
  | useAdopt (generation : Nat) (ref : ItemRef)
  -- `import`
  | importStart (args : ImportArgs)
  | importPresent (i : Import)
  | importSettings (i : Import)
  | rerunItem (i : Import) (configured : Bool)
  | rerunFiles (i : Import) (configured : Bool) (ref : ItemRef) (stored : List (List UInt8))
  | rerunCompare (i : Import) (configured : Bool) (ref : ItemRef) (stored : List (List UInt8))
  | rerunAdopt (i : Import) (ref : ItemRef) (stored : List (List UInt8))
  | createItem (i : Import)
  | createAccount (i : Import) (vault item : Text)
  | saveItemIds (i : Import) (ref : ItemRef)
  | createdFiles (i : Import) (ref : ItemRef) (stored : List (List UInt8))
  | createdCompare (i : Import) (ref : ItemRef) (stored : List (List UInt8))
  | createdAdopt (i : Import) (ref : ItemRef) (stored : List (List UInt8))
  | delete (present : List (Option (List UInt8))) (stored : List (List UInt8))
      (left : List KeyFile)
  -- the command is over
  | done
  deriving DecidableEq

/-- The command returns. -/
def exit (code : Int) : R Proc := do
  emit (.exit code)
  return .done

/-- Say why, and return. -/
def refuse (text : Text) (code : Int) : R Proc := do
  warn text
  exit code

/-! ### `begin` -/

/-- Make the self-signed pair unless it is there. -/
def createPair (env : Env) : R Proc := do
  call env .io
  match env.created with
  | .error e => refuse ("omdrop: the self-signed identity is unusable: ".toList ++ e) 1
  | .ok none => return .migrateLegacy
  | .ok (some (certificate, key)) =>
    change fun w => { w with
      files := Function.update (Function.update w.files .selfCertificate (some certificate))
        .selfKey (some key) }
    return .migrateLegacy

/-- Is a legacy pair under the Apple names to be renamed?  Its files are linked under their new
    names when it is. -/
def migrateLegacy (env : Env) : R Proc := do
  let w ← ask id
  if (w.files .certificate).isNone || (w.files .key).isNone then return .beginSeq
  call env .io
  if (w.files .record).isSome then return .beginSeq
  if (w.files .selfCertificate).isSome || (w.files .selfKey).isSome then return .beginSeq
  call env .io
  call env .io
  let cert := (w.files .certificate).getD []
  let key := (w.files .key).getD []
  if !env.keyMatches cert key then return .beginSeq
  call env .io
  if !env.isSelfSigned cert then return .beginSeq
  call env .io
  change fun w => { w with files := Function.update w.files .selfKey (some key) }
  call env .io
  change fun w => { w with files := Function.update w.files .selfCertificate (some cert) }
  return .unlinkLegacy [.key, .certificate]

/-- Remove a file of the identity. -/
def unlink (env : Env) (f : KeyFile) : R Unit := do
  call env .io
  change fun w => { w with files := Function.update w.files f none }

def unlinkLegacy (env : Env) : List KeyFile → R Proc
  | []        => return .beginSeq
  | f :: left => do
    unlink env f
    return .unlinkLegacy left

def beginSeq (env : Env) : R Proc := do
  call env .io
  say seq (decimal (← counter env seq))
  return .beginMode

def beginMode (env : Env) : R Proc := do
  if (← mode env) ≠ "1password".toList then exit 0 else return .beginCache

def beginCache (env : Env) : R Proc := do
  if ← usableForNewWindow (← currentCache env) then exit 0 else return .beginWindow

def beginWindow (env : Env) : R Proc := do
  match ← readWindow env with
  -- a repeated `on`: the window keeps its identity
  | .parsed _ => exit 0
  | _         => return .fillCache .begin

/-! ### `unlock` -/

def unlockMode (env : Env) : R Proc := do
  if (← mode env) ≠ "1password".toList then
    refuse "Omdrop is not set to use 1Password (identity_source is not 1password)." 1
  else return .unlockCache

def unlockCache (env : Env) : R Proc := do
  match ← currentCache env with
  | some _ => refuse "The identity cache is already filled." 0
  | none   => return .fillCache .unlock

/-! ### Filling the cache -/

/-- Why the cache could not be filled, for a notification. -/
def noticeOf : Option Fail → Text
  | some (.fetch e) => e.message
  | _               => "Could not cache the Apple identity"

/-- What the command does when the cache could be filled, or not. -/
def filled (caller : Caller) (outcome : Outcome) (why : Option Fail) : R Proc :=
  match caller, outcome with
  | .begin, .failed => do
    say "notice" (noticeOf why ++
      "; using self-signed certificates. Peers must be in \"Everyone\" mode.".toList)
    exit 0
  | .begin, _            => exit 0
  | .unlock, .published  => refuse "Fetched the AirDrop identity from 1Password." 0
  | .unlock, .superseded => refuse "Cancelled: the identity settings changed meanwhile." 1
  | .unlock, .windowOpen => refuse turnOff 1
  | .unlock, .failed     =>
    refuse ("Could not fetch: ".toList ++ (why.map Fail.text).getD []) 1

/-- A part of a fetch: when 1Password gives nothing, the cache could not be filled. -/
def fetching (caller : Caller) (x : R Proc) : R Proc := do
  match ← Fallible.attempt x with
  | .ok p             => return p
  | .error (.fetch e) => filled caller .failed (some (.fetch e))
  | .error e          => Fallible.fail e

/-- Under the lock: the generation that the fetch is for. -/
def fillCache (env : Env) (caller : Caller) : R Proc := do
  call env .io
  let generation ← counter env gen
  return .fetchItem ⟨caller, generation, ← ask fun w => w.bumps gen⟩

/-- What `op` is run for to read the next file of an item. -/
def nextCall (ref : ItemRef) (stored : List (List UInt8)) : OpCall :=
  .read ref (files.getD stored.length .record)

/-- Read the next file of an item. -/
def readNext (env : Env) (ref : ItemRef) (stored : List (List UInt8)) : R (List (List UInt8)) := do
  return stored ++ [← op env (nextCall ref stored)]

def fetchItem (env : Env) (f : Fetch) : R Proc :=
  fetching f.caller do
    return .fetchFiles f (← itemRef env) []

def fetchFiles (env : Env) (f : Fetch) (ref : ItemRef) (stored : List (List UInt8)) : R Proc :=
  fetching f.caller do
    let stored ← readNext env ref stored
    if stored.length < files.length then return .fetchFiles f ref stored
    else return .fetchCheck f ref stored

def fetchCheck (env : Env) (f : Fetch) (ref : ItemRef) (stored : List (List UInt8)) : R Proc :=
  fetching f.caller do
    match checkFiles env stored with
    | some problem => Fallible.fail (unusable problem)
    | none         => return .fetchEncode f ref stored (← ask World.now)

def fetchEncode (env : Env) (f : Fetch) (ref : ItemRef) (stored : List (List UInt8)) (t0 : Int) :
    R Proc :=
  fetching f.caller do
    let s ← settings env
    call env .io
    match payloadOf env s t0 stored with
    | none      => Fallible.fail (unusable "too large for the identity cache")
    | some data => return .publish f ⟨data, ref.vault, ref.item, f.asOf⟩

def publishFetched (env : Env) (f : Fetch) (payload : Fetched) : R Proc := do
  match ← Fallible.attempt (publishIfCurrent env payload f.generation) with
  | .ok outcome         => filled f.caller outcome none
  | .error (.keyring e) => filled f.caller .failed (some (.keyring e))
  | .error e            => Fallible.fail e

/-! ### `use` -/

def useStart (env : Env) (args : UseArgs) : R Proc := do
  call env .io
  if ← windowOpen then refuse turnOff 1
  else
    let generation ← bump env gen
    killFetch env
    return .useGet args generation

/-- A part of `use`: when 1Password gives nothing, it is over. -/
def using1Password (x : R Proc) : R Proc := do
  match ← Fallible.attempt x with
  | .ok p             => return p
  | .error (.fetch e) => refuse e.describe 1
  | .error e          => Fallible.fail e

def useGet (env : Env) (args : UseArgs) (generation : Nat) : R Proc :=
  using1Password do
    let found ← opJson env (.get args.item args.vault) "\x7b\x7d"
    let (item, vault) := (jsonId found, jsonVaultId found)
    match args.account with
    | some a =>
      if a.isEmpty then return .useAccount generation vault item
      else return .useFiles generation ⟨a, vault, item⟩ []
    | none   => return .useAccount generation vault item

def useAccount (env : Env) (generation : Nat) (vault item : Text) : R Proc :=
  using1Password do
    return .useFiles generation ⟨← accountId env, vault, item⟩ []

def useFiles (env : Env) (generation : Nat) (ref : ItemRef) (stored : List (List UInt8)) :
    R Proc :=
  using1Password do
    let stored ← readNext env ref stored
    if stored.length < files.length then return .useFiles generation ref stored
    else
      match checkFiles env stored with
      | some problem =>
        refuse ("That item is not usable: ".toList ++ problem ++ ".".toList) 1
      | none => return .useAdopt generation ref

def useAdopt (env : Env) (generation : Nat) (ref : ItemRef) : R Proc := do
  match ← Fallible.attempt (adopt env ref generation) with
  | .ok ()                 =>
    refuse "Omdrop now uses that 1Password item. The next `omdrop on` fetches it." 0
  | .error (.superseded e) => refuse e 1
  | .error e               => Fallible.fail e

/-! ### `import` -/

def importStart (env : Env) (args : ImportArgs) : R Proc := do
  call env .io
  if ← windowOpen then refuse turnOff 1
  else return .importPresent ⟨args, ← counter env gen, []⟩

/-- Read the next of the files. -/
def importPresent (env : Env) (i : Import) : R Proc := do
  match files[i.present.length]? with
  | none   => return .importSettings i
  | some f =>
    call env .io
    let data ← ask fun w => w.files f
    return .importPresent { i with present := i.present ++ [data] }

/-- A part of `import` before anything is deleted. -/
def importing (x : R Proc) : R Proc := do
  match ← Fallible.attempt x with
  | .ok p                  => return p
  | .error (.fetch e)      => refuse (e.describe ++ "; nothing was deleted.".toList) 1
  | .error (.superseded e) => refuse (e ++ " Nothing was deleted.".toList) 1
  | .error e               => Fallible.fail e

/-- The names of the files that are missing. -/
def missing (present : List (Option (List UInt8))) : Text :=
  ((files.zip present).filterMap fun fd => if fd.2.isNone then some fd.1.name else none)
    |> joinWith ", ".toList
where
  joinWith (sep : Text) : List Text → Text
    | []          => []
    | [t]         => t
    | t :: u :: l => t ++ sep ++ joinWith sep (u :: l)

/-- What was read of the files, nothing for one that is missing. -/
def dataOf (present : List (Option (List UInt8))) : List (List UInt8) :=
  present.map fun data => data.getD []

/-- With an item configured it is compared with what is left on disk; with none, all files are
    there and one is created. -/
def importSettings (env : Env) (i : Import) : R Proc := do
  let s ← settings env
  if (s.lookup opItem).any (!·.isEmpty) then
    return .rerunItem i (s.lookup identitySource == some "1password".toList)
  else if i.present.any Option.isNone then
    refuse ("Nothing to import: ".toList ++ missing i.present ++ " missing from ".toList ++
      env.keys) 1
  else
    match checkFiles env (dataOf i.present) with
    | some problem => refuse ("Not importing: ".toList ++ problem ++ ".".toList) 1
    | none         => return .createItem i

def rerunItem (env : Env) (i : Import) (configured : Bool) : R Proc :=
  importing do
    return .rerunFiles i configured (← itemRef env) []

def rerunFiles (env : Env) (i : Import) (configured : Bool) (ref : ItemRef)
    (stored : List (List UInt8)) : R Proc :=
  importing do
    let stored ← readNext env ref stored
    if stored.length < files.length then return .rerunFiles i configured ref stored
    else return .rerunCompare i configured ref stored

/-- The first file that was read and is not what is stored. -/
def differing (present : List (Option (List UInt8))) (stored : List (List UInt8)) :
    Option KeyFile :=
  ((files.zip (present.zip stored)).find? fun fps => fps.2.1.any (· ≠ fps.2.2)).map Prod.fst

/-- The order in which the files are deleted: the key first. -/
def deleted : List KeyFile := [.key, .record, .certificate]

def rerunCompare (env : Env) (i : Import) (configured : Bool) (ref : ItemRef)
    (stored : List (List UInt8)) : R Proc := do
  match differing i.present stored with
  | some f =>
    refuse (f.name ++ " on disk differs from the 1Password item; nothing was deleted.".toList) 1
  | none =>
    if configured then return .delete i.present stored deleted
    else
      match checkFiles env stored with
      | some problem =>
        refuse ("The 1Password item is not usable: ".toList ++ problem ++
          "; nothing was deleted.".toList) 1
      | none => return .rerunAdopt i ref stored

def rerunAdopt (env : Env) (i : Import) (ref : ItemRef) (stored : List (List UInt8)) : R Proc :=
  importing do
    adopt env ref i.generation
    return .delete i.present stored deleted

def createItem (env : Env) (i : Import) : R Proc :=
  importing do
    let made ← opJson env (.create i.args.title i.args.vault env.keys) "\x7b\x7d"
    let (item, vault) := (jsonId made, jsonVaultId made)
    if item.isEmpty || vault.isEmpty then
      refuse "1Password did not report the new item; nothing was deleted." 1
    else return .createAccount i vault item

def createAccount (env : Env) (i : Import) (vault item : Text) : R Proc :=
  importing do
    return .saveItemIds i ⟨← accountId env, vault, item⟩

def importSave (env : Env) (i : Import) (ref : ItemRef) : R Proc := do
  match ← Fallible.attempt (saveItemIds env ref i.generation) with
  | .ok () => return .createdFiles i ref []
  | .error (.io e) =>
    refuse ("Could not save the settings (".toList ++ e ++ "). The item is ".toList ++ ref.item ++
      "; run: omdrop identity 1password use ".toList ++ ref.item) 1
  | .error (.superseded e) =>
    refuse (e ++ " The new 1Password item is ".toList ++ ref.item ++
      "; nothing was deleted.".toList) 1
  | .error e => Fallible.fail e

def createdFiles (env : Env) (i : Import) (ref : ItemRef) (stored : List (List UInt8)) : R Proc :=
  importing do
    let stored ← readNext env ref stored
    if stored.length < files.length then return .createdFiles i ref stored
    else return .createdCompare i ref stored

def createdCompare (i : Import) (ref : ItemRef) (stored : List (List UInt8)) : R Proc := do
  if i.present = stored.map some then
    return .createdAdopt i ref stored
  else
    refuse ("The 1Password item ".toList ++ ref.item ++
      " does not match the files; nothing was deleted.".toList) 1

def createdAdopt (env : Env) (i : Import) (ref : ItemRef) (stored : List (List UInt8)) : R Proc :=
  importing do
    match ← Fallible.attempt (adopt env ref i.generation) with
    | .ok () => return .delete i.present stored deleted
    | .error (.io e) =>
      refuse ("Could not save the settings (".toList ++ e ++
        "); nothing was deleted. Run the import again to finish.".toList) 1
    | .error e => Fallible.fail e

def delete (env : Env) (present : List (Option (List UInt8))) (stored : List (List UInt8)) :
    List KeyFile → R Proc
  | []        => refuse "Your Apple identity is now in 1Password, and the copies on disk were deleted. The next `omdrop on` fetches it." 0
  | f :: left => do
    unlink env f
    return .delete present stored left

/-! ### All of them -/

/-- A command of one step returns. -/
def returning (x : R Int) : R Proc := do
  exit (← x)

/-- The next step of a command. -/
def next (env : Env) : Proc → R Proc
  | .createPair               => createPair env
  | .migrateLegacy            => migrateLegacy env
  | .unlinkLegacy left        => unlinkLegacy env left
  | .beginSeq                 => beginSeq env
  | .beginMode                => beginMode env
  | .beginCache               => beginCache env
  | .beginWindow              => beginWindow env
  | .unlockMode               => unlockMode env
  | .unlockCache              => unlockCache env
  | .fillCache caller         => fillCache env caller
  | .fetchItem f              => fetchItem env f
  | .fetchFiles f ref s       => fetchFiles env f ref s
  | .fetchCheck f ref s       => fetchCheck env f ref s
  | .fetchEncode f ref s t0   => fetchEncode env f ref s t0
  | .publish f payload        => publishFetched env f payload
  | .window n                 => returning (cmdWindow env n)
  | .stopBegin                => returning (cmdStopBegin env)
  | .stopEnd                  => returning (cmdStopEnd env)
  | .lock                     => returning (cmdLock env)
  | .onepasswordOff           => returning (cmdOnepasswordOff env)
  | .useStart args            => useStart env args
  | .useGet args g            => useGet env args g
  | .useAccount g vault item  => useAccount env g vault item
  | .useFiles g ref s         => useFiles env g ref s
  | .useAdopt g ref           => useAdopt env g ref
  | .importStart args         => importStart env args
  | .importPresent i          => importPresent env i
  | .importSettings i         => importSettings env i
  | .rerunItem i c            => rerunItem env i c
  | .rerunFiles i c ref s     => rerunFiles env i c ref s
  | .rerunCompare i c ref s   => rerunCompare env i c ref s
  | .rerunAdopt i ref s       => rerunAdopt env i ref s
  | .createItem i             => createItem env i
  | .createAccount i v item   => createAccount env i v item
  | .saveItemIds i ref        => importSave env i ref
  | .createdFiles i ref s     => createdFiles env i ref s
  | .createdCompare i ref s   => createdCompare i ref s
  | .createdAdopt i ref s     => createdAdopt env i ref s
  | .delete p s left          => delete env p s left
  | .done                     => return .done

/-- A step that a command made: from where to where, the world before and after it, and what it
    printed. -/
structure Moved where
  source : Proc
  target : Proc
  before : World
  after : World
  events : List Event

/-- A step of a command: a failure that it does not handle ends it. -/
def advance (env : Env) (p : Proc) (w : World) : Proc × List Moved × World :=
  match next env p ⟨w, 0, []⟩ with
  | (.ok p', s)   => (p', [⟨p, p', w, s.world, s.events⟩], s.world)
  | (.error e, s) =>
    let events := s.events ++ [.warn ("omdrop: ".toList ++ e.text), .exit 1]
    (.done, [⟨p, .done, w, s.world, events⟩], s.world)

/-- Where a command starts. -/
def start : Cmd → Proc
  | .begin            => .createPair
  | .window n         => .window n
  | .stopBegin        => .stopBegin
  | .stopEnd          => .stopEnd
  | .lock             => .lock
  | .unlock           => .unlockMode
  | .importFiles args => .importStart args
  | .use args         => .useStart args
  | .onepasswordOff   => .onepasswordOff

/-- What goes on besides the commands: the clock is set to a time, and the kernel drops a key
    that is not to live to it; or the user's keyring is lost. -/
inductive Outside
  | clock (t : Int)
  | lost

def outside : Outside → World → World
  | .clock t, w => { w with now := t, cache := w.cache.filter (t < ·.expires) }
  | .lost, w    => { w with cache := none }

/-- Any number of identity commands at once. -/
def lifecycle : Pool World Proc Cmd Env Outside Moved := ⟨start, advance, outside⟩

/-- What a session starts with: any files, and an empty keyring. -/
structure Boot where
  settings : Option Text
  state : Option Text
  window : Option Text
  files : KeyFile → Option (List UInt8)
  now : Int

def Boot.world (b : Boot) : World where
  settings := b.settings
  state := b.state
  window := b.window
  files := b.files
  cache := none
  now := b.now
  bumps _ := 0
  published := []

/-- The world after a run from the start of a session. -/
def Boot.after (b : Boot) (as : List (Pool.Action Cmd Env Outside)) :
    Pool.State World Proc Moved :=
  lifecycle.machine.run ⟨b.world, []⟩ as

end Omdrop.Identity
