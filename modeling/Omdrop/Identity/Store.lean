import Mathlib
import Omdrop.Machine.Fallible
import Omdrop.Identity.Contract

namespace Omdrop.Identity

open Omdrop.Text

/-!
# What the identity commands share

The files and the cache key that the identity commands read and write, as a `World`, and the
operations on them.  Every operation that can fail is a call, and `Env` says which calls of a step
fail; what a step prints and does is kept as its events.

`counter_bumped` and `lookup_setSettings` say what the two rewrites of a whole file do to the one
value they are about, and to every other.
-/

/-! ### The world -/

/-- The files of an identity: the Apple ones, and the self-signed pair. -/
inductive KeyFile
  | certificate
  | key
  | record
  | selfCertificate
  | selfKey
  deriving DecidableEq, Repr

/-- The Apple files, in the order in which they are read. -/
def files : List KeyFile := [.certificate, .key, .record]

/-- The name of a file. -/
def KeyFile.name : KeyFile → Text
  | certificate     => "certificate.pem"
  | key             => "key.pem"
  | record          => "validation_record.cms"
  | selfCertificate => "certificate.self-signed.pem"
  | selfKey         => "key.self-signed.pem"

/-- A file's name in a 1Password item, which has no dot. -/
def KeyFile.opName : KeyFile → Text
  | certificate => "certificate"
  | key         => "key"
  | _           => "validation_record"

/-- A 1Password item: account, vault and item. -/
structure ItemRef where
  account : Text
  vault : Text
  item : Text
  deriving DecidableEq, Repr

/-- What `op` is run for: to read a file of an item, to look an item up, to make one of the files
    in a directory, or to list the accounts. -/
inductive OpCall
  | read (ref : ItemRef) (f : KeyFile)
  | get (item : Text) (vault : Option Text)
  | create (title : Text) (vault : Option Text) (keys : Text)
  | accounts
  deriving DecidableEq, Repr

/-- The option that names a vault. -/
def vaultArgs (vault : Option Text) : List Text :=
  match vault with
  | some v => ["--vault", v]
  | none   => []

/-- That `op` is to print JSON. -/
def formatArgs : List Text := ["--format", "json"]

/-- The command line of `op`. -/
def OpCall.args : OpCall → List Text
  | read ref f =>
    let account : List Text := if ref.account.isEmpty then [] else ["--account", ref.account]
    let file := "op://".toList ++ ref.vault ++ ['/'] ++ ref.item ++ ['/'] ++ f.opName
    "read" :: "--no-newline" :: (account ++ [file])
  | get item vault => "item" :: "get" :: item :: (vaultArgs vault ++ formatArgs)
  | create title vault keys =>
    let attached := files.map fun f =>
      f.opName ++ "[file]=".toList ++ keys ++ ['/'] ++ f.name
    "item" :: "create" :: "--category" :: "Secure Note" :: "--title" :: title ::
      (vaultArgs vault ++ attached ++ formatArgs)
  | accounts => "account" :: "list" :: formatArgs

/-- A fetched payload.  The item it was read from and the number of times the generation had been
    bumped when the fetch read it are kept beside it; no command looks at them. -/
structure Fetched where
  data : List UInt8
  vault : Text
  item : Text
  asOf : Nat
  deriving DecidableEq, Repr

/-- The cache key: what was published, and when the kernel drops it. -/
structure CacheKey where
  origin : Fetched
  expires : Int
  deriving DecidableEq, Repr

/-- The settings, state and window files, the files of the identity, the cache key and the clock.
    `bumps` counts the bumps of each counter of the state file, and `published` is all that was
    ever put in the keyring, with the bumps of the generation at that time; no command looks at
    them. -/
structure World where
  settings : Option Text
  state : Option Text
  window : Option Text
  files : KeyFile → Option (List UInt8)
  cache : Option CacheKey
  now : Int
  bumps : Text → Nat
  published : List (Fetched × Nat)

/-- Why 1Password gave nothing. -/
structure FetchFailed where
  message : Text
  detail : Text
  deriving DecidableEq, Repr

/-- The message, and the detail in parentheses if any. -/
def FetchFailed.describe (e : FetchFailed) : Text :=
  if e.detail.isEmpty then e.message else e.message ++ " (".toList ++ e.detail ++ ")".toList

/-- What can stop a command. -/
inductive Fail
  | fetch (e : FetchFailed)
  | keyring (text : Text)
  | superseded (text : Text)
  | io (text : Text)
  deriving DecidableEq, Repr

/-- The text of a failure. -/
def Fail.text : Fail → Text
  | fetch e      => e.describe
  | keyring t    => t
  | superseded t => t
  | io t         => t

/-- What a step prints on stdout and stderr, what it runs `op` for and what `op` prints, and that
    the command returns. -/
inductive Event
  | say (key value : Text)
  | warn (text : Text)
  | op (args : List Text) (res : Except FetchFailed (List UInt8))
  | exit (code : Int)
  deriving DecidableEq, Repr

/-- What the outside answers to a step: which of its calls fail, and with what error; whether a
    revoked key lingers; the Apple checks; what making the self-signed pair came to (`none`: it is
    there already); what `op` prints when it is run; random bytes; the serial of the cache key;
    the name of the directory of the files. -/
structure Env where
  faults : Nat → Option Text
  lingers : Bool
  checkApple : List UInt8 → List UInt8 → List UInt8 → Option Text
  keyMatches : List UInt8 → List UInt8 → Bool
  isSelfSigned : List UInt8 → Bool
  created : Except Text (Option (List UInt8 × List UInt8))
  op : List Text → Except FetchFailed (List UInt8)
  random : List UInt8
  serial : Int
  keys : Text

/-- The world in the middle of a step, with the calls and the events of the step so far. -/
structure Sys where
  world : World
  calls : Nat
  events : List Event

/-- A part of a command. -/
abbrev R (α : Type) := Fallible Fail Sys α

/-- Read something of the world. -/
def ask {α : Type} (f : World → α) : R α := fun s => (.ok (f s.world), s)

/-- Change the world. -/
def change (f : World → World) : R Unit := fun s => (.ok (), { s with world := f s.world })

/-- Add an event. -/
def emit (e : Event) : R Unit := fun s => (.ok (), { s with events := s.events ++ [e] })

/-- A call, which fails with what `fail` makes of the error. -/
def call (env : Env) (fail : Text → Fail) : R Unit := fun s =>
  match env.faults s.calls with
  | none   => (.ok (), { s with calls := s.calls + 1 })
  | some e => (.error (fail e), { s with calls := s.calls + 1 })

def say (key value : Text) : R Unit := emit (.say key value)

def warn (text : Text) : R Unit := emit (.warn text)

/-! ### Small state -/

/-- A file's text, or `none` when it is absent. -/
def readText (env : Env) (path : World → Option Text) : R (Option Text) := do
  call env .io
  ask path

/-- Replace a file. -/
def writePrivate (env : Env) (write : World → World) : R Unit := do
  call env .io
  change write

/-- Remove a file; one that is not there is fine. -/
def removeFile (env : Env) (remove : World → World) : R Unit := do
  call env .io
  change remove

/-- The numbers that a counter counts up to before it starts again. -/
def counterRange : Nat := 2 ^ 64

/-- A counter's number, 0 when it is none. -/
def parseCounter (t : Text) : Nat :=
  if allDigits t then
    match ofDecimal t with
    | some n => if n < counterRange then n else 0
    | none   => 0
  else 0

/-- The counter of the generations. -/
def gen : Text := "gen"

/-- The counter of the `off`s. -/
def seq : Text := "seq"

/-- A counter of a state file. -/
def counterOf (state : Settings) (name : Text) : Nat :=
  parseCounter ((state.lookup name).getD ['0'])

/-- What a file says, nothing when it is absent. -/
def fieldsOf (file : Option Text) : Settings := parseSettings (file.getD [])

/-- The text of a state file, its keys sorted. -/
def formatState (state : Settings) : Text :=
  unlines ((state.entries.insertionSort fun a b => a.1 ≤ b.1).map fun kv => settingLine kv.1 kv.2)

def World.counter (w : World) (name : Text) : Nat := counterOf (fieldsOf w.state) name

/-- The world after a counter was bumped. -/
def World.bumped (w : World) (name : Text) : World :=
  let value := (w.counter name + 1) % counterRange
  { w with
    state := some (formatState ((fieldsOf w.state).insert name (decimal value)))
    bumps := Function.update w.bumps name (w.bumps name + 1) }

def counter (env : Env) (name : Text) : R Nat := do
  let state ← readText env World.state
  return counterOf (fieldsOf state) name

def bump (env : Env) (name : Text) : R Nat := do
  let value ← counter env name
  let _ ← readText env World.state
  writePrivate env fun w => w.bumped name
  return (value + 1) % counterRange

def settings (env : Env) : R Settings := do
  return fieldsOf (← readText env World.settings)

/-- Settings text with some keys' lines dropped, and one line for each appended. -/
def setSettings (changes : List (Text × Text)) (text : Text) : Text :=
  let keys := changes.map Prod.fst
  let kept := (splitlines text).filter fun l => keyOf l ∉ keys
  joinLines (kept ++ changes.map fun kv => settingLine kv.1 kv.2) ++ ['\n']

/-- The world after settings were set. -/
def World.set (w : World) (changes : List (Text × Text)) : World :=
  { w with settings := some (setSettings changes (w.settings.getD [])) }

/-- Rewrite settings the way `omdrop` does: drop the keys' lines, append one each. -/
def settingSet (env : Env) (changes : List (Text × Text)) : R Unit := do
  let _ ← readText env World.settings
  writePrivate env fun w => w.set changes

def identitySource : Text := "identity_source"

/-- The identity mode that settings say. -/
def modeOf (s : Settings) : Text := (s.lookup identitySource).getD "disk".toList

def mode (env : Env) : R Text := do
  return modeOf (← settings env)

/-- How long a fetched identity is used for new windows. -/
def defaultHours : Int := 12

def cacheHours (s : Settings) : Int :=
  match s.lookup "identity_cache_hours".toList with
  | some v =>
    if allDigits v then
      match ofDecimal v with
      | some n => if 1 ≤ n ∧ n ≤ 24 then n else defaultHours
      | none   => defaultHours
    else defaultHours
  | none   => defaultHours

/-- Stop a running `op`: its pid file goes. -/
def killFetch (env : Env) : R Unit := do
  call env .io
  removeFile env id

/-- What a window file says. -/
def windowOf : Option Text → WindowState
  | none   => .absent
  | some t => match parseWindow t with
    | some w => .parsed w
    | none   => .unparseable

def readWindow (env : Env) : R WindowState := do
  return windowOf (← readText env World.window)

/-- The text of a window file. -/
def windowText (lines : List Text) : Text := joinLines lines ++ ['\n']

/-- The world with the window file of a window. -/
def World.opened (w : World) (lines : List Text) : World :=
  { w with window := some (windowText lines) }

/-- The world without a window file. -/
def World.closed (w : World) : World := { w with window := none }

@[simp] theorem opened_window (w : World) (lines : List Text) :
    (w.opened lines).window = some (windowText lines) := rfl
@[simp] theorem opened_cache (w : World) (lines : List Text) :
    (w.opened lines).cache = w.cache := rfl
@[simp] theorem closed_window (w : World) : w.closed.window = none := rfl
@[simp] theorem closed_cache (w : World) : w.closed.cache = w.cache := rfl
@[simp] theorem closed_now (w : World) : w.closed.now = w.now := rfl

/-- Is there a window file? -/
def windowOpen : R Bool := ask fun w => w.window.isSome

/-! ### The cache key -/

/-- The longest timeout a key takes. -/
def maxTimeout : Int := 2 ^ 32 - 1

/-- The world with the cache key revoked, or with it still there when it lingers. -/
def World.revoked (w : World) (lingers : Bool) : World :=
  if lingers then w else { w with cache := none }

/-- The world with another timeout of the cache key. -/
def World.timed (w : World) (timeout : Int) : World :=
  { w with cache := w.cache.map fun k => { k with expires := w.now + min timeout maxTimeout } }

/-- The world with a new cache key. -/
def World.withCache (w : World) (f : Fetched) (timeout : Int) : World :=
  { w with
    cache := some ⟨f, w.now + min timeout maxTimeout⟩
    published := w.published ++ [(f, w.bumps gen)] }

section Fields

variable (w : World) (name : Text) (changes : List (Text × Text)) (l : Bool) (f : Fetched)
  (timeout : Int)

@[simp] theorem bumped_settings : (w.bumped name).settings = w.settings := rfl
@[simp] theorem bumped_window : (w.bumped name).window = w.window := rfl
@[simp] theorem bumped_files : (w.bumped name).files = w.files := rfl
@[simp] theorem bumped_cache : (w.bumped name).cache = w.cache := rfl
@[simp] theorem bumped_now : (w.bumped name).now = w.now := rfl
@[simp] theorem bumped_published : (w.bumped name).published = w.published := rfl
@[simp] theorem bumped_bumps :
    (w.bumped name).bumps = Function.update w.bumps name (w.bumps name + 1) := rfl

@[simp] theorem set_state : (w.set changes).state = w.state := rfl
@[simp] theorem set_window : (w.set changes).window = w.window := rfl
@[simp] theorem set_files : (w.set changes).files = w.files := rfl
@[simp] theorem set_cache : (w.set changes).cache = w.cache := rfl
@[simp] theorem set_now : (w.set changes).now = w.now := rfl
@[simp] theorem set_published : (w.set changes).published = w.published := rfl
@[simp] theorem set_bumps : (w.set changes).bumps = w.bumps := rfl

@[simp] theorem revoked_settings : (w.revoked l).settings = w.settings := by cases l <;> rfl
@[simp] theorem revoked_state : (w.revoked l).state = w.state := by cases l <;> rfl
@[simp] theorem revoked_window : (w.revoked l).window = w.window := by cases l <;> rfl
@[simp] theorem revoked_files : (w.revoked l).files = w.files := by cases l <;> rfl
@[simp] theorem revoked_now : (w.revoked l).now = w.now := by cases l <;> rfl
@[simp] theorem revoked_published : (w.revoked l).published = w.published := by cases l <;> rfl
@[simp] theorem revoked_bumps : (w.revoked l).bumps = w.bumps := by cases l <;> rfl
@[simp] theorem revoked_cache : (w.revoked l).cache = if l then w.cache else none := by
  cases l <;> rfl

@[simp] theorem timed_settings : (w.timed timeout).settings = w.settings := rfl
@[simp] theorem timed_state : (w.timed timeout).state = w.state := rfl
@[simp] theorem timed_window : (w.timed timeout).window = w.window := rfl
@[simp] theorem timed_files : (w.timed timeout).files = w.files := rfl
@[simp] theorem timed_published : (w.timed timeout).published = w.published := rfl
@[simp] theorem timed_bumps : (w.timed timeout).bumps = w.bumps := rfl

@[simp] theorem withCache_settings : (w.withCache f timeout).settings = w.settings := rfl
@[simp] theorem withCache_state : (w.withCache f timeout).state = w.state := rfl
@[simp] theorem withCache_window : (w.withCache f timeout).window = w.window := rfl
@[simp] theorem withCache_files : (w.withCache f timeout).files = w.files := rfl
@[simp] theorem withCache_bumps : (w.withCache f timeout).bumps = w.bumps := rfl

/-- A timeout is all that changes of a key. -/
theorem timed_cache_eq_some {w : World} {timeout : Int} {k : CacheKey}
    (h : (w.timed timeout).cache = some k) :
    ∃ k₀, w.cache = some k₀ ∧ k₀.origin = k.origin ∧ k.expires = w.now + min timeout maxTimeout := by
  obtain ⟨k₀, hk, rfl⟩ := Option.map_eq_some_iff.mp h
  exact ⟨k₀, hk, rfl, rfl⟩

end Fields

/-- Revoke and unlink the cache; `false` when there was none. -/
def revoke (env : Env) : R Bool := do
  call env .keyring
  let found ← ask fun w => w.cache.isSome
  change fun w => w.revoked env.lingers
  return found

/-- Change the cache's timeout; revoke it when `timeout < 1`. -/
def setTimeout (env : Env) (timeout : Int) : R Bool := do
  call env .keyring
  if !(← ask fun w => w.cache.isSome) then return false
  else if timeout < 1 then
    change fun w => w.revoked env.lingers
    return false
  else
    change fun w => w.timed timeout
    return true

/-- Publish a payload. -/
def publish (env : Env) (f : Fetched) (timeout : Int) : R Unit := do
  Fallible.failIf (timeout < 1)
    (.keyring "refusing to publish a cache that has already expired".toList)
  call env .keyring
  change fun w => w.withCache f timeout

variable [SerdeJson]

/-- What the cache holds, as far as it is worth using. -/
def World.currentCache (w : World) : Option Payload :=
  (w.cache.bind fun k => parsePayload k.origin.data).filter (w.now < ·.hardExpiry)

/-- The parsed cache, or `none` when there is none worth using. -/
def currentCache (env : Env) : R (Option Payload) := do
  match ← Fallible.attempt (call env .keyring) with
  | .error _ => return none
  | .ok ()   => ask World.currentCache

def usableForNewWindow (p : Option Payload) : R Bool :=
  ask fun w => p.any fun p => w.now < p.periodEnds

/-! ### What a rewrite does -/

omit [SerdeJson]

/-- A key and a value that make a line of their own. -/
def Clean (key value : Text) : Prop :=
  '=' ∉ key ∧ Unbroken isLineEnd key ∧ Unbroken isLineEnd value

/-- A clean change takes one line. -/
theorem Clean.unbroken {key value : Text} (h : Clean key value) :
    Unbroken isLineEnd (settingLine key value) := unbroken_settingLine rfl h.2.1 h.2.2

/-- A line that is added to clean settings leaves them clean. -/
private theorem clean_of_mem_addLine {out : Settings} (hout : ∀ kv ∈ out.entries, Clean kv.1 kv.2)
    {line : Text} (hline : Unbroken isLineEnd line) :
    ∀ kv ∈ (out.addLine line).entries, Clean kv.1 kv.2 := by
  unfold Settings.addLine
  split
  · rename_i k v hkv
    rw [AList.entries_insert]
    intro kv hmem
    rcases List.mem_cons.mp hmem with rfl | hmem
    · have hkey : '=' ∉ k := by
        have hvalue : valueOf k line = some v := by simp [valueOf, hkv]
        exact keyOf_of_valueOf hvalue ▸ eq_not_mem_keyOf line
      exact ⟨hkey, unbroken_of_splitOnce hline hkv⟩
    · exact hout kv ((List.kerase_sublist _ _).subset hmem)
  · exact hout

/-- What was read from a text makes lines again. -/
theorem clean_of_mem_parseSettings (text : Text) :
    ∀ kv ∈ (parseSettings text).entries, Clean kv.1 kv.2 := by
  have haux : ∀ (lines : List Text) (out : Settings), (∀ l ∈ lines, Unbroken isLineEnd l) →
      (∀ kv ∈ out.entries, Clean kv.1 kv.2) →
      ∀ kv ∈ (lines.foldl Settings.addLine out).entries, Clean kv.1 kv.2 := by
    intro lines
    induction lines with
    | nil => exact fun out _ hout => hout
    | cons line lines ih =>
      intro out hlines hout
      apply ih _ fun l hl => hlines l (List.mem_cons_of_mem _ hl)
      exact clean_of_mem_addLine hout (hlines line List.mem_cons_self)
  exact haux _ _ (fun l hl => unbroken_of_mem_linesOn hl) (by simp)

/-- Lines that set different keys say of each key what was set. -/
private theorem lastValue_settingLines {L : List (Sigma fun _ : Text => Text)}
    (hnodup : L.NodupKeys)
    (hclean : ∀ kv ∈ L, '=' ∉ kv.1) (key : Text) :
    lastValue key (L.map fun kv => settingLine kv.1 kv.2) = L.dlookup key := by
  unfold lastValue
  rw [← List.map_reverse, List.findSome?_map]
  rcases hfind : L.reverse.findSome? (valueOf key ∘ fun kv => settingLine kv.1 kv.2) with _ | v
  · rw [hfind]
    rw [List.findSome?_eq_none_iff] at hfind
    symm
    rw [List.dlookup_eq_none]
    intro hkey
    obtain ⟨value, hmem⟩ := List.exists_of_mem_keys hkey
    have := hfind _ (List.mem_reverse.mpr hmem)
    simp [valueOf_settingLine (hclean _ hmem)] at this
  · rw [hfind]
    obtain ⟨⟨k, value⟩, hmem, hv⟩ := List.exists_of_findSome?_eq_some hfind
    have hmem := List.mem_reverse.mp hmem
    simp only [Function.comp, valueOf_settingLine (hclean _ hmem)] at hv
    split at hv
    · rename_i hk
      subst hk
      cases hv
      exact ((List.mem_dlookup_iff hnodup).mpr hmem).symm
    · cases hv

/-- **State files read back.** -/
theorem lookup_formatState {state : Settings} (hclean : ∀ kv ∈ state.entries, Clean kv.1 kv.2)
    (key : Text) : (parseSettings (formatState state)).lookup key = state.lookup key := by
  have hperm := List.perm_insertionSort (fun a b : Sigma fun _ : Text => Text => a.1 ≤ b.1)
    state.entries
  have hlines : ∀ l ∈ (state.entries.insertionSort fun a b => a.1 ≤ b.1).map
      fun kv => settingLine kv.1 kv.2, Unbroken isLineEnd l := by
    intro l hl
    obtain ⟨kv, hkv, rfl⟩ := List.mem_map.mp hl
    exact (hclean kv (hperm.subset hkv)).unbroken
  rw [lookup_parseSettings, formatState, splitlines_unlines hlines]
  rw [lastValue_settingLines ((List.perm_nodupKeys hperm).mpr state.nodupKeys)
    fun kv hkv => (hclean kv (hperm.subset hkv)).1]
  exact List.perm_dlookup _ ((List.perm_nodupKeys hperm).mpr state.nodupKeys) hperm

/-- The last of more lines that sets a key decides. -/
theorem lastValue_append (key : Text) (lines more : List Text) :
    lastValue key (lines ++ more) = (lastValue key more).or (lastValue key lines) := by
  simp [lastValue, List.findSome?_append]

/-- Lines that do not speak of a key may go. -/
theorem lastValue_filter {key : Text} {p : Text → Bool} {lines : List Text}
    (h : ∀ l, p l = false → valueOf key l = none) :
    lastValue key (lines.filter p) = lastValue key lines := by
  unfold lastValue
  rw [List.filter_reverse.symm]
  induction lines.reverse with
  | nil => rfl
  | cons l lines ih =>
    by_cases hp : p l = true
    · rw [List.filter_cons_of_pos hp, List.findSome?_cons, List.findSome?_cons, ih]
    · rw [List.filter_cons_of_neg hp, ih, List.findSome?_cons, h l (by simpa using hp)]

/-- Among lines that were written, a key is looked for as in the list of changes. -/
theorem findSome?_settingLine {L : List (Text × Text)} (hclean : ∀ kv ∈ L, '=' ∉ kv.1)
    (key : Text) : (L.findSome? fun kv => valueOf key (settingLine kv.1 kv.2)) = L.lookup key := by
  induction L with
  | nil => rfl
  | cons kv L ih =>
    obtain ⟨k, v⟩ := kv
    have ih := ih fun kv hkv => hclean kv (List.mem_cons_of_mem _ hkv)
    rw [List.findSome?_cons, List.lookup_cons, ih, valueOf_settingLine (hclean _ List.mem_cons_self)]
    by_cases h : k = key
    · subst h
      simp
    · have : (key == k) = false := by simpa using fun he => h he.symm
      simp [h, this]

/-- The last change of a key is the one that is read. -/
theorem lastValue_changes {changes : List (Text × Text)}
    (hclean : ∀ kv ∈ changes, Clean kv.1 kv.2) (key : Text) :
    lastValue key (changes.map fun kv => settingLine kv.1 kv.2) =
      changes.reverse.lookup key := by
  unfold lastValue
  rw [← List.map_reverse, List.findSome?_map]
  exact findSome?_settingLine (fun kv hkv => (hclean kv (List.mem_reverse.mp hkv)).1) key

/-- Lines that were joined are read as the lines that they were. -/
theorem lastValue_joinLines {lines : List Text} (h : ∀ l ∈ lines, Unbroken isLineEnd l)
    (key : Text) : lastValue key (splitlines (joinLines lines ++ ['\n'])) = lastValue key lines := by
  by_cases hne : lines = []
  · subst hne
    rfl
  · rw [joinLines_append lines hne, splitlines_unlines h]

/-- **Settings read back.**  Setting keys changes what the settings say about them, and about no
    other key. -/
theorem lookup_setSettings {changes : List (Text × Text)}
    (hclean : ∀ kv ∈ changes, Clean kv.1 kv.2) (text key : Text) :
    (parseSettings (setSettings changes text)).lookup key =
      (changes.reverse.lookup key).or ((parseSettings text).lookup key) := by
  rw [lookup_parseSettings, lookup_parseSettings, setSettings, lastValue_joinLines,
    lastValue_append, lastValue_changes hclean]
  · rcases hset : changes.reverse.lookup key with _ | v
    · rw [Option.none_or, Option.none_or]
      apply lastValue_filter
      intro l hl
      -- a line that went speaks of a key that was set
      have hmem : keyOf l ∈ changes.map Prod.fst := by simpa using hl
      rcases hv : valueOf key l with _ | v
      · rfl
      · rw [keyOf_of_valueOf hv] at hmem
        obtain ⟨⟨k, v'⟩, hkv, rfl⟩ := List.mem_map.mp hmem
        rw [List.lookup_eq_none_iff] at hset
        have := hset _ (List.mem_reverse.mpr hkv)
        simp at this
    · rfl
  · intro l hl
    rcases List.mem_append.mp hl with hl | hl
    · exact unbroken_of_mem_linesOn (List.mem_of_mem_filter hl)
    · obtain ⟨kv, hkv, rfl⟩ := List.mem_map.mp hl
      exact (hclean kv hkv).unbroken

/-- Settings with some changes laid over them, one after the other. -/
def Settings.overlay (changes : List (Text × Text)) (s : Settings) : Settings :=
  changes.foldl (fun s kv => s.insert kv.1 kv.2) s

/-- Of settings with changes over them, the last change decides, and else the setting. -/
theorem Settings.lookup_overlay (changes : List (Text × Text)) (s : Settings) (key : Text) :
    (s.overlay changes).lookup key = (changes.reverse.lookup key).or (s.lookup key) := by
  unfold Settings.overlay
  induction changes generalizing s with
  | nil => rfl
  | cons kv changes ih =>
    obtain ⟨k, v⟩ := kv
    rw [List.foldl_cons, ih, List.reverse_cons, List.lookup_append, Option.or_assoc]
    congr 1
    by_cases h : key = k
    · subst h
      simp [AList.lookup_insert]
    · simp [AList.lookup_insert_ne h, List.lookup_cons, beq_eq_false_iff_ne.mpr h]

/-- **A settings file is overlaid.**  What is written of it reads as what it said, with the changes
    laid over that. -/
theorem parseSettings_setSettings {changes : List (Text × Text)}
    (hclean : ∀ kv ∈ changes, Clean kv.1 kv.2) (text key : Text) :
    (parseSettings (fromUtf8Lossy (utf8 (setSettings changes text)))).lookup key =
      ((parseSettings text).overlay changes).lookup key := by
  rw [fromUtf8Lossy_utf8, lookup_setSettings hclean, Settings.lookup_overlay]

/-- A source and a sound set at once, over a file in which a line feed ends only some lines. -/
theorem parseSettings_setSettings_sound :
    let changes : List (Text × Text) :=
      [("identity_source".toList, "disk".toList), ("sound".toList, "on".toList)]
    let text : Text := "identity_source=1password\r\n# none\x0bsound=off\nsend_from=/tmp".toList
    (parseSettings (fromUtf8Lossy (utf8 (setSettings changes text)))).lookup "sound".toList =
      ((parseSettings text).overlay changes).lookup "sound".toList :=
  parseSettings_setSettings (by unfold Clean Unbroken; decide) _ _

/-- A counter that is written is read back. -/
private theorem parseCounter_decimal {n : Nat} (h : n < counterRange) :
    parseCounter (decimal n) = n := by
  simp [parseCounter, h]

/-- No digit ends a line. -/
theorem isLineEnd_of_isDigit {c : Char} (hc : c.isDigit = true) : isLineEnd c = false := by
  by_contra h
  simp only [isLineEnd, Bool.not_eq_false, Bool.or_eq_true, beq_iff_eq] at h
  rcases h with ((((((((rfl | rfl) | rfl) | rfl) | rfl) | rfl) | rfl) | rfl) | rfl) | rfl <;>
    exact absurd hc (by decide)

/-- A number takes one line. -/
theorem unbroken_decimal (n : Nat) : Unbroken isLineEnd (decimal n) :=
  fun _ hc => isLineEnd_of_isDigit (isDigit_of_mem_decimal hc)

/-- **Bumps count.**  A bump moves its own counter by one and no other. -/
theorem counter_bumped (w : World) {name : Text} (hname : Clean name []) (other : Text) :
    (w.bumped name).counter other =
      if other = name then (w.counter name + 1) % counterRange else w.counter other := by
  have hclean : ∀ kv ∈ ((fieldsOf w.state).insert name
      (decimal ((w.counter name + 1) % counterRange))).entries, Clean kv.1 kv.2 := by
    rw [AList.entries_insert]
    intro kv hmem
    rcases List.mem_cons.mp hmem with rfl | hmem
    · exact ⟨hname.1, hname.2.1, unbroken_decimal _⟩
    · exact clean_of_mem_parseSettings _ kv ((List.kerase_sublist _ _).subset hmem)
  show parseCounter (((parseSettings (formatState _)).lookup other).getD ['0']) = _
  rw [lookup_formatState hclean]
  by_cases h : other = name
  · subst h
    rw [AList.lookup_insert, if_pos rfl]
    exact parseCounter_decimal (Nat.mod_lt _ (by decide))
  · rw [AList.lookup_insert_ne h, if_neg h]
    rfl

end Omdrop.Identity
