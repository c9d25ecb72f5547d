import Omdrop.Identity.Contract
import Omdrop.Machine.Fallible

namespace Omdrop.Resolver

open Omdrop.Text Omdrop.Identity

/-!
# Resolving the identity

`resolveWith` reads the settings, the window and the cache, asks which identity files there are,
selects an identity and returns its bytes.  `resolveWith_onePassword` is what it comes down to
while a 1Password window is open, and `resolve_obeys_window` what follows: the cached identity and
no other, whatever stands on the disk.
-/

/-- Which identity selection chose. -/
inductive Source
  | cache
  | disk
  | selfSigned
  deriving DecidableEq

/-- The selected identity, with the bytes to present. -/
structure Identity where
  source : Source
  certificatePem : List UInt8
  keyPem : List UInt8
  record : Option (List UInt8)
  warnings : List Text

/-! ### Selection -/

/-- The cache as selection sees it. -/
inductive CacheState
  | absent
  | malformed
  | parsed (fetchId : Text) (hardExpiry : Int)

/-- The files of the disk identity; `matching` is meaningful when certificate and key are there. -/
structure DiskState where
  certificate : Bool
  key : Bool
  matching : Bool
  record : Bool

/-- The files of the self-signed pair. -/
structure PairState where
  certificate : Bool
  key : Bool

/-- What is chosen, whether it has a record, whether it has to be created first, and what is said
    about it. -/
structure Choice where
  identity : Source
  record : Bool
  create : Bool
  warnings : List Text

/-- Choose the self-signed pair.  There is one warning at most, so that there is nothing to sort. -/
def selfSigned (pair : PairState) (root : Bool) (warnings : List Text) : Except Text Choice :=
  if pair.certificate && pair.key then .ok ⟨.selfSigned, false, false, warnings⟩
  else if pair.certificate || pair.key then .error "self-signed-half-pair".toList
  else if root then .error "self-signed-missing".toList
  else .ok ⟨.selfSigned, false, true, warnings⟩

/-- Choose the files on the disk. -/
def diskChoice (disk : DiskState) : Choice := ⟨.disk, disk.record, false, []⟩

/-- The mode selection uses: the window's source when a parsed window exists, else
    `identity_source`; absent means `disk`. -/
def mode (settings : Settings) : WindowState → Text
  | .parsed w => w.source
  | _         => (settings.lookup "identity_source".toList).getD "disk".toList

/-- The identity to present.  `root` also stands for "may not create". -/
def select (settings : Settings) (window : WindowState) (cache : CacheState) (disk : DiskState)
    (pair : PairState) (root : Bool) (now : Int) : Except Text Choice :=
  match window with
  | .unparseable => .error "window-unparseable".toList
  | .parsed (.onePassword fetchId hardExpiry) =>
    if hardExpiry ≤ now then .error "window-expired".toList
    else
      match cache with
      | .absent       => .error "cache-missing".toList
      | .malformed    => .error "cache-malformed".toList
      | .parsed f e   =>
        if f ≠ fetchId then .error "cache-mismatch".toList
        else if e ≤ now then .error "cache-expired".toList
        else .ok ⟨.cache, true, false, []⟩
  | .parsed .disk =>
    if !(disk.certificate && disk.key) then .error "disk-missing".toList
    else if !disk.matching then .error "disk-mismatch".toList
    else .ok (diskChoice disk)
  | .parsed .selfSigned => selfSigned pair root []
  | .absent =>
    let m := mode settings window
    if m = "1password".toList ∨ m = "self-signed".toList then selfSigned pair root []
    else if m ≠ "disk".toList then selfSigned pair root ["unknown-mode"]
    else if disk.certificate && disk.key then
      if disk.matching then .ok (diskChoice disk) else selfSigned pair root ["disk-mismatch"]
    else if disk.certificate || disk.key then selfSigned pair root ["disk-incomplete"]
    else selfSigned pair root []

/-! ### What is read -/

/-- The identity files. -/
inductive File
  | certificate
  | key
  | record
  | selfCertificate
  | selfKey

/-- What a read of each file comes to, with the user's credentials where they are dropped to, and
    which identity files are there. -/
structure Disk where
  settings : Except Unit (Option (List UInt8))
  window : Except Unit (Option (List UInt8))
  file : File → Except Unit (Option (List UInt8))
  isThere : File → Bool

/-- Whom it is resolved for and when, and the rest of what is asked: whether the process can be
    protected, whether the child that looks for the files comes back, the cache by the serial that
    the window names, keys and certificates, and the creation of a self-signed pair. -/
structure Env where
  root : Bool
  create : Bool
  now : Int
  name : Option Text
  hostname : Text
  protects : Bool
  looks : Bool
  cache : Option Int → Except Text (Option (List UInt8))
  keyMatches : List UInt8 → List UInt8 → Bool
  createPair : Text → Disk → Except Text Unit × Disk

/-- The disk, and under which names pairs were created. -/
structure World where
  disk : Disk
  created : List Text

/-- The settings, when they can be read. -/
def readSettings (disk : Disk) : Except Text Settings :=
  match disk.settings with
  | .ok none     => .ok ∅
  | .ok (some b) =>
    match fromUtf8 b with
    | some text => .ok (parseSettings text)
    | none      => .error "settings-unreadable".toList
  | .error _     => .error "settings-unreadable".toList

/-- A serial number, when it is one. -/
def parseSerial (s : Text) : Option Int :=
  if allDigits s then ((ofDecimal s).filter (· < 2 ^ 31)).map Int.ofNat else none

/-- The serial of the cache key that the window names, and what the window says. -/
def readWindow (disk : Disk) : Option Int × WindowState :=
  match disk.window with
  | .ok none     => (none, .absent)
  | .ok (some b) =>
    match fromUtf8 b with
    | some text =>
      (((parseSettings text).lookup "cache_serial".toList).bind parseSerial,
        ((parseWindow text).map WindowState.parsed).getD .unparseable)
    | none      => (none, .unparseable)
  | .error _     => (none, .unparseable)

/-- The cache, when a 1Password window is open; its expiry is checked before any cache I/O. -/
def readCache [SerdeJson] (env : Env) (serial : Option Int) :
    WindowState → Except Text (CacheState × Option Payload)
  | .parsed (.onePassword _ hardExpiry) =>
    if hardExpiry ≤ env.now then .error "window-expired".toList
    else if !env.protects then .error "cache-protection-unavailable".toList
    else
      match env.cache serial with
      | .error code     => .error code
      | .ok none        => .ok (.absent, none)
      | .ok (some raw)  =>
        match parsePayload raw with
        | some p => .ok (.parsed p.fetchId p.hardExpiry, some p)
        | none   => .ok (.malformed, none)
  | _ => .ok (.absent, none)

/-- The certificate and the key on the disk, read only when selection can use them. -/
def readPem (env : Env) (disk : Disk) (settings : Settings) (window : WindowState) :
    Bool × Option (List UInt8 × List UInt8) :=
  if mode settings window = "disk".toList ∧ disk.isThere .certificate ∧ disk.isThere .key then
    match disk.file .certificate, disk.file .key with
    | .ok (some c), .ok (some key) => (env.keyMatches c key, some (c, key))
    | _, _                         => (false, none)
  else (false, none)

/-- A file that has to be there. -/
def readFile (code : String) (f : File) : Fallible Text World (List UInt8) := do
  match (← Fallible.get).disk.file f with
  | .ok (some b) => return b
  | _            => Fallible.fail code.toList

/-- What a step comes to, or its error. -/
def orFail {α : Type} : Except Text α → Fallible Text World α
  | .ok a    => pure a
  | .error e => Fallible.fail e

/-- Create the self-signed pair. -/
def create (env : Env) (name : Text) : Fallible Text World Unit := fun w =>
  let (res, disk) := env.createPair name w.disk
  orFail res ⟨disk, name :: w.created⟩

/-- The record of the disk identity, when it has one. -/
def readRecord (choice : Choice) : Fallible Text World (Option (List UInt8)) :=
  if choice.record then some <$> readFile "disk-record-unreadable" .record else pure none

/-- The self-signed pair, created first when it was chosen to be. -/
def createFirst (env : Env) (choice : Choice) : Fallible Text World Unit :=
  if choice.create then create env (env.name.getD env.hostname) else pure ()

/-- The bytes of what was chosen. -/
def present (env : Env) (choice : Choice) (payload : Option Payload)
    (pem : Option (List UInt8 × List UInt8)) : Fallible Text World Identity :=
  match choice.identity, payload, pem with
  | .cache, some p, _       =>
    pure ⟨.cache, p.certificate, p.key, some p.record, choice.warnings⟩
  | .cache, none, _         => Fallible.fail "cache-missing".toList
  | .disk, _, some (c, key) => do
    let record ← readRecord choice
    return ⟨.disk, c, key, record, choice.warnings⟩
  | .disk, _, none          => Fallible.fail "disk-missing".toList
  | .selfSigned, _, _       => do
    createFirst env choice
    let c ← readFile "self-signed-unreadable" .selfCertificate
    let key ← readFile "self-signed-unreadable" .selfKey
    return ⟨.selfSigned, c, key, none, choice.warnings⟩

/-- Resolve the identity. -/
def resolveWith [SerdeJson] (env : Env) : Fallible Text World Identity := do
  let disk := (← Fallible.get).disk
  let settings ← orFail (readSettings disk)
  let (serial, window) := readWindow disk
  if window = .unparseable then Fallible.fail "window-unparseable".toList
  else
    let (cache, payload) ← orFail (readCache env serial window)
    if !env.looks then Fallible.fail "invoking-user-invalid".toList
    else
      let (matching, pem) := readPem env disk settings window
      let choice ← orFail (select settings window cache
        ⟨disk.isThere .certificate, disk.isThere .key, matching, disk.isThere .record⟩
        ⟨disk.isThere .selfCertificate, disk.isThere .selfKey⟩ (env.root || !env.create) env.now)
      present env choice payload pem

/-! ### What selection chooses -/

section
variable {settings : Settings} {window : WindowState} {cache : CacheState} {disk : DiskState}
  {pair : PairState} {root : Bool} {now : Int} {choice : Choice}

/-- An identity of the disk's, which root does not create. -/
def Choice.Local (root : Bool) (choice : Choice) : Prop :=
  choice.identity ≠ .cache ∧ (root = true → choice.create = false)

/-- The choice of the disk is a local one. -/
theorem diskChoice_local : (diskChoice disk).Local root := ⟨by simp [diskChoice], fun _ => rfl⟩

/-- The self-signed choice is a local one. -/
theorem selfSigned_local {warnings : List Text} (h : selfSigned pair root warnings = .ok choice) :
    choice.Local root := by
  unfold selfSigned at h
  split_ifs at h with hboth hhalf hroot
  · cases h
    exact ⟨by simp, fun _ => rfl⟩
  · cases h
    exact ⟨by simp, fun h => absurd h hroot⟩

/-- Selection comes to the cache while a 1Password window is open that names what is in it, and
    else to an identity of the disk's. -/
theorem select_ok (h : select settings window cache disk pair root now = .ok choice) :
    choice.Local root ∧ (∀ f e, window ≠ .parsed (.onePassword f e)) ∨ ∃ fetchId hardExpiry e,
      window = .parsed (.onePassword fetchId hardExpiry) ∧ now < hardExpiry ∧
        cache = .parsed fetchId e ∧ now < e ∧ choice = ⟨.cache, true, false, []⟩ := by
  cases window with
  | unparseable => cases h
  | absent =>
    refine .inl ⟨?_, by simp⟩
    unfold select at h
    dsimp only at h
    split_ifs at h
    all_goals first
      | exact selfSigned_local h
      | cases h; exact diskChoice_local
  | parsed w =>
    cases w with
    | disk =>
      refine .inl ⟨?_, by simp⟩
      unfold select at h
      dsimp only at h
      split_ifs at h
      cases h
      exact diskChoice_local
    | selfSigned => exact .inl ⟨selfSigned_local h, by simp⟩
    | onePassword fetchId hardExpiry =>
      right
      unfold select at h
      dsimp only at h
      split_ifs at h with hopen
      cases cache with
      | absent => cases h
      | malformed => cases h
      | parsed f e =>
        dsimp only at h
        split_ifs at h with hid hfresh
        cases h
        obtain rfl : f = fetchId := not_not.mp hid
        exact ⟨f, hardExpiry, e, rfl, not_le.mp hopen, rfl, not_le.mp hfresh, rfl⟩

end

/-! ### What is presented -/

section
variable {env : Env} {choice : Choice} {payload : Option Payload}
  {pem : Option (List UInt8 × List UInt8)} {w w' : World} {i : Identity}

/-- Reading a file changes nothing. -/
theorem readFile_after (code : String) (f : File) : Fallible.After (fun _ w' => w' = w)
    (fun _ w' => w' = w) (readFile code f w) := by
  unfold readFile
  refine .bind ?_
  show Fallible.After _ _ ((match w.disk.file f with
    | .ok (some b) => pure b
    | _ => Fallible.fail code.toList : Fallible Text World (List UInt8)) w)
  rcases w.disk.file f with e | _ | b <;> exact rfl

/-- Reading a record changes nothing. -/
private theorem readRecord_after : Fallible.After (fun _ w' => w' = w) (fun _ w' => w' = w)
    (readRecord choice w) := by
  unfold readRecord
  refine .ite (fun _ => ?_) fun _ => rfl
  exact .bind ((readFile_after _ _).imp (fun _ _ h => h) fun _ _ h => h)

/-- What holds of any world holds after any program. -/
private theorem after_of_forall {α : Type} {Q : α → World → Prop} {E : Text → World → Prop}
    {x : Fallible Text World α} (hQ : ∀ a s, Q a s) (hE : ∀ e s, E e s) :
    Fallible.After Q E (x w) := by
  rcases x w with ⟨_ | _, s⟩
  · exact hE _ s
  · exact hQ _ s

/-- Only where it is asked for, a pair is created. -/
private theorem createFirst_after : Fallible.After (fun _ w' => choice.create = false → w' = w)
    (fun _ w' => choice.create = false → w' = w) (createFirst env choice w) := by
  unfold createFirst
  refine .ite (fun hcreate => ?_) fun _ => fun _ => rfl
  have hvacuous : ∀ s, choice.create = false → s = w :=
    fun s h => absurd (hcreate.symm.trans h) (by decide)
  exact after_of_forall (fun _ => hvacuous) fun _ => hvacuous

/-- Nothing is created that was not chosen to be, and what is presented is what was chosen. -/
private theorem present_after : Fallible.After
    (fun i w' => i.source = choice.identity ∧ (choice.create = false → w' = w))
    (fun _ w' => choice.create = false → w' = w) (present env choice payload pem w) := by
  unfold present
  rcases choice.identity with _ | _ | _
  · cases payload with
    | none => exact fun _ => rfl
    | some p => exact ⟨rfl, fun _ => rfl⟩
  · rcases pem with _ | ⟨c, key⟩
    · exact fun _ => rfl
    · exact .bind (readRecord_after.imp (fun _ _ h => ⟨rfl, fun _ => h⟩) fun _ _ h _ => h)
  · refine .bind (createFirst_after.imp (fun _ w₁ h₁ => ?_) fun _ _ h => h)
    refine .bind ((readFile_after _ _).imp (fun c w₂ h₂ => ?_) fun _ _ h hc => h.trans (h₁ hc))
    refine .bind ((readFile_after _ _).imp (fun key w₃ h₃ => ?_)
      fun _ _ h hc => h.trans (h₂.trans (h₁ hc)))
    exact ⟨rfl, fun hc => h₃.trans (h₂.trans (h₁ hc))⟩

/-- What the cache holds is presented as it is. -/
private theorem present_cache (h : choice.identity = .cache) {p : Payload} :
    present env choice (some p) pem w =
      (.ok ⟨.cache, p.certificate, p.key, some p.record, choice.warnings⟩, w) := by
  unfold present
  rw [h]
  rfl

end

/-! ### Resolving -/

section
variable [SerdeJson] {env : Env} {disk : Disk} {serial : Option Int} {window : WindowState}
  {w w' : World} {i : Identity}

/-- A cache that is read for a window is the one of its fetch. -/
private theorem readCache_ok {cache : CacheState} {payload : Option Payload}
    (h : readCache env serial window = .ok (cache, payload)) {fetchId : Text} {e : Int}
    (hcache : cache = .parsed fetchId e) :
    ∃ raw p, env.cache serial = .ok (some raw) ∧ parsePayload raw = some p ∧ payload = some p ∧
      p.fetchId = fetchId ∧ p.hardExpiry = e := by
  subst hcache
  unfold readCache at h
  split at h
  · split_ifs at h
    split at h
    · cases h
    · cases h
    · rename_i raw hraw
      split at h
      · rename_i p hp
        cases h
        exact ⟨raw, p, hraw, hp, rfl, rfl, rfl⟩
      · cases h
  · cases h

/-- What stands behind a cached identity: an open window, and a payload that it names. -/
def Backed (env : Env) (disk : Disk) (i : Identity) : Prop :=
  ∃ b text fetchId hardExpiry, disk.window = .ok (some b) ∧ fromUtf8 b = some text ∧
    parseWindow text = some (.onePassword fetchId hardExpiry) ∧ env.now < hardExpiry ∧
    ∃ raw p, env.cache (readWindow disk).1 = .ok (some raw) ∧ parsePayload raw = some p ∧
      p.fetchId = fetchId ∧ env.now < p.hardExpiry ∧
      i.certificatePem = p.certificate ∧ i.keyPem = p.key ∧ i.record = some p.record

omit [SerdeJson] in
/-- A window that is parsed is one that the file holds. -/
private theorem readWindow_parsed {win : Window} (h : (readWindow disk).2 = .parsed win) :
    ∃ b text, disk.window = .ok (some b) ∧ fromUtf8 b = some text ∧
      parseWindow text = some win := by
  unfold readWindow at h
  split at h
  · cases h
  · rename_i b hb
    split at h
    · rename_i text htext
      cases hparse : parseWindow text with
      | none =>
        rw [hparse] at h
        cases h
      | some w =>
        rw [hparse] at h
        cases h
        exact ⟨b, text, hb, htext, hparse⟩
    · cases h
  · cases h

omit [SerdeJson] in
/-- What went well goes on, and what failed is a failure. -/
theorem orFail_after {α : Type} {Q : α → World → Prop} {E : Text → World → Prop}
    {res : Except Text α} (hok : ∀ a, res = .ok a → Q a w) (herror : ∀ e, res = .error e → E e w) :
    Fallible.After Q E (orFail res w) := by
  cases res with
  | ok a => exact hok a rfl
  | error e => exact herror e rfl

/-- What comes from the cache is backed, and root changes nothing. -/
private theorem resolveWith_after : Fallible.After
    (fun i w' => (i.source = .cache → Backed env w.disk i) ∧ (env.root = true → w' = w))
    (fun _ w' => env.root = true → w' = w) (resolveWith env w) := by
  unfold resolveWith
  refine .bind ?_
  show Fallible.After _ _ ((orFail (readSettings w.disk) >>= _) w)
  refine .bind (orFail_after (fun settings hsettings => ?_) fun _ _ _ => rfl)
  rcases hwindow : readWindow w.disk with ⟨serial, window⟩
  refine .ite (fun _ => fun _ => rfl) fun _ => ?_
  refine .bind (orFail_after (fun res hcache => ?_) fun _ _ _ => rfl)
  obtain ⟨cache, payload⟩ := res
  refine .ite (fun _ => fun _ => rfl) fun _ => ?_
  rcases readPem env w.disk settings window with ⟨matching, pem⟩
  refine .bind (orFail_after (fun choice hchoice => ?_) fun _ _ _ => rfl)
  have hroot : env.root = true → (env.root || !env.create) = true := fun h => by rw [h]; rfl
  rcases select_ok hchoice with
    ⟨hlocal, -⟩ | ⟨fetchId, hardExpiry, e, hopen, hnow, hparsed, hfresh, hc⟩
  · refine present_after.imp (fun i w' h => ?_) fun _ w' h hr => h (hlocal.2 (hroot hr))
    exact ⟨fun hsource => absurd (h.1.symm.trans hsource) hlocal.1,
      fun hr => h.2 (hlocal.2 (hroot hr))⟩
  · obtain ⟨raw, p, hraw, hp, rfl, hid, he⟩ := readCache_ok hcache hparsed
    obtain ⟨b, text, hb, htext, hparse⟩ := readWindow_parsed
      (show (readWindow w.disk).2 = .parsed (.onePassword fetchId hardExpiry) by
        rw [hwindow]
        exact hopen)
    subst hc
    rw [present_cache rfl]
    refine ⟨fun _ => ⟨b, text, fetchId, hardExpiry, hb, htext, hparse, hnow, raw, p, ?_, hp, hid,
      he ▸ hfresh, rfl, rfl, rfl⟩, fun _ => rfl⟩
    rw [hwindow]
    exact hraw

/-- What resolving comes to while a 1Password window is open. -/
def underWindow (env : Env) (serial : Option Int) (fetchId : Text) (hardExpiry : Int) :
    Except Text Identity :=
  match readCache env serial (.parsed (.onePassword fetchId hardExpiry)) with
  | .error e => .error e
  | .ok (cache, payload) =>
    if !env.looks then .error "invoking-user-invalid".toList
    else
      match select ∅ (.parsed (.onePassword fetchId hardExpiry)) cache ⟨false, false, false, false⟩
        ⟨false, false⟩ true env.now, payload with
      | .error e, _      => .error e
      | .ok _, some p    => .ok ⟨.cache, p.certificate, p.key, some p.record, []⟩
      | .ok _, none      => .error "cache-missing".toList

/-- Under a 1Password window it is the cache that is presented. -/
private theorem underWindow_source {fetchId : Text} {hardExpiry : Int}
    (h : underWindow env serial fetchId hardExpiry = .ok i) : i.source = .cache := by
  unfold underWindow at h
  split at h
  · cases h
  · split_ifs at h
    split at h
    · cases h
    · cases h
      rfl
    · cases h

/-- A 1Password window decides, whatever the settings say. -/
theorem resolveWith_onePassword {settings : Settings} {fetchId : Text} {hardExpiry : Int}
    (hsettings : readSettings w.disk = .ok settings)
    (hwindow : readWindow w.disk = (serial, .parsed (.onePassword fetchId hardExpiry))) :
    resolveWith env w = (underWindow env serial fetchId hardExpiry, w) := by
  have hok : ∀ {α : Type} (a : α), orFail (.ok a) w = (.ok a, w) := fun _ => rfl
  unfold resolveWith underWindow
  rw [Fallible.bind_of_ok (Fallible.get_apply w)]
  dsimp only
  rw [hsettings, hwindow, Fallible.bind_of_ok (hok settings)]
  dsimp only
  rw [if_neg (by simp)]
  cases hcache : readCache env serial (.parsed (.onePassword fetchId hardExpiry)) with
  | error e => rfl
  | ok res =>
    obtain ⟨cache, payload⟩ := res
    rw [Fallible.bind_of_ok (hok (cache, payload))]
    dsimp only
    cases hlooks : env.looks with
    | false => rfl
    | true =>
      rcases readPem env w.disk settings _ with ⟨matching, pem⟩
      -- with this window selection looks at nothing but the cache
      have hselect : ∀ d p r, select settings (.parsed (.onePassword fetchId hardExpiry)) cache d p r
          env.now = select ∅ (.parsed (.onePassword fetchId hardExpiry)) cache
            ⟨false, false, false, false⟩ ⟨false, false⟩ true env.now := fun _ _ _ => rfl
      dsimp only
      rw [hselect]
      cases hchoice : select ∅ (.parsed (.onePassword fetchId hardExpiry)) cache
        ⟨false, false, false, false⟩ ⟨false, false⟩ true env.now with
      | error e => rfl
      | ok choice =>
        obtain ⟨-, hwindow⟩ | ⟨-, -, -, -, -, -, -, hc⟩ := select_ok hchoice
        · exact absurd rfl (hwindow fetchId hardExpiry)
        · subst hc
          cases payload <;> rfl

/-- The settings are text, or absent. -/
def Readable (disk : Disk) : Prop := ∃ settings, readSettings disk = .ok settings

/-- **Resolving obeys the open window.**  A cached identity is the payload that the window names,
    before either has expired; while a 1Password window is open the result is that identity or an
    error, whatever the settings say and whatever identity files there are; and root creates
    nothing. -/
theorem resolve_obeys_window (env : Env) (disk : Disk) (created : List Text) :
    (∀ i, (resolveWith env ⟨disk, created⟩).1 = .ok i → i.source = .cache → Backed env disk i) ∧
      (∀ fetchId hardExpiry, (readWindow disk).2 = .parsed (.onePassword fetchId hardExpiry) →
        Readable disk →
        (∀ i, (resolveWith env ⟨disk, created⟩).1 = .ok i → i.source = .cache) ∧
          ∀ disk' created', disk'.window = disk.window → Readable disk' →
            (resolveWith env ⟨disk', created'⟩).1 = (resolveWith env ⟨disk, created⟩).1) ∧
      (env.root = true → (resolveWith env ⟨disk, created⟩).2 = ⟨disk, created⟩) := by
  have hafter : Fallible.After _ _ (resolveWith env ⟨disk, created⟩) := resolveWith_after
  refine ⟨fun i hi hcache => ?_, ?_, fun hroot => ?_⟩
  · rcases hres : resolveWith env ⟨disk, created⟩ with ⟨res, w'⟩
    rw [hres] at hi hafter
    cases hi
    exact hafter.1 hcache
  · rintro fetchId hardExpiry hopen ⟨settings, hsettings⟩
    have hwindow : readWindow disk =
        ((readWindow disk).1, .parsed (.onePassword fetchId hardExpiry)) := Prod.ext rfl hopen
    refine ⟨fun i hi => ?_, fun disk' created' hsame hreadable => ?_⟩
    · rw [resolveWith_onePassword (w := ⟨disk, created⟩) hsettings hwindow] at hi
      exact underWindow_source hi
    · obtain ⟨settings', hsettings'⟩ := hreadable
      have hwindow' : readWindow disk' = readWindow disk := by
        unfold readWindow
        rw [hsame]
      rw [resolveWith_onePassword (w := ⟨disk, created⟩) hsettings hwindow,
        resolveWith_onePassword (w := ⟨disk', created'⟩) hsettings' (hwindow'.trans hwindow)]
  · rcases hres : resolveWith env ⟨disk, created⟩ with ⟨res, w'⟩
    rw [hres] at hafter
    cases res with
    | ok i => exact hafter.2 hroot
    | error e => exact hafter hroot

end

end Omdrop.Resolver
