import Omdrop.Identity.Lifecycle

namespace Omdrop.Identity

open Omdrop.Text Fallible

/-!
# What the parts of the identity commands do

For each operation, and each part of a command that runs under the identity lock, what it leaves
of the world and what it comes to, whichever of its calls fail.  Calls are numbered from the start
of a step.
-/

variable [SerdeJson] {env : Env} {w : World} {n : Nat} {es : List Event}

section Operations

variable {α : Type} {E : Fail → Sys → Prop}

omit [SerdeJson]

/-- A call that can fail goes on where it does not. -/
theorem call_spec {fail : Text → Fail} {Q : Unit → Sys → Prop}
    (hok : env.faults n = none → Q () ⟨w, n + 1, es⟩)
    (herr : ∀ t, env.faults n = some t → E (fail t) ⟨w, n + 1, es⟩) :
    After Q E (call env fail ⟨w, n, es⟩) := by
  unfold call
  split
  · exact hok ‹_›
  · exact herr _ ‹_›

/-- A look at the world changes nothing. -/
theorem ask_spec {f : World → α} {Q : α → Sys → Prop} (h : Q (f w) ⟨w, n, es⟩) :
    After Q E (ask f ⟨w, n, es⟩) := h

/-- A change of the world takes effect at once. -/
theorem change_spec {f : World → World} {Q : Unit → Sys → Prop} (h : Q () ⟨f w, n, es⟩) :
    After Q E (change f ⟨w, n, es⟩) := h

/-- What is said is said after what was said before. -/
theorem emit_spec {e : Event} {Q : Unit → Sys → Prop} (h : Q () ⟨w, n, es ++ [e]⟩) :
    After Q E (emit e ⟨w, n, es⟩) := h

/-- A file is read as it stands, or the reading fails. -/
theorem readText_spec {path : World → Option Text} {Q : Option Text → Sys → Prop}
    (hok : env.faults n = none → Q (path w) ⟨w, n + 1, es⟩)
    (herr : ∀ t, env.faults n = some t → E (.io t) ⟨w, n + 1, es⟩) :
    After Q E (readText env path ⟨w, n, es⟩) :=
  .bind (call_spec hok herr)

/-- A file is written as a whole, or it stays as it was. -/
theorem writePrivate_spec {f : World → World} {Q : Unit → Sys → Prop}
    (hok : env.faults n = none → Q () ⟨f w, n + 1, es⟩)
    (herr : ∀ t, env.faults n = some t → E (.io t) ⟨w, n + 1, es⟩) :
    After Q E (writePrivate env f ⟨w, n, es⟩) :=
  .bind (call_spec hok herr)

/-- A file is removed, or it stays as it was. -/
theorem removeFile_spec {f : World → World} {Q : Unit → Sys → Prop}
    (hok : env.faults n = none → Q () ⟨f w, n + 1, es⟩)
    (herr : ∀ t, env.faults n = some t → E (.io t) ⟨w, n + 1, es⟩) :
    After Q E (removeFile env f ⟨w, n, es⟩) :=
  .bind (call_spec hok herr)

/-- A counter is read as it stands, or the reading fails. -/
theorem counter_spec {name : Text} {Q : Nat → Sys → Prop}
    (hok : env.faults n = none → Q (w.counter name) ⟨w, n + 1, es⟩)
    (herr : ∀ t, env.faults n = some t → E (.io t) ⟨w, n + 1, es⟩) :
    After Q E (counter env name ⟨w, n, es⟩) :=
  .bind (readText_spec hok herr)

/-- A bump makes three calls, and is done when all of them are. -/
theorem bump_spec {name : Text} {Q : Nat → Sys → Prop}
    (hok : env.faults n = none → env.faults (n + 1) = none → env.faults (n + 2) = none →
      Q ((w.counter name + 1) % counterRange) ⟨w.bumped name, n + 3, es⟩)
    (herr : ∀ t k, n ≤ k → k < n + 3 → env.faults k = some t → E (.io t) ⟨w, k + 1, es⟩) :
    After Q E (bump env name ⟨w, n, es⟩) := by
  refine .bind (counter_spec (fun h0 => ?_) fun t ht => herr t n (by omega) (by omega) ht)
  refine .bind (readText_spec (fun h1 => ?_) fun t ht => herr t _ (by omega) (by omega) ht)
  exact .bind (writePrivate_spec (hok h0 h1) fun t ht => herr t _ (by omega) (by omega) ht)

/-- The settings are read as they stand, or the reading fails. -/
theorem settings_spec {Q : Settings → Sys → Prop}
    (hok : env.faults n = none → Q (fieldsOf w.settings) ⟨w, n + 1, es⟩)
    (herr : ∀ t, env.faults n = some t → E (.io t) ⟨w, n + 1, es⟩) :
    After Q E (settings env ⟨w, n, es⟩) :=
  .bind (readText_spec hok herr)

/-- The mode is read as it stands, or the reading fails. -/
theorem mode_spec {Q : Text → Sys → Prop}
    (hok : env.faults n = none → Q (modeOf (fieldsOf w.settings)) ⟨w, n + 1, es⟩)
    (herr : ∀ t, env.faults n = some t → E (.io t) ⟨w, n + 1, es⟩) :
    After Q E (mode env ⟨w, n, es⟩) :=
  .bind (settings_spec hok herr)

/-- Settings are set by two calls. -/
theorem settingSet_spec {changes : List (Text × Text)} {Q : Unit → Sys → Prop}
    (hok : env.faults n = none → env.faults (n + 1) = none → Q () ⟨w.set changes, n + 2, es⟩)
    (herr : ∀ t k, n ≤ k → k < n + 2 → env.faults k = some t → E (.io t) ⟨w, k + 1, es⟩) :
    After Q E (settingSet env changes ⟨w, n, es⟩) := by
  refine .bind (readText_spec (fun h0 => ?_) fun t ht => herr t n (by omega) (by omega) ht)
  exact writePrivate_spec (hok h0) fun t ht => herr t _ (by omega) (by omega) ht

/-- The window file is read as it stands, or the reading fails. -/
theorem readWindow_spec {Q : WindowState → Sys → Prop}
    (hok : env.faults n = none → Q (windowOf w.window) ⟨w, n + 1, es⟩)
    (herr : ∀ t, env.faults n = some t → E (.io t) ⟨w, n + 1, es⟩) :
    After Q E (readWindow env ⟨w, n, es⟩) :=
  .bind (readText_spec hok herr)

/-- Killing a fetch leaves the world as it was. -/
theorem killFetch_spec {Q : Unit → Sys → Prop}
    (hok : Q () ⟨w, n + 2, es⟩) (herr : ∀ t k, E (.io t) ⟨w, k, es⟩) :
    After Q E (killFetch env ⟨w, n, es⟩) := by
  refine .bind (call_spec (fun _ => ?_) fun t _ => herr t _)
  exact removeFile_spec (fun _ => hok) fun t _ => herr t _

/-- A revocation takes the key away, or it fails. -/
theorem revoke_spec {Q : Bool → Sys → Prop}
    (hok : env.faults n = none → Q w.cache.isSome ⟨w.revoked env.lingers, n + 1, es⟩)
    (herr : ∀ t, env.faults n = some t → E (.keyring t) ⟨w, n + 1, es⟩) :
    After Q E (revoke env ⟨w, n, es⟩) :=
  .bind (call_spec (fun h => .bind (ask_spec (.bind (change_spec (hok h))))) herr)

/-- A timeout revokes when it has run out, and changes nothing when there is no key. -/
theorem setTimeout_spec {timeout : Int} {Q : Bool → Sys → Prop}
    (hnone : w.cache = none → Q false ⟨w, n + 1, es⟩)
    (hover : env.faults n = none → timeout < 1 → Q false ⟨w.revoked env.lingers, n + 1, es⟩)
    (hset : env.faults n = none → 1 ≤ timeout → Q true ⟨w.timed timeout, n + 1, es⟩)
    (herr : ∀ t, env.faults n = some t → E (.keyring t) ⟨w, n + 1, es⟩) :
    After Q E (setTimeout env timeout ⟨w, n, es⟩) := by
  refine .bind (call_spec (fun h => ?_) herr)
  refine .bind (ask_spec ?_)
  rcases hc : w.cache with _ | k
  · exact hnone hc
  · refine .ite (fun hno => by simp at hno) fun _ => .ite (fun hlt => ?_) fun hlt => ?_
    · exact .bind (change_spec (hover h hlt))
    · exact .bind (change_spec (hset h (by omega)))

/-- A publication with a time to live puts the payload there, or it fails. -/
theorem publish_spec {f : Fetched} {timeout : Int} {Q : Unit → Sys → Prop}
    (hok : 1 ≤ timeout → Q () ⟨w.withCache f timeout, n + 1, es⟩)
    (herr : ∀ t k, E (.keyring t) ⟨w, k, es⟩) :
    After Q E (publish env f timeout ⟨w, n, es⟩) := by
  refine .bind (.failIf (fun h => ?_) fun _ => herr _ _)
  have h1 : 1 ≤ timeout := by simpa using h
  exact .bind (call_spec (fun _ => change_spec (hok h1)) fun t _ => herr t _)

end Operations

/-- The cached payload is the one of the current generation; an error counts as none. -/
theorem currentCache_spec {Q : Option Payload → Sys → Prop} {E : Fail → Sys → Prop}
    (hok : env.faults n = none → Q w.currentCache ⟨w, n + 1, es⟩)
    (herr : env.faults n ≠ none → Q none ⟨w, n + 1, es⟩) :
    After Q E (currentCache env ⟨w, n, es⟩) := by
  refine .bind (.attempt (call_spec (fun h => ask_spec (hok h)) fun t ht => ?_))
  exact herr (by simp [ht])

/-! ### The parts under the lock -/

/-- A fetched payload may be published: its generation is current, no 1Password window is recorded,
    and it parses and is still good for new windows. -/
structure MayPublish (w : World) (f : Fetched) (generation : Nat) (p : Payload) : Prop where
  current : w.counter gen = generation
  noWindow : (windowOf w.window).isOnePassword = false
  parses : parsePayload f.data = some p
  lasts : 1 ≤ p.periodEnds - w.now

/-- A fetch is published while it is current and its period is not over, and else nothing changes.
    -/
theorem publishIfCurrent_spec {f : Fetched} {generation : Nat} :
    After (fun o s => (o ≠ .published ∧ s.world = w) ∨
        (o = .published ∧ ∃ p, MayPublish w f generation p ∧
          s.world = w.withCache f (p.periodEnds - w.now)))
      (fun _ s => s.world = w) (publishIfCurrent env f generation ⟨w, n, es⟩) := by
  refine .bind (call_spec (fun _ => ?_) fun _ _ => rfl)
  refine .bind (counter_spec (fun _ => ?_) fun _ _ => rfl)
  refine .ite (fun _ => .inl ⟨by decide, rfl⟩) fun hgen => ?_
  refine .bind (readWindow_spec (fun _ => ?_) fun _ _ => rfl)
  refine .ite (fun _ => .inl ⟨by decide, rfl⟩) fun hwindow => ?_
  rcases hp : parsePayload f.data with _ | p
  · exact rfl
  · refine .bind (ask_spec (.bind (publish_spec (fun hlasts => ?_) fun _ _ => rfl)))
    exact .inr ⟨rfl, p, ⟨by simpa using hgen, by simpa using hwindow, hp, hlasts⟩, rfl⟩

/-- What a commit finds: no window, and its own generation. -/
def Current (w : World) (generation : Nat) : Prop :=
  w.window = none ∧ w.counter gen = generation

omit [SerdeJson] in
/-- The check passes when the generation is the one that it is for. -/
theorem checkCurrent_spec {generation : Nat} {Q : Unit → Sys → Prop} {E : Fail → Sys → Prop}
    (hok : env.faults n = none → Current w generation → Q () ⟨w, n + 1, es⟩)
    (herr : ∀ e k, E e ⟨w, k, es⟩) : After Q E (checkCurrent env generation ⟨w, n, es⟩) := by
  refine .bind (ask_spec (.bind (.failIf (fun hopen => ?_) fun _ => herr _ _)))
  refine .bind (counter_spec (fun h0 => ?_) fun _ _ => herr _ _)
  refine .failIf (fun hgen => hok h0 ⟨by simpa using hopen, by simpa using hgen⟩) fun _ => herr _ _

omit [SerdeJson] in
/-- The IDs are saved while the generation is current, and else nothing changes. -/
theorem saveItemIds_spec {ref : ItemRef} {generation : Nat} :
    After (fun _ s => Current w generation ∧ s.world = w.set ref.changes)
      (fun _ s => s.world = w) (saveItemIds env ref generation ⟨w, n, es⟩) := by
  refine .bind (call_spec (fun _ => ?_) fun _ _ => rfl)
  refine .bind (checkCurrent_spec (fun _ hcurrent => ?_) fun _ _ => rfl)
  exact settingSet_spec (fun _ _ => ⟨hcurrent, rfl⟩) fun _ _ _ _ _ => rfl

/-- The mode of a committed item. -/
def onePasswordMode : List (Text × Text) := [(identitySource, "1password")]

/-- The world after a commit. -/
def World.adopted (w : World) (lingers : Bool) (ref : ItemRef) : World :=
  (((w.revoked lingers).set ref.changes).set onePasswordMode).bumped gen

/-- A commit that fails between the IDs and the mode.  The calls of a commit are: the lock, the
    generation, the revocation; reading and writing the settings, for the IDs and again for the
    mode; reading the state twice and writing it. -/
def TornIds (env : Env) : Prop :=
  (∀ k ≤ 4, env.faults k = none) ∧ ∃ k, 5 ≤ k ∧ k ≤ 6 ∧ env.faults k ≠ none

/-- A commit that fails between the mode and the bump of the generation. -/
def TornMode (env : Env) : Prop :=
  (∀ k ≤ 6, env.faults k = none) ∧ ∃ k, 7 ≤ k ∧ k ≤ 9 ∧ env.faults k ≠ none

/-- What a commit that fails leaves. -/
inductive AdoptFailed (env : Env) (ref : ItemRef) (w : World) : World → Prop
  | refused : AdoptFailed env ref w w
  | revoked : AdoptFailed env ref w (w.revoked env.lingers)
  | tornIds (h : TornIds env) : AdoptFailed env ref w ((w.revoked env.lingers).set ref.changes)
  | tornMode (h : TornMode env) :
    AdoptFailed env ref w (((w.revoked env.lingers).set ref.changes).set onePasswordMode)
  | adopted : AdoptFailed env ref w (w.adopted env.lingers ref)

omit [SerdeJson] in
/-- The item is adopted while the generation is current; a failure may come in between. -/
theorem adopt_spec {ref : ItemRef} {generation : Nat} :
    After (fun _ s => Current w generation ∧ s.world = w.adopted env.lingers ref)
      (fun _ s => s.world = w ∨ (Current w generation ∧ AdoptFailed env ref w s.world))
      (adopt env ref generation ⟨w, 0, es⟩) := by
  refine .bind (call_spec (fun h0 => ?_) fun _ _ => .inl rfl)
  refine .bind (checkCurrent_spec (fun h1 hcurrent => ?_) fun _ _ => .inl rfl)
  refine .bind (.attempt (revoke_spec (fun h2 => ?_) fun _ _ => .inl rfl))
  refine .bind (settingSet_spec (fun h3 h4 => ?_) fun _ _ _ _ _ => .inr ⟨hcurrent, .revoked⟩)
  -- from here on, what fails tears the commit
  have hids : ∀ k ≤ 4, env.faults k = none := by
    intro k hk
    rcases (by omega : k = 0 ∨ k = 1 ∨ k = 2 ∨ k = 3 ∨ k = 4) with rfl | rfl | rfl | rfl | rfl <;>
      assumption
  refine .bind (settingSet_spec (fun h5 h6 => ?_) fun t k h5 h6 hk =>
    .inr ⟨hcurrent, .tornIds ⟨hids, k, h5, by omega, by simp [hk]⟩⟩)
  have hmode : ∀ k ≤ 6, env.faults k = none := by
    intro k hk
    rcases (by omega : k ≤ 4 ∨ k = 5 ∨ k = 6) with hk | rfl | rfl
    · exact hids k hk
    · exact h5
    · exact h6
  refine .bind (bump_spec (fun _ _ _ => ?_) fun t k h7 h9 hk =>
    .inr ⟨hcurrent, .tornMode ⟨hmode, k, h7, by omega, by simp [hk]⟩⟩)
  exact killFetch_spec ⟨hcurrent, rfl⟩ fun _ _ => .inr ⟨hcurrent, .adopted⟩

/-- What a new window is: which lines its file gets, and what becomes of the world before they are
    written. -/
inductive Chosen (w : World) : List Text → World → Prop
  | disk : Chosen w ["source=disk"] w
  | selfSigned : Chosen w ["source=self-signed"] w
  | onePassword (p : Payload) {serial : Text} (hserial : Unbroken isLineEnd serial)
    (hmode : modeOf (fieldsOf w.settings) = "1password".toList)
    (hcache : w.currentCache = some p) (husable : w.now < p.periodEnds) :
    Chosen w (onePasswordLines p serial) (w.timed (p.hardExpiry - w.now))

/-- The cache has what it says. -/
theorem currentCache_eq_some {p : Payload} (h : w.currentCache = some p) :
    ∃ k, w.cache = some k ∧ parsePayload k.origin.data = some p ∧ w.now < p.hardExpiry := by
  unfold World.currentCache at h
  obtain ⟨hp, hlt⟩ := Option.filter_eq_some_iff.mp h
  obtain ⟨k, hk, hparse⟩ := Option.bind_eq_some_iff.mp hp
  exact ⟨k, hk, hparse, by simpa using hlt⟩

omit [SerdeJson] in
/-- A number takes no more than a line. -/
theorem unbroken_decimalInt (i : Int) : Unbroken isLineEnd (decimalInt i) := by
  unfold decimalInt
  split
  · intro c hc
    rcases List.mem_cons.mp hc with rfl | hc
    · rfl
    · exact unbroken_decimal _ c hc
  · exact unbroken_decimal _

omit [SerdeJson] in
/-- The serial number that is found, or the word for none, takes no more than a line. -/
private theorem findSerial_spec {Q : Text → Sys → Prop} {E : Fail → Sys → Prop}
    (h : ∀ serial, Unbroken isLineEnd serial → Q serial ⟨w, n + 1, es⟩) :
    After Q E (findSerial env ⟨w, n, es⟩) := by
  have hnone : Unbroken isLineEnd "None".toList := by
    intro c hc
    revert c
    decide
  refine .bind (.attempt (call_spec (fun _ => .bind (ask_spec ?_)) fun _ _ => h _ hnone))
  apply h
  split
  · exact unbroken_decimalInt _
  · exact hnone

/-- The key gets the time up to the hard expiry, or nothing changes. -/
private theorem extendCache_spec {p : Payload} {serial : Text} (hcache : w.currentCache = some p) :
    After (fun lines s => lines = onePasswordLines p serial ∧
        s.world = w.timed (p.hardExpiry - w.now) ∧ env.faults n = none ∧ s.calls = n + 1)
      (fun _ s => s.world = w) (extendCache env p serial ⟨w, n, es⟩) := by
  obtain ⟨k, hk, -, hlt⟩ := currentCache_eq_some hcache
  refine .bind (ask_spec (.bind ?_))
  refine setTimeout_spec (fun hnone => ?_) (fun _ hover => ?_) (fun h0 _ => ?_) fun _ _ => rfl
  · rw [hk] at hnone
    cases hnone
  · omega
  · exact .bind (emit_spec (.bind (emit_spec ⟨rfl, rfl, h0, rfl⟩)))

/-- A 1Password window sets the timeout of the key with the third call. -/
private theorem windowFromCache_spec :
    After (fun lines s => (lines = [] ∧ s.world = w) ∨
        ∃ p serial, w.currentCache = some p ∧ w.now < p.periodEnds ∧
          Unbroken isLineEnd serial ∧ lines = onePasswordLines p serial ∧ s.world = w.timed (p.hardExpiry - w.now) ∧
          env.faults (n + 2) = none ∧ s.calls = n + 3)
      (fun _ s => s.world = w) (windowFromCache env ⟨w, n, es⟩) := by
  refine .bind (currentCache_spec (fun _ => ?_) fun _ => .bind (ask_spec (.inl ⟨rfl, rfl⟩)))
  refine .bind (ask_spec ?_)
  rcases hcache : w.currentCache with _ | p
  · exact .inl ⟨rfl, rfl⟩
  · by_cases husable : w.now < p.periodEnds
    · have hfilter : (some p).filter (fun _ => (some p).any fun p => w.now < p.periodEnds) =
          some p := by simp [husable]
      rw [hfilter]
      refine .bind (findSerial_spec fun serial hserial =>
        (extendCache_spec hcache).imp ?_ fun _ _ h => h)
      rintro lines s ⟨hlines, hworld, h2, hcalls⟩
      exact .inr ⟨p, serial, rfl, husable, hserial, hlines, hworld, h2, hcalls⟩
    · have hfilter : (some p).filter (fun _ => (some p).any fun p => w.now < p.periodEnds) =
          none := by simp [husable]
      rw [hfilter]
      exact .inl ⟨rfl, rfl⟩

omit [SerdeJson] in
/-- Reading a key file, present or not, changes nothing. -/
theorem readOrPresent_spec {f : KeyFile} {E : Fail → Sys → Prop} :
    After (fun _ s => s.world = w) E (readOrPresent env f ⟨w, n, es⟩) := by
  refine .bind (.attempt (call_spec (fun _ => ?_) fun _ _ => rfl))
  exact .bind (ask_spec rfl)

omit [SerdeJson] in
/-- The check of a record changes nothing. -/
private theorem recordProblem_spec {cert key : List UInt8} :
    After (fun _ s => s.world = w) (fun _ s => s.world = w)
      (recordProblem env cert key ⟨w, n, es⟩) := by
  refine .bind (ask_spec (.ite (fun _ => ?_) fun _ => rfl))
  exact .bind (call_spec (fun _ => .bind (ask_spec rfl)) fun _ _ => rfl)

omit [SerdeJson] in
/-- A window from the disk is chosen without a change to the world. -/
private theorem windowFromDisk_spec :
    After (fun lines s => (lines = [] ∨ lines = ["source=disk".toList]) ∧ s.world = w)
      (fun _ s => s.world = w) (windowFromDisk env ⟨w, n, es⟩) := by
  refine .bind (readOrPresent_spec.imp (fun r s hs => ?_) fun _ _ h => h)
  obtain ⟨w₁, n₁, es₁⟩ := s
  obtain rfl : w₁ = w := hs
  refine .bind (readOrPresent_spec.imp (fun r s hs => ?_) fun _ _ h => h)
  obtain ⟨w₂, n₂, es₂⟩ := s
  obtain rfl : w₂ = w₁ := hs
  refine .ite (fun _ => ⟨.inl rfl, rfl⟩) fun _ => ?_
  refine .bind (recordProblem_spec.imp (fun problem s hs => ?_) fun _ _ h => h)
  obtain ⟨w₃, n₃, es₃⟩ := s
  obtain rfl : w₃ = w₂ := hs
  cases problem with
  | some problem => exact .bind (emit_spec (.bind (emit_spec ⟨.inl rfl, rfl⟩)))
  | none => exact .bind (emit_spec ⟨.inr rfl, rfl⟩)

/-- A self-signed window is chosen without a change to the world. -/
private theorem selfSignedWindow_spec {E : Fail → Sys → Prop} :
    After (fun lines s => Chosen w lines s.world ∧ s.world = w) E
      (selfSignedWindow ⟨w, n, es⟩) := .bind (emit_spec ⟨.selfSigned, rfl⟩)

/-- The lines of a new window; a 1Password window has made its four calls, the last of which set
    the timeout. -/
private theorem windowLines_spec :
    After (fun lines s => Chosen w lines s.world ∧
        (s.world = w ∨ (env.faults (n + 3) = none ∧ s.calls = n + 4)))
      (fun _ s => s.world = w) (windowLines env ⟨w, n, es⟩) := by
  have hself : ∀ {k es}, After (fun lines s => Chosen w lines s.world ∧
      (s.world = w ∨ (env.faults (n + 3) = none ∧ s.calls = n + 4))) (fun _ s => s.world = w)
      (selfSignedWindow ⟨w, k, es⟩) :=
    selfSignedWindow_spec.imp (fun _ _ h => ⟨h.1, .inl h.2⟩) fun _ _ h => h
  refine .bind (mode_spec (fun _ => .bind ?_) fun _ _ => rfl)
  refine .ite (fun hmode => ?_) fun _ => .ite (fun _ => ?_) fun _ => hself
  · refine windowFromCache_spec.imp (fun lines s hs => ?_) fun _ _ h => h
    obtain ⟨w₁, n₁, es₁⟩ := s
    rcases hs with ⟨rfl, rfl⟩ | ⟨p, serial, hcache, husable, hserial, rfl, rfl, h3, rfl⟩
    · exact hself
    · exact ⟨.onePassword p hserial hmode hcache husable, .inr ⟨h3, rfl⟩⟩
  · refine windowFromDisk_spec.imp (fun lines s hs => ?_) fun _ _ h => h
    obtain ⟨w₁, n₁, es₁⟩ := s
    obtain ⟨rfl | rfl, rfl⟩ := hs
    · exact hself
    · exact ⟨.disk, .inl rfl⟩

/-- Is the window one that was parsed? -/
def WindowState.isParsed : WindowState → Bool
  | parsed _ => true
  | _        => false

/-- A window that could not be recorded: the timeout of the key was set with call 5 of the step,
    and call 6, which writes the window's file, failed. -/
def Unrecorded (env : Env) : Prop := env.faults 5 = none ∧ env.faults 6 ≠ none

/-- What settling a window does. -/
inductive Windowed (env : Env) (i : Option Int) (w : World) : World → Prop
  | kept : Windowed env i w w
  | opened {lines : List Text} {w₁ : World} (hseq : i = some (w.counter seq : Int))
    (hnew : (windowOf w.window).isParsed = false) (hchosen : Chosen w lines w₁) :
    Windowed env i w (w₁.opened lines)
  | unrecorded {lines : List Text} {w₁ : World} (hnew : (windowOf w.window).isParsed = false)
    (hchosen : Chosen w lines w₁) (h : Unrecorded env) : Windowed env i w w₁

/-- The window step answers 3, and does nothing, when its number is not the current one. -/
theorem cmdWindow_spec {i : Option Int} :
    After (fun code s => Windowed env i w s.world ∧
        (i ≠ some (w.counter seq : Int) → code = 3 ∧ s.world = w))
      (fun _ s => Windowed env i w s.world ∧ (i ≠ some (w.counter seq : Int) → s.world = w))
      (cmdWindow env i ⟨w, 0, es⟩) := by
  refine .bind (counter_spec (fun _ => ?_) fun _ _ => ⟨.kept, fun _ => rfl⟩)
  refine .ite (fun _ => ⟨.kept, fun _ => ⟨rfl, rfl⟩⟩) fun hseq => ?_
  have hseq : i = some (w.counter seq : Int) := by simpa using hseq
  refine .bind (readWindow_spec (fun _ => ?_) fun _ _ => ⟨.kept, fun _ => rfl⟩)
  rcases hwindow : windowOf w.window with _ | _ | existing
  case parsed =>
    refine .bind (emit_spec ?_)
    cases existing with
    | onePassword f hardExpiry =>
      exact .bind (ask_spec (.bind (emit_spec ⟨.kept, fun h => absurd hseq h⟩)))
    | disk => exact ⟨.kept, fun h => absurd hseq h⟩
    | selfSigned => exact ⟨.kept, fun h => absurd hseq h⟩
  all_goals
    have hnew : (windowOf w.window).isParsed = false := by rw [hwindow]; rfl
    refine .bind (windowLines_spec.imp (fun lines s hs => ?_) fun _ s hs => ?_)
    · obtain ⟨w₁, n₁, es₁⟩ := s
      obtain ⟨hchosen, hcalls⟩ := hs
      refine .bind (writePrivate_spec (fun _ => ?_) fun t ht => ?_)
      · exact ⟨.opened hseq hnew hchosen, fun h => absurd hseq h⟩
      · refine ⟨?_, fun h => absurd hseq h⟩
        rcases hcalls with rfl | ⟨h5, rfl⟩
        · exact .kept
        · exact .unrecorded hnew hchosen ⟨h5, by simp [ht]⟩
    · obtain rfl : s.world = w := hs
      exact ⟨.kept, fun h => absurd hseq h⟩

omit [SerdeJson] in
/-- `stop-begin` bumps the sequence, or it fails and nothing changes. -/
theorem cmdStopBegin_spec :
    After (fun _ s => s.world = w.bumped seq) (fun _ s => s.world = w)
      (cmdStopBegin env ⟨w, n, es⟩) :=
  .bind (bump_spec (fun _ _ _ => rfl) fun _ _ _ _ _ => rfl)

/-- The end of a window that could not look at the cache, or not set its timeout: calls 1 and 2
    of the step. -/
def Unshortened (env : Env) : Prop := env.faults 1 ≠ none ∨ env.faults 2 ≠ none

/-- What the end of a window does. -/
inductive Stopped (env : Env) (w : World) : World → Prop
  | kept : Stopped env w w
  | nothing (hcache : w.currentCache = none) : Stopped env w w.closed
  | unshortened (h : Unshortened env) : Stopped env w w.closed
  | timed (p : Payload) (hcache : w.currentCache = some p) (hlasts : w.now < p.periodEnds) :
    Stopped env w (w.closed.timed (p.periodEnds - w.now))
  | revoked (p : Payload) (hcache : w.currentCache = some p) (hover : p.periodEnds ≤ w.now) :
    Stopped env w (w.closed.revoked env.lingers)

/-- `stop-end` closes the window as far as it gets. -/
theorem cmdStopEnd_spec :
    After (fun _ s => Stopped env w s.world) (fun _ s => Stopped env w s.world)
      (cmdStopEnd env ⟨w, 0, es⟩) := by
  refine .bind (removeFile_spec (fun _ => ?_) fun _ _ => .kept)
  refine .bind (currentCache_spec (fun _ => ?_) fun h1 => .unshortened (.inl h1))
  rcases hcache : w.closed.currentCache with _ | p
  · exact .nothing hcache
  · have hcache : w.currentCache = some p := hcache
    obtain ⟨k, hk, -⟩ := currentCache_eq_some hcache
    refine .bind (ask_spec (.bind (.attempt (setTimeout_spec ?_ ?_ ?_ ?_))))
    · intro hnone
      rw [show w.closed.cache = w.cache from rfl, hk] at hnone
      cases hnone
    · exact fun _ hover => .revoked p hcache (by simp only [closed_now] at hover; omega)
    · exact fun _ hlasts => .timed p hcache (by simp only [closed_now] at hlasts; omega)
    · exact fun t ht => .bind (emit_spec (.unshortened (.inr (by simp [ht]))))

omit [SerdeJson] in
/-- The cache is locked when the command says so. -/
theorem cmdLock_spec :
    After (fun code s => s.world = w ∧ code ≠ 0 ∨ w.window = none ∧
        (s.world = w.bumped gen ∧ code ≠ 0 ∨ s.world = (w.bumped gen).revoked env.lingers))
      (fun _ s => s.world = w ∨ w.window = none ∧ s.world = w.bumped gen)
      (cmdLock env ⟨w, n, es⟩) := by
  refine .bind (call_spec (fun _ => ?_) fun _ _ => .inl rfl)
  refine .bind (ask_spec (.ite (fun _ => ?_) fun hopen => ?_))
  · exact .bind (emit_spec (.inl ⟨rfl, by decide⟩))
  · have hopen : w.window = none := by simpa using hopen
    refine .bind (bump_spec (fun _ _ _ => ?_) fun _ _ _ _ _ => .inl rfl)
    refine .bind (killFetch_spec ?_ fun _ _ => .inr ⟨hopen, rfl⟩)
    refine .bind (.attempt (revoke_spec (fun _ => ?_) fun _ _ => ?_))
    · exact .bind (emit_spec (.inr ⟨hopen, .inr rfl⟩))
    · exact .bind (emit_spec (.inr ⟨hopen, .inl ⟨rfl, by decide⟩⟩))

/-- The mode without 1Password. -/
def selfSignedMode : List (Text × Text) := [(identitySource, "self-signed")]

/-- What turning 1Password off does. -/
inductive TurnedOff (env : Env) (w : World) : World → Prop
  | bumped : TurnedOff env w (w.bumped gen)
  | revoked : TurnedOff env w ((w.bumped gen).revoked env.lingers)
  | kept : TurnedOff env w ((w.bumped gen).set selfSignedMode)
  | off : TurnedOff env w (((w.bumped gen).revoked env.lingers).set selfSignedMode)

omit [SerdeJson] in
/-- `onepassword off` turns 1Password off while there is no window. -/
theorem cmdOnepasswordOff_spec :
    After (fun _ s => s.world = w ∨ w.window = none ∧ TurnedOff env w s.world)
      (fun _ s => s.world = w ∨ w.window = none ∧ TurnedOff env w s.world)
      (cmdOnepasswordOff env ⟨w, n, es⟩) := by
  refine .bind (call_spec (fun _ => ?_) fun _ _ => .inl rfl)
  refine .bind (ask_spec (.ite (fun _ => .bind (emit_spec (.inl rfl))) fun hopen => ?_))
  have hopen : w.window = none := by simpa using hopen
  refine .bind (bump_spec (fun _ _ _ => ?_) fun _ _ _ _ _ => .inl rfl)
  refine .bind (killFetch_spec ?_ fun _ _ => .inr ⟨hopen, .bumped⟩)
  refine .bind (.attempt (revoke_spec (fun _ => ?_) fun _ _ => ?_))
  · refine .bind (settingSet_spec (fun _ _ => ?_) fun _ _ _ _ _ => .inr ⟨hopen, .revoked⟩)
    exact .bind (emit_spec (.inr ⟨hopen, .off⟩))
  · refine .bind (settingSet_spec (fun _ _ => ?_) fun _ _ _ _ _ => .inr ⟨hopen, .bumped⟩)
    exact .bind (emit_spec (.inr ⟨hopen, .kept⟩))

end Omdrop.Identity
