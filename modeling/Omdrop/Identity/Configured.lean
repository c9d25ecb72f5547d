import Omdrop.Identity.Generation

namespace Omdrop.Identity

open Omdrop.Text

/-!
# The cached key is the configured one

While the mode is 1password, what the cache holds was fetched from the item that the settings name
(`cache_configured`), in runs whose steps are `Sound`: no commit fails between the IDs, the mode
and the bump of the generation.  `torn_commit_publishes` is a run with one that does.
-/

/-! ### What the settings say after they are set -/

/-- An ID as `op` reports it. -/
def IsId (t : Text) : Prop := t ≠ [] ∧ Unbroken isLineEnd t

/-- IDs that settings can keep. -/
structure ItemRef.Good (ref : ItemRef) : Prop where
  account : Unbroken isLineEnd ref.account
  vault : IsId ref.vault
  item : IsId ref.item

/-- The mode is 1password. -/
def World.usesOnePassword (w : World) : Prop :=
  modeOf (fieldsOf w.settings) = "1password".toList

/-- The item that the settings of a world name. -/
def World.ref (w : World) : ItemRef := refOf (fieldsOf w.settings)

/-- The IDs of a good item are written without a broken line. -/
theorem clean_changes {ref : ItemRef} (h : ref.Good) : ∀ kv ∈ ref.changes, Clean kv.1 kv.2 := by
  have hkey : ∀ key ∈ [opAccount, opVault, opItem], '=' ∉ key ∧ Unbroken isLineEnd key := by
    unfold Unbroken
    decide
  intro kv hkv
  simp only [ItemRef.changes, List.mem_cons, List.not_mem_nil, or_false] at hkv
  rcases hkv with rfl | rfl | rfl
  · exact ⟨(hkey _ (by simp)).1, (hkey _ (by simp)).2, h.account⟩
  · exact ⟨(hkey _ (by simp)).1, (hkey _ (by simp)).2, h.vault.2⟩
  · exact ⟨(hkey _ (by simp)).1, (hkey _ (by simp)).2, h.item.2⟩

/-- The 1Password mode is written without a broken line. -/
private theorem clean_onePasswordMode : ∀ kv ∈ onePasswordMode, Clean kv.1 kv.2 := by
  unfold Clean Unbroken
  decide

/-- The self-signed mode is written without a broken line. -/
private theorem clean_selfSignedMode : ∀ kv ∈ selfSignedMode, Clean kv.1 kv.2 := by
  unfold Clean Unbroken
  decide

/-- Set settings say what was set, and else what they said. -/
theorem lookup_set (w : World) {changes : List (Text × Text)}
    (hclean : ∀ kv ∈ changes, Clean kv.1 kv.2) (key : Text) :
    (fieldsOf (w.set changes).settings).lookup key =
      (changes.reverse.lookup key).or ((fieldsOf w.settings).lookup key) :=
  lookup_setSettings hclean _ key

/-- The IDs that are written are the ones that are read. -/
private theorem ref_set_changes (w : World) {ref : ItemRef} (h : ref.Good) :
    (w.set ref.changes).ref = ref := by
  have hclean := clean_changes h
  have haccount : ref.changes.reverse.lookup opAccount = some ref.account := rfl
  have hvault : ref.changes.reverse.lookup opVault = some ref.vault := rfl
  have hitem : ref.changes.reverse.lookup opItem = some ref.item := rfl
  simp only [World.ref, refOf, lookup_set w hclean, haccount, hvault, hitem, Option.some_or,
    Option.getD_some]

/-- Writing the mode leaves the IDs as they were. -/
private theorem ref_set_onePasswordMode (w : World) : (w.set onePasswordMode).ref = w.ref := by
  have haccount : onePasswordMode.reverse.lookup opAccount = none := rfl
  have hvault : onePasswordMode.reverse.lookup opVault = none := rfl
  have hitem : onePasswordMode.reverse.lookup opItem = none := rfl
  simp only [World.ref, refOf, lookup_set w clean_onePasswordMode, haccount, hvault, hitem,
    Option.none_or]

/-- Writing IDs leaves the mode as it was. -/
theorem usesOnePassword_set_changes (w : World) {ref : ItemRef} (h : ref.Good) :
    (w.set ref.changes).usesOnePassword ↔ w.usesOnePassword := by
  have hmode : ref.changes.reverse.lookup identitySource = none := rfl
  rw [World.usesOnePassword, World.usesOnePassword, modeOf, modeOf,
    lookup_set w (clean_changes h), hmode, Option.none_or]

/-- The self-signed mode does not use 1Password. -/
theorem not_usesOnePassword_selfSigned (w : World) :
    ¬ (w.set selfSignedMode).usesOnePassword := by
  have hmode : selfSignedMode.reverse.lookup identitySource = some "self-signed".toList := rfl
  rw [World.usesOnePassword, modeOf, lookup_set w clean_selfSignedMode, hmode,
    Option.some_or, Option.getD_some]
  decide

/-- What settings say is of one line. -/
theorem unbroken_lookup (file : Option Text) (key : Text) :
    Unbroken isLineEnd (((fieldsOf file).lookup key).getD []) := by
  rcases hv : (fieldsOf file).lookup key with _ | v
  · intro c hc
    cases hc
  · exact (clean_of_mem_parseSettings _ _ (AList.mem_lookup_iff.mp hv)).2.2

/-- IDs that the settings name are good ones. -/
private theorem good_ref {w : World} (h : Named (fieldsOf w.settings)) : w.ref.Good where
  account := unbroken_lookup _ _
  vault := ⟨h.1, unbroken_lookup _ _⟩
  item := ⟨h.2, unbroken_lookup _ _⟩

/-! ### Runs in which commits are whole -/

section Runs

variable [SerdeJson]

/-- What `op` reports to a command, and the account that it was given, are IDs. -/
def Reports (env : Env) : Proc → Prop
  | .useGet args _    => (∀ a, args.account = some a → Unbroken isLineEnd a) ∧
    ∀ v, Printed env (.get args.item args.vault) v → IsId (jsonVaultId v) ∧ IsId (jsonId v)
  | .createItem i     => ∀ v, Printed env (.create i.args.title i.args.vault env.keys) v →
    IsId (jsonVaultId v) ∧ IsId (jsonId v)
  | .useAccount ..    => ∀ v, Printed env .accounts v → Unbroken isLineEnd (accountOf v)
  | .createAccount .. => ∀ v, Printed env .accounts v → Unbroken isLineEnd (accountOf v)
  | _                 => True

/-- A step whose commit is whole: it does not fail between the mode and the bump, nor between the
    IDs and the mode when the mode is 1password already.  Revoked keys are gone, the counter of
    the generations has not gone round, and `op` reports IDs. -/
structure Sound (w : World) (p : Proc) (env : Env) : Prop where
  revokes : env.lingers = false
  bumps : w.bumps gen < counterRange
  whole : p.adopting.isSome → ¬ TornMode env ∧ (TornIds env → ¬ w.usesOnePassword)
  reports : Reports env p

/-- The IDs that a command has found. -/
def Proc.Good : Proc → Prop
  | .useAccount _ vault item    => IsId vault ∧ IsId item
  | .useFiles _ ref _           => ref.Good
  | .useAdopt _ ref             => ref.Good
  | .rerunFiles _ _ ref _       => ref.Good
  | .rerunCompare _ _ ref _     => ref.Good
  | .rerunAdopt _ ref _         => ref.Good
  | .createAccount _ vault item => IsId vault ∧ IsId item
  | .saveItemIds _ ref          => ref.Good
  | .createdFiles _ ref _       => ref.Good
  | .createdCompare _ ref _     => ref.Good
  | .createdAdopt _ ref _       => ref.Good
  | _                           => True

/-- The generation of an import that has found no item in the settings. -/
def Proc.creating : Proc → Option Nat
  | .createItem i        => some i.generation
  | .createAccount i _ _ => some i.generation
  | .saveItemIds i _     => some i.generation
  | _                    => none

/-- The generation of an import that has yet to look at the settings. -/
def Proc.importing : Proc → Option Nat
  | .importPresent i  => some i.generation
  | .importSettings i => some i.generation
  | _                 => none

/-- The cache is of the item that is configured. -/
structure Configured (w : World) : Prop where
  named : w.usesOnePassword → Named (fieldsOf w.settings)
  cached : w.usesOnePassword → ∀ key, w.cache = some key →
    key.origin.vault = w.ref.vault ∧ key.origin.item = w.ref.item

/-- What is known of a command: what it fetches is configured while its generation is current, and
    an import that creates an item does so without one. -/
structure Apt (w₀ w : World) (p : Proc) : Prop where
  good : p.Good
  fetching : ∀ f ref, p.fetching = some (f, ref) → w.bumps gen = f.asOf →
    w.usesOnePassword → ref = w.ref
  payload : ∀ f payload, p = .publish f payload → w.bumps gen = f.asOf →
    w.usesOnePassword → payload.vault = w.ref.vault ∧ payload.item = w.ref.item
  importing : ∀ g, p.importing = some g →
    ∃ n ≤ w.bumps gen, g = (w₀.counter gen + n) % counterRange
  creating : ∀ g, p.creating = some g →
    ∃ n ≤ w.bumps gen, g = (w₀.counter gen + n) % counterRange ∧
      (w.bumps gen = n → ¬ w.usesOnePassword)

variable {env : Env} {w w' w₀ : World} {p p' : Proc}

omit [SerdeJson] in
/-- A counter that reads as it did was not bumped since, short of all its range. -/
theorem bumps_of_current {n g : Nat} (hcounts : Counts w₀ w) (hbumps : w.bumps gen < counterRange)
    (hn : n ≤ w.bumps gen) (hg : g = (w₀.counter gen + n) % counterRange)
    (hcurrent : w.counter gen = g) : w.bumps gen = n := by
  have hread : ReadAt w₀ w ⟨.begin, g, n⟩ := ⟨hn, hg⟩
  obtain ⟨m, hm⟩ := unbumped_of_counter hcounts hread hcurrent
  by_cases hm0 : m = 0
  · subst hm0
    simpa using hm
  · have hround : 1 * counterRange ≤ m * counterRange := Nat.mul_le_mul_right _ (by omega)
    omega

/-- What becomes of the settings. -/
inductive Settled (env : Env) (w : World) : Proc → World → Prop
  | same {p : Proc} {w' : World} (h : w'.settings = w.settings) : Settled env w p w'
  | saved {i : Import} {ref : ItemRef} (hcurrent : Current w i.generation) :
    Settled env w (.saveItemIds i ref) (w.set ref.changes)
  | adopted {p p' : Proc} {g : Nat} {ref : ItemRef} (hp : p.adopting = some (g, ref, p'))
    (hcurrent : Current w g) : Settled env w p (w.adopted env.lingers ref)
  | tornIds {p p' : Proc} {g : Nat} {ref : ItemRef} (hp : p.adopting = some (g, ref, p'))
    (htorn : TornIds env) : Settled env w p ((w.revoked env.lingers).set ref.changes)
  | tornMode {p : Proc} {w' : World} (hp : p.adopting.isSome) (htorn : TornMode env) :
    Settled env w p w'
  | off {w₁ w' : World} (h : w'.settings = (w₁.set selfSignedMode).settings) :
    Settled env w .onepasswordOff w'

/-- **The settings.**  A step leaves them, or is one of those that set some. -/
theorem Next.settled (h : Next env w p p' w') : Settled env w p w' := by
  cases h with
  | window hw =>
    have hchosen : ∀ {lines w₁}, Chosen w lines w₁ → w₁.settings = w.settings := by
      intro lines w₁ h
      cases h <;> rfl
    cases hw with
    | kept => exact .same rfl
    | opened hseq hnew h =>
      have hsame := hchosen h
      exact .same hsame
    | unrecorded hnew h hfail => exact .same (hchosen h)
  | stopEnd hs => cases hs <;> exact .same (by simp [World.closed])
  | locked hopen => exact .same (by simp)
  | turnedOff hopen hoff =>
    cases hoff with
    | bumped => exact .same rfl
    | revoked => exact .same (by simp)
    | kept => exact .off rfl
    | off => exact .off rfl
  | saved hcurrent => exact .saved hcurrent
  | adopted hp hcurrent => exact .adopted hp hcurrent
  | adoptFailed hp hcurrent hfailed =>
    cases hfailed with
    | refused => exact .same rfl
    | revoked => exact .same (by simp)
    | tornIds htorn => exact .tornIds hp htorn
    | tornMode htorn => exact .tornMode (by rw [hp]; rfl) htorn
    | adopted => exact .adopted hp hcurrent
  | _ => exact .same rfl

omit [SerdeJson] in
/-- Whether 1Password is used depends on the settings only. -/
theorem usesOnePassword_of_eq (h : w'.settings = w.settings) (hw : w'.usesOnePassword) :
    w.usesOnePassword := by
  rw [World.usesOnePassword, ← h]
  exact hw

omit [SerdeJson] in
/-- The item depends on the settings only. -/
theorem ref_of_eq (h : w'.settings = w.settings) : w'.ref = w.ref := by
  rw [World.ref, World.ref, h]

omit [SerdeJson] in
/-- What a good process adopts is a good item. -/
theorem Proc.good_of_adopting {g : Nat} {ref : ItemRef} (h : p.adopting = some (g, ref, p'))
    (hgood : p.Good) : ref.Good := by
  cases p <;> cases h <;> exact hgood

omit [SerdeJson] in
/-- The item that is adopted is the one that the settings name. -/
private theorem ref_adopted (l : Bool) {ref : ItemRef} (h : ref.Good) :
    (w.adopted l ref).ref = ref := by
  have hset : (((w.revoked l).set ref.changes).set onePasswordMode).ref = ref := by
    rw [ref_set_onePasswordMode, ref_set_changes _ h]
  exact hset

/-- While no bump comes, a step neither turns 1Password on nor names another item with it on. -/
def Steady (w w' : World) : Prop :=
  w.bumps gen ≤ w'.bumps gen ∧ (w'.bumps gen = w.bumps gen → w'.usesOnePassword →
    w.usesOnePassword ∧ w'.ref = w.ref)

omit [SerdeJson] in
/-- An import that saves the IDs of a new item does so without 1Password. -/
theorem Apt.not_usesOnePassword {i : Import} {ref : ItemRef} (hw : Fresh w₀ w)
    (hp : Apt w₀ w (.saveItemIds i ref)) (hbumps : w.bumps gen < counterRange)
    (hcurrent : Current w i.generation) : ¬ w.usesOnePassword := by
  obtain ⟨n, hn, hg, hno⟩ := hp.creating _ rfl
  exact hno (bumps_of_current hw.counts hbumps hn hg hcurrent.2)

/-- A step of a sound process is steady. -/
theorem Next.steady (h : Next env w p p' w') (hs : Sound w p env) (hw : Fresh w₀ w)
    (hp : Apt w₀ w p) : Steady w w' := by
  refine ⟨h.countersKept.le gen, fun hbumps huses => ?_⟩
  cases h.settled with
  | same hsame => exact ⟨usesOnePassword_of_eq hsame huses, ref_of_eq hsame⟩
  | saved hcurrent =>
    have hno := hp.not_usesOnePassword hw hs.bumps hcurrent
    exact absurd ((usesOnePassword_set_changes w hp.good).mp huses) hno
  | adopted hadopt hcurrent =>
    -- the generation moves
    simp [World.adopted] at hbumps
  | tornIds hadopt htorn =>
    have hno := (hs.whole (by rw [hadopt]; rfl)).2 htorn
    have hgood := Proc.good_of_adopting hadopt hp.good
    have huses := (usesOnePassword_set_changes _ hgood).mp huses
    exact absurd (usesOnePassword_of_eq (by simp) huses) hno
  | tornMode hadopt htorn => exact absurd htorn (hs.whole hadopt).1
  | off hsettings =>
    exact absurd (usesOnePassword_of_eq hsettings huses) (not_usesOnePassword_selfSigned _)

omit [SerdeJson] in
/-- What is known of a command stays true. -/
theorem Apt.mono (hp : Apt w₀ w p) (h : Steady w w')
    (hread : ∀ f, p.fetch = some f → f.asOf ≤ w.bumps gen) : Apt w₀ w' p := by
  obtain ⟨hle, hsame⟩ := h
  refine ⟨hp.good, ?_, ?_, ?_, ?_⟩
  · intro f ref hf hbumps huses
    have hasOf := hread f (Proc.fetch_of_fetching hf)
    have hstill : w'.bumps gen = w.bumps gen := by omega
    obtain ⟨huses, href⟩ := hsame hstill huses
    rw [href]
    exact hp.fetching f ref hf (by omega) huses
  · intro f payload hf hbumps huses
    have hasOf := hread f (by rw [hf]; rfl)
    have hstill : w'.bumps gen = w.bumps gen := by omega
    obtain ⟨huses, href⟩ := hsame hstill huses
    rw [href]
    exact hp.payload f payload hf (by omega) huses
  · intro g hg
    obtain ⟨n, hn, heq⟩ := hp.importing g hg
    exact ⟨n, hn.trans hle, heq⟩
  · intro g hg
    obtain ⟨n, hn, heq, hno⟩ := hp.creating g hg
    refine ⟨n, hn.trans hle, heq, fun hbumps huses => ?_⟩
    obtain ⟨huses, -⟩ := hsame (by omega) huses
    exact hno (by omega) huses

/-- A step of a sound process leaves a cached payload for the item that the settings name. -/
theorem Next.configured (h : Next env w p p' w') (hs : Sound w p env) (hw : Fresh w₀ w)
    (hc : Configured w) (hf : Fetches w₀ w p) (hp : Apt w₀ w p) : Configured w' := by
  have hsame : w'.settings = w.settings → Configured w' := by
    intro hsame
    have href := ref_of_eq hsame
    refine ⟨fun huses => ?_, fun huses key hkey => ?_⟩
    · rw [hsame]
      exact hc.named (usesOnePassword_of_eq hsame huses)
    · have huses := usesOnePassword_of_eq hsame huses
      rw [href]
      rcases h.cache_cases with hkept | ⟨f, payload, pl, rfl, hmay, rfl⟩
      · obtain ⟨k₀, hk₀, horigin⟩ := hkept key hkey
        rw [← horigin]
        exact hc.cached huses k₀ hk₀
      · -- what is published was fetched while the settings were these
        cases hkey
        obtain ⟨hle, hg⟩ := hf.read f rfl
        have hbumps := bumps_of_current hw.counts hs.bumps hle hg hmay.current
        exact hp.payload f payload rfl hbumps huses
  have hnone : w'.cache = none → (w'.usesOnePassword → Named (fieldsOf w'.settings)) →
      Configured w' := by
    intro hcache hnamed
    refine ⟨hnamed, fun _ key hkey => ?_⟩
    rw [hcache] at hkey
    cases hkey
  have hoff : ¬ w'.usesOnePassword → Configured w' :=
    fun hno => ⟨fun huses => absurd huses hno, fun huses => absurd huses hno⟩
  cases h.settled with
  | same h => exact hsame h
  | saved hcurrent =>
    have hno := hp.not_usesOnePassword hw hs.bumps hcurrent
    exact hoff fun huses => hno ((usesOnePassword_set_changes w hp.good).mp huses)
  | adopted hadopt hcurrent =>
    have hgood := Proc.good_of_adopting hadopt hp.good
    refine hnone (by simp [World.adopted, hs.revokes]) fun _ => ?_
    have href := ref_adopted (w := w) env.lingers hgood
    rw [World.ref] at href
    rw [Named, href]
    exact ⟨hgood.vault.1, hgood.item.1⟩
  | tornIds hadopt htorn =>
    have hno := (hs.whole (by rw [hadopt]; rfl)).2 htorn
    have hgood := Proc.good_of_adopting hadopt hp.good
    refine hoff fun huses => hno ?_
    exact usesOnePassword_of_eq (by simp) ((usesOnePassword_set_changes _ hgood).mp huses)
  | tornMode hadopt htorn => exact absurd htorn (hs.whole hadopt).1
  | off hsettings =>
    exact hoff fun huses =>
      not_usesOnePassword_selfSigned _ (usesOnePassword_of_eq hsettings huses)

/-- A good process stays good. -/
theorem Next.good (h : Next env w p p' w') (hr : Reports env p) (hp : p.Good) : p'.Good := by
  cases h with
  | early hearly hearly' => cases p' <;> trivial
  | fetching hfetch hfetch' => cases p' <;> trivial
  | useGet hv => exact hr.2 _ hv
  | useGiven ha hv => exact ⟨hr.1 _ ha, (hr.2 _ hv).1, (hr.2 _ hv).2⟩
  | useAccount hv => exact ⟨hr _ hv, hp.1, hp.2⟩
  | useKept huse huse' =>
    cases p <;> cases huse <;> cases p' <;> cases huse' <;> exact hp
  | adopted hadopt => cases p <;> cases hadopt <;> trivial
  | rerunItem i c hnamed => exact good_ref hnamed
  | created hv hitem hvault => exact hr _ hv
  | createAccount hv => exact ⟨hr _ hv, hp.1, hp.2⟩
  | rerunFiles hop => exact hp
  | rerunRead hop hlen => exact hp
  | rerunUsable hsame => exact hp
  | saved hcurrent => exact hp
  | createdFiles hop => exact hp
  | createdRead hop => exact hp
  | createdSame hsame => exact hp
  | _ => trivial

/-- A part of a command in which it neither holds an item to fetch nor is on its way to make one. -/
def Proc.isIdle (p : Proc) : Prop :=
  p.fetching = none ∧ p.importing = none ∧ p.creating = none

omit [SerdeJson] in
/-- A process that has only begun works on no item yet. -/
theorem Proc.idle_of_early (h : p.isEarly = true) : p.isIdle := by
  cases p <;> first | exact ⟨rfl, rfl, rfl⟩ | cases h

omit [SerdeJson] in
/-- A process that is yet to look at an item works on none. -/
theorem Proc.idle_of_use {x : Nat × ItemRef} (h : p.use = some x) : p.isIdle := by
  cases p <;> first | exact ⟨rfl, rfl, rfl⟩ | cases h

omit [SerdeJson] in
/-- A process that adopts an item neither imports nor creates afterwards. -/
theorem Proc.idle_of_adopting {g : Nat} {ref : ItemRef} (h : p.adopting = some (g, ref, p')) :
    p'.isIdle := by
  cases p <;> cases h <;> exact ⟨rfl, rfl, rfl⟩

omit [SerdeJson] in
/-- A fetch neither imports nor creates. -/
theorem Proc.idle_of_fetching {x : Fetch × ItemRef} (h : p.fetching = some x) :
    p.importing = none ∧ p.creating = none := by
  cases p <;> first | exact ⟨rfl, rfl⟩ | cases h

/-- What a process knows of the settings stays true while its generation is current. -/
theorem Next.apt (h : Next env w p p' w') (hs : Sound w p env) (hw : Fresh w₀ w)
    (hc : Configured w) (hf : Fetches w₀ w p) (hp : Apt w₀ w p) : Apt w₀ w' p' := by
  have hpast : Apt w₀ w' p := hp.mono (h.steady hs hw hp) fun f hfetch => (hf.read f hfetch).1
  refine ⟨h.good hs.reports hp.good, ?_, ?_, ?_, ?_⟩
  · -- a fetch is of the item that the settings named when it read them
    intro f ref hfetch
    cases h with
    | fetchItem f' hnamed =>
      cases hfetch
      exact fun _ _ => rfl
    | fetching hp₀ hp₁ =>
      rw [hp₁] at hfetch
      exact hpast.fetching f ref (hp₀.trans hfetch)
    | early hearly hearly' => simp [(Proc.idle_of_early hearly').1] at hfetch
    | useKept huse huse' => simp [(Proc.idle_of_use huse').1] at hfetch
    | adopted hadopt => simp [(Proc.idle_of_adopting hadopt).1] at hfetch
    | _ => cases hfetch
  · -- what was fetched is of that item, too
    intro f payload hpublish
    subst hpublish
    cases h with
    | fetched hfetch data =>
      intro hbumps huses
      have href := hpast.fetching f _ hfetch hbumps huses
      rw [href]
      exact ⟨rfl, rfl⟩
    | early hearly hearly' => cases hearly'
    | fetching hfetch hfetch' => cases hfetch'
    | useKept huse huse' => cases huse'
    | adopted hadopt => cases p <;> cases hadopt
  · -- an import holds a generation that was current
    intro g hg
    cases h with
    | importStart args =>
      cases hg
      exact ⟨w.bumps gen, le_rfl, hw.counts gen⟩
    | importPresent hfile =>
      cases hg
      exact hp.importing _ rfl
    | importRead hlen => exact hp.importing g hg
    | early hearly hearly' => simp [(Proc.idle_of_early hearly').2.1] at hg
    | fetching hfetch hfetch' => simp [(Proc.idle_of_fetching hfetch').1] at hg
    | useKept huse huse' => simp [(Proc.idle_of_use huse').2.1] at hg
    | adopted hadopt => simp [(Proc.idle_of_adopting hadopt).2.1] at hg
    | _ => cases hg
  · intro g hg
    cases h with
    -- an item is created where the settings name none
    | createItem hunnamed =>
      obtain ⟨n, hn, heq⟩ := hp.importing g hg
      exact ⟨n, hn, heq, fun _ huses => hunnamed (hc.named huses)⟩
    | created hv hitem hvault => exact hp.creating g hg
    | createAccount hv => exact hp.creating g hg
    | early hearly hearly' => simp [(Proc.idle_of_early hearly').2.2] at hg
    | fetching hfetch hfetch' => simp [(Proc.idle_of_fetching hfetch').2] at hg
    | useKept huse huse' => simp [(Proc.idle_of_use huse').2.2] at hg
    | adopted hadopt => simp [(Proc.idle_of_adopting hadopt).2.2] at hg
    | _ => cases hg

omit [SerdeJson] in
/-- What happens outside changes no setting. -/
private theorem outside_steady (e : Outside) : Steady w (outside e w) := by
  cases e with
  | clock t => exact ⟨le_rfl, fun _ huses => ⟨huses, rfl⟩⟩
  | lost => exact ⟨le_rfl, fun _ huses => ⟨huses, rfl⟩⟩

omit [SerdeJson] in
/-- What happens outside changes nothing about what is cached. -/
private theorem outside_configured (e : Outside) (hc : Configured w) :
    Configured (outside e w) := by
  cases e with
  | clock t =>
    refine ⟨hc.named, fun huses key hkey => ?_⟩
    exact hc.cached huses key (Option.filter_eq_some_iff.mp hkey).1
  | lost =>
    refine ⟨hc.named, fun _ key hkey => ?_⟩
    cases hkey

/-- That what is cached is of the item that the settings name is an invariant of the runs. -/
private theorem invariant_configured (w₀ : World) :
    lifecycle.Invariant Sound (fun w => Fresh w₀ w ∧ Configured w)
      fun w p _ => Fetches w₀ w p ∧ Apt w₀ w p where
  start w c hw := by
    have hrule := invariant_fresh w₀
    refine ⟨hrule.start w c hw.1, ?_, ?_, ?_, ?_, ?_⟩
    all_goals cases c
    all_goals first | trivial | (intro _ _ h; cases h) | (intro _ h; cases h)
  outside w e hw := ⟨outside_fresh e hw.1, outside_configured e hw.2⟩
  outside_other w e p past hw hp :=
    ⟨(invariant_fresh w₀).outside_other w e p past hw.1 hp.1,
      hp.2.mono (outside_steady e) fun f hf => (hp.1.read f hf).1⟩
  shared w p past env hs hw hp :=
    have h := (advance_next env p w).1
    ⟨h.fresh hw.1 hp.1, h.configured hs hw.1 hw.2 hp.1 hp.2⟩
  own w p past env hs hw hp :=
    have h := (advance_next env p w).1
    ⟨h.fetches hw.1 hp.1, h.apt hs hw.1 hw.2 hp.1 hp.2⟩
  other w p past env hs hw hp q past' hq := by
    have h := (advance_next env p w).1
    refine ⟨hq.1.mono (h.countersKept.le gen), ?_⟩
    exact hq.2.mono (h.steady hs hw.1 hp.2) fun f hf => (hq.1.read f hf).1

/-- **The cached key is the configured one.**  In a run whose steps are sound, from settings that
    name an item if their mode is 1password, what the keyring holds while the mode is 1password
    was fetched from the item that the settings name. -/
theorem cache_configured (b : Boot) (as : List (Pool.Action Cmd Env Outside))
    (hboot : b.world.usesOnePassword → Named (fieldsOf b.world.settings))
    (has : lifecycle.Legal Sound ⟨b.world, []⟩ as)
    (huses : (b.after as).shared.usesOnePassword) :
    ∀ key, (b.after as).shared.cache = some key →
      key.origin.vault = (b.after as).shared.ref.vault ∧
        key.origin.item = (b.after as).shared.ref.item := by
  have hfresh := fresh_after b []
  refine ((invariant_configured b.world).run ⟨⟨hfresh.1, hboot, fun _ key hkey => ?_⟩,
    fun p past hp => ?_⟩ has).1.2.cached huses
  · cases hkey
  · cases hp

end Runs

/-! ### A commit that is torn -/

attribute [local instance] sampleJson

/-- `use` starts; then an `unlock` fetches the item that is configured; then `use` commits to
    another one, and the write of the state file, its last, fails; then the fetch is published. -/
def sampleTorn : List (Pool.Action Cmd Env Outside) :=
  [.start (.use ⟨"new", none, some "a"⟩), .advance 0 sampleEnv, .start .unlock] ++
    List.replicate 9 (.advance 1 sampleEnv) ++
    .advance 0 { sampleEnv with op := fun _ => .ok samplePrinted } ::
    List.replicate 3 (.advance 0 sampleEnv) ++
    [.advance 0 { sampleEnv with faults := fun k => if k = 9 then some "No space left" else none },
      .advance 1 sampleEnv]

/-- What the fetch is of, and what is configured then. -/
theorem torn_commit_publishes :
    (fun w : World => (w.window, modeOf (fieldsOf w.settings), w.ref.item,
        w.cache.map fun key => key.origin.item)) (sampleBoot.after sampleTorn).shared =
      (none, "1password".toList, "new".toList, some "old".toList) := by
  decide +kernel

/-- The account that `use` was given. -/
def Proc.account : Proc → Option Text
  | .useStart args => args.account
  | .useGet args _ => args.account
  | _              => none

/-- Only an import looks for an account. -/
theorem Next.account {env : Env} {w w' : World} {p p' : Proc} (h : Next env w p p' w')
    (hp : p.account = none) : p'.account = none := by
  cases h with
  | early hearly hearly' => cases p' <;> first | rfl | cases hearly'
  | fetching hfetch hfetch' => cases p' <;> first | rfl | cases hfetch'
  | useStart args hopen => exact hp
  | useKept huse huse' => cases p' <;> first | rfl | cases huse'
  | adopted hadopt => cases p <;> cases hadopt <;> rfl
  | _ => rfl

/-- The steps of process 0 alone, with nothing failing. -/
private theorem legal_sample {A : World → Proc → Env → Prop}
    (hA : ∀ w p, w.bumps gen < counterRange → p.account = none → A w p sampleEnv) (n : Nat)
    {s : Pool.State World Proc Moved} (hbumps : s.shared.bumps gen + n ≤ counterRange)
    (hs : ∀ p past, s.procs[0]? = some (p, past) → p.account = none) :
    lifecycle.Legal A s (List.replicate n (.advance 0 sampleEnv)) := by
  induction n generalizing s with
  | zero => exact .nil
  | succ n ih =>
    refine .cons (fun k input hk p past hp => ?_) ?_
    · cases hk
      exact hA _ p (by omega) (hs p past hp)
    · rcases hp : s.procs[0]? with _ | ⟨p, past⟩
      · simp only [Pool.step, hp]
        exact ih (by omega) fun q past' hq => by simp [hp] at hq
      · have h := (advance_next sampleEnv p s.shared).1
        have hle := h.countersKept.le_succ gen
        simp only [Pool.step, hp, lifecycle]
        refine ih ((Nat.add_le_add_right hle n).trans (by omega)) fun q past' hq => ?_
        have hlen : 0 < s.procs.length := (List.getElem?_eq_some_iff.mp hp).1
        rw [List.getElem?_set_self hlen] at hq
        cases hq
        exact h.account (hs p past hp)

/-- Where nothing fails and the counter has not run around, a step is sound. -/
private theorem sound_sample {w : World} {p : Proc} (hbumps : w.bumps gen < counterRange)
    (hp : p.account = none) : Sound w p sampleEnv := by
  have hprinted : ∀ call v, ¬ Printed sampleEnv call v := by
    rintro call v ⟨raw, empty, hop, hv⟩
    cases hop
    have hnone : SerdeJson.value [1] = none := by decide +kernel
    rw [if_neg (by decide), hnone] at hv
    cases hv
  refine ⟨rfl, hbumps, fun _ => ⟨?_, ?_⟩, ?_⟩
  · rintro ⟨-, k, -, -, hk⟩
    exact hk rfl
  · rintro ⟨-, k, -, -, hk⟩
    exact absurd rfl hk
  · cases p with
    | useGet args g =>
      refine ⟨fun a ha => ?_, fun v hv => absurd hv (hprinted _ v)⟩
      rw [show args.account = none from hp] at ha
      cases ha
    | createItem i => exact fun v hv => absurd hv (hprinted _ v)
    | useAccount g vault item => exact fun v hv => absurd hv (hprinted _ v)
    | createAccount i vault item => exact fun v hv => absurd hv (hprinted _ v)
    | _ => trivial

/-- A fetch that is published. -/
def samplePublished : List (Pool.Action Cmd Env Outside) :=
  .start .unlock :: List.replicate 10 (.advance 0 sampleEnv)

/-- What is published is of the item that is configured. -/
theorem cache_configured_sample :
    (sampleBoot.after samplePublished).shared.cache.map CacheKey.origin = some sampleFetched ∧
      ∀ key, (sampleBoot.after samplePublished).shared.cache = some key →
        key.origin.vault = (sampleBoot.after samplePublished).shared.ref.vault ∧
          key.origin.item = (sampleBoot.after samplePublished).shared.ref.item := by
  have h : (fun w : World => (modeOf (fieldsOf w.settings), w.cache.map CacheKey.origin))
      (sampleBoot.after samplePublished).shared = ("1password".toList, some sampleFetched) := by
    decide +kernel
  simp only [Prod.mk.injEq] at h
  obtain ⟨hmode, hcache⟩ := h
  have hnamed : Named (fieldsOf sampleBoot.world.settings) := by
    unfold Named
    decide +kernel
  have hrange : 0 + 10 ≤ counterRange := by decide
  have hlegal : lifecycle.Legal Sound ⟨sampleBoot.world, []⟩ samplePublished := by
    refine .cons (fun _ _ hstart => nomatch hstart) ?_
    refine legal_sample (fun w p hbumps hp => sound_sample hbumps hp) 10 hrange fun p past hp => ?_
    cases hp
    rfl
  exact ⟨hcache, cache_configured sampleBoot samplePublished (fun _ => hnamed) hlegal hmode⟩

end Omdrop.Identity
