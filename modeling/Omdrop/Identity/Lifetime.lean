import Omdrop.Identity.Configured
import Omdrop.Identity.Pinned

namespace Omdrop.Identity

open Omdrop.Text

/-!
# How long the cache lives

A key in the cache ends with the period of its payload, unless a 1Password window for its fetch is
recorded (`cache_lifetime`), in runs whose steps are `Timely`: a window that lengthened the life of
the key is recorded, and one that ends shortens it.  `unrecorded_window_lasts` and
`unshortened_window_lasts` are runs with a step that is not.
-/

section Runs

variable [SerdeJson] {env : Env} {w w' : World} {p p' : Proc}

/-- How long a key may live: while the clock has not reached it, and past the period of its payload
    only for a window that names its fetch. -/
structure Lives (w : World) (key : CacheKey) (pl : Payload) : Prop where
  now : w.now < key.expires
  hard : key.expires ≤ pl.hardExpiry
  period : pl.periodEnds < key.expires →
    ∃ e, windowOf w.window = .parsed (.onePassword pl.fetchId e)

/-- What is in the cache parses, and lives as long as it may. -/
def Lasts (w : World) : Prop :=
  ∀ key, w.cache = some key → ∃ pl, parsePayload key.origin.data = some pl ∧ Lives w key pl

/-- The key in the cache ends with its period. -/
def Short (w : World) : Prop :=
  ∀ key pl, w.cache = some key → parsePayload key.origin.data = some pl →
    key.expires ≤ pl.periodEnds

/-- A 1Password window would lengthen the life of the key. -/
def Lengthens (w : World) : Prop :=
  w.usesOnePassword ∧ ∃ pl, w.currentCache = some pl ∧ w.now < pl.periodEnds ∧
    pl.periodEnds < pl.hardExpiry

/-- A step that does not leave a key with a longer life than its window justifies: a window that
    lengthens it is recorded, and the end of a window shortens it, or revokes it when its period
    is over. -/
structure Timely (w : World) (p : Proc) (env : Env) : Prop where
  recorded : ∀ i, p = .window i → Unrecorded env → ¬ Lengthens w
  shortened : p = .stopEnd → Unshortened env → Short w
  revoked : p = .stopEnd → env.lingers = true →
    ∀ pl, w.currentCache = some pl → w.now < pl.periodEnds

/-- A key that stays lives as long as it did, under the same window. -/
theorem Lasts.kept (h : Lasts w) (hcache : ∀ key, w'.cache = some key → w.cache = some key)
    (hwindow : w'.window = w.window) (hnow : w'.now = w.now) : Lasts w' := by
  intro key hkey
  obtain ⟨pl, hparse, hlives⟩ := h key (hcache key hkey)
  refine ⟨pl, hparse, ?_, hlives.hard, fun hlong => ?_⟩
  · rw [hnow]
    exact hlives.now
  · rw [hwindow]
    exact hlives.period hlong

theorem Lasts.revoked (l : Bool) (h : Lasts w) (hcache : w'.cache = if l then w.cache else none)
    (hwindow : w'.window = w.window) (hnow : w'.now = w.now) : Lasts w' := by
  refine h.kept (fun key hkey => ?_) hwindow hnow
  rw [hcache] at hkey
  cases l with
  | true => exact hkey
  | false => cases hkey

theorem Lasts.adopted {ref : ItemRef} (l : Bool) (h : Lasts w) : Lasts (w.adopted l ref) :=
  h.revoked l (by simp [World.adopted]) (by simp [World.adopted]) (by simp [World.adopted])

/-- A key that ends with its period needs no window. -/
theorem Lasts.of_short (h : Lasts w) (hshort : Short w) (hcache : w'.cache = w.cache)
    (hnow : w'.now = w.now) : Lasts w' := by
  intro key hkey
  rw [hcache] at hkey
  obtain ⟨pl, hparse, hlives⟩ := h key hkey
  refine ⟨pl, hparse, ?_, hlives.hard, fun hlong => ?_⟩
  · rw [hnow]
    exact hlives.now
  · have := hshort key pl hkey hparse
    omega

/-- Without a 1Password window the key ends with its period. -/
theorem Lasts.short (h : Lasts w) (hwindow : (windowOf w.window).isOnePassword = false) :
    Short w := by
  intro key pl hkey hparse
  obtain ⟨pl', hparse', hlives⟩ := h key hkey
  obtain rfl : pl' = pl := Option.some.inj (hparse'.symm.trans hparse)
  by_contra hlong
  obtain ⟨e, hnamed⟩ := hlives.period (by omega)
  rw [hnamed] at hwindow
  cases hwindow

/-- The cache is worth using as long as the key lives. -/
theorem Lasts.currentCache (h : Lasts w) {key : CacheKey} (hkey : w.cache = some key) :
    ∃ pl, parsePayload key.origin.data = some pl ∧ w.currentCache = some pl := by
  obtain ⟨pl, hparse, hlives⟩ := h key hkey
  refine ⟨pl, hparse, ?_⟩
  have hlt : w.now < pl.hardExpiry := lt_of_lt_of_le hlives.now hlives.hard
  simp [World.currentCache, hkey, hparse, hlt]

omit [SerdeJson] in
/-- A key with a timeout of the time to `t`. -/
theorem timed_expires {t : Int} {key : CacheKey} (h : (w.timed (t - w.now)).cache = some key) :
    key.expires ≤ t ∧ (w.now < t → w.now < key.expires) := by
  obtain ⟨k₀, hk₀, horigin, hexpires⟩ := timed_cache_eq_some h
  rw [hexpires, maxTimeout]
  omega

theorem Lasts.published {payload : Fetched} {generation : Nat} {pl : Payload}
    (hmay : MayPublish w payload generation pl) :
    Lasts (w.withCache payload (pl.periodEnds - w.now)) := by
  intro key hkey
  cases hkey
  have hlasts := hmay.lasts
  have hordered := pl.ordered
  have hexpires : w.now + min (pl.periodEnds - w.now) maxTimeout ≤ pl.periodEnds ∧
      w.now < w.now + min (pl.periodEnds - w.now) maxTimeout := by
    rw [maxTimeout]
    omega
  refine ⟨pl, hmay.parses, hexpires.2, ?_, fun hlong => ?_⟩
  · show w.now + min (pl.periodEnds - w.now) maxTimeout ≤ pl.hardExpiry
    omega
  · have hlong : pl.periodEnds < w.now + min (pl.periodEnds - w.now) maxTimeout := hlong
    omega

/-- A new window: the key lives on for a 1Password window only. -/
theorem Lasts.opened {lines : List Text} {w₁ : World} (h : Lasts w)
    (hnew : (windowOf w.window).isParsed = false) (hchosen : Chosen w lines w₁) :
    Lasts (w₁.opened lines) := by
  have hshort : Short w := by
    apply h.short
    cases hw : windowOf w.window with
    | parsed window =>
      rw [hw] at hnew
      cases hnew
    | absent => rfl
    | unparseable => rfl
  cases hchosen with
  | disk => exact h.of_short hshort rfl rfl
  | selfSigned => exact h.of_short hshort rfl rfl
  | onePassword pl hserial hmode hcache husable =>
    intro key hkey
    obtain ⟨k₀, hk₀, horigin, -⟩ := timed_cache_eq_some hkey
    obtain ⟨k₁, hk₁, hparse, hlt⟩ := currentCache_eq_some hcache
    obtain rfl : k₁ = k₀ := Option.some.inj (hk₁.symm.trans hk₀)
    obtain ⟨hhard, hnow⟩ := timed_expires hkey
    exact ⟨pl, horigin ▸ hparse, hnow hlt, hhard, fun _ => windowOf_onePassword pl hserial⟩

/-- A window that could not be recorded did not lengthen the life of the key. -/
theorem Lasts.unrecorded {lines : List Text} {w₁ : World} (h : Lasts w)
    (hchosen : Chosen w lines w₁) (hno : ¬ Lengthens w) : Lasts w₁ := by
  cases hchosen with
  | disk => exact h
  | selfSigned => exact h
  | onePassword pl hserial hmode hcache husable =>
    intro key hkey
    obtain ⟨k₀, hk₀, horigin, -⟩ := timed_cache_eq_some hkey
    obtain ⟨k₁, hk₁, hparse, hlt⟩ := currentCache_eq_some hcache
    obtain rfl : k₁ = k₀ := Option.some.inj (hk₁.symm.trans hk₀)
    obtain ⟨hhard, hnow⟩ := timed_expires hkey
    refine ⟨pl, horigin ▸ hparse, hnow hlt, hhard, fun hlong => ?_⟩
    exact absurd ⟨hmode, pl, hcache, husable, by omega⟩ hno

/-- The end of a window leaves a key that ends with its period. -/
theorem Lasts.stopped (h : Lasts w) (hstopped : Stopped env w w') (hs : Timely w .stopEnd env) :
    Lasts w' := by
  cases hstopped with
  | kept => exact h
  | nothing hcache =>
    refine fun key hkey => ?_
    obtain ⟨pl, -, hsome⟩ := h.currentCache hkey
    rw [hcache] at hsome
    cases hsome
  | unshortened hfail => exact h.of_short (hs.shortened rfl hfail) rfl rfl
  | timed pl hcache hlasts =>
    intro key hkey
    obtain ⟨k₀, hk₀, horigin, -⟩ := timed_cache_eq_some hkey
    obtain ⟨k₁, hk₁, hparse, -⟩ := currentCache_eq_some hcache
    obtain rfl : k₁ = k₀ := Option.some.inj (hk₁.symm.trans hk₀)
    obtain ⟨hends, hnow⟩ := timed_expires (w := w.closed) hkey
    have hordered := pl.ordered
    exact ⟨pl, horigin ▸ hparse, hnow hlasts, by omega, fun hlong => by omega⟩
  | revoked pl hcache hover =>
    -- a key that lingers is one whose period is not over
    have hlingers : env.lingers = false := by
      by_contra hlingers
      have := hs.revoked rfl (by simpa using hlingers) pl hcache
      omega
    intro key hkey
    rw [revoked_cache, hlingers] at hkey
    cases hkey

theorem Next.lasts (h : Next env w p p' w') (hs : Timely w p env) (hw : Lasts w) : Lasts w' := by
  cases h with
  | published hmay => exact .published hmay
  | window hwindow =>
    cases hwindow with
    | kept => exact hw
    | opened hseq hnew hchosen => exact hw.opened hnew hchosen
    | unrecorded hnew hchosen hfail => exact hw.unrecorded hchosen (hs.recorded _ rfl hfail)
  | stopEnd hstopped => exact hw.stopped hstopped hs
  | locked hopen => exact hw.revoked env.lingers (by simp) (by simp) (by simp)
  | turnedOff hopen hoff =>
    cases hoff with
    | bumped => exact hw.kept (fun _ hkey => hkey) rfl rfl
    | revoked => exact hw.revoked env.lingers (by simp) (by simp) (by simp)
    | kept => exact hw.kept (fun _ hkey => hkey) rfl rfl
    | off => exact hw.revoked env.lingers (by simp) (by simp) (by simp)
  | adopted hp hcurrent => exact hw.adopted _
  | adoptFailed hp hcurrent hfailed =>
    cases hfailed with
    | refused => exact hw
    | revoked => exact hw.revoked env.lingers (by simp) (by simp) (by simp)
    | tornIds htorn => exact hw.revoked env.lingers (by simp) (by simp) (by simp)
    | tornMode htorn => exact hw.revoked env.lingers (by simp) (by simp) (by simp)
    | adopted => exact hw.adopted _
  | _ => exact hw.kept (fun _ hkey => hkey) rfl rfl

private theorem outside_lasts (e : Outside) (hw : Lasts w) : Lasts (outside e w) := by
  cases e with
  | clock t =>
    intro key hkey
    obtain ⟨hkey, hlt⟩ := Option.filter_eq_some_iff.mp hkey
    obtain ⟨pl, hparse, hlives⟩ := hw key hkey
    have hlt : t < key.expires := by simpa using hlt
    exact ⟨pl, hparse, hlt, hlives.hard, hlives.period⟩
  | lost =>
    intro key hkey
    cases hkey

/-- **The lifetime of the cache.**  In a run whose steps are timely, a key in the cache ends with
    the period of its payload unless a 1Password window is recorded; it lives on, up to the hard
    expiry, only while a 1Password window for its fetch is. -/
theorem cache_lifetime (b : Boot) (as : List (Pool.Action Cmd Env Outside))
    (has : lifecycle.Legal Timely ⟨b.world, []⟩ as) (key : CacheKey)
    (hkey : (b.after as).shared.cache = some key) :
    ∃ pl, parsePayload key.origin.data = some pl ∧ key.expires ≤ pl.hardExpiry ∧
      ((windowOf (b.after as).shared.window).isOnePassword = false →
        key.expires ≤ pl.periodEnds) ∧
      (pl.periodEnds < key.expires → ∃ e,
        windowOf (b.after as).shared.window = .parsed (.onePassword pl.fetchId e)) := by
  have hlasts : Lasts (b.after as).shared := by
    apply Pool.run_shared _ _ _ has
    · intro w p env hs hw
      exact (advance_next env p w).1.lasts hs hw
    · exact fun w e hw => outside_lasts e hw
    · intro key hkey
      cases hkey
  obtain ⟨pl, hparse, hlives⟩ := hlasts key hkey
  refine ⟨pl, hparse, hlives.hard, fun hwindow => ?_, hlives.period⟩
  exact hlasts.short hwindow key pl hkey hparse

end Runs

/-! ### Windows that leave a long life behind -/

attribute [local instance] sampleJson

/-- A window starts for a fetch that is published. -/
def sampleWindow : List (Pool.Action Cmd Env Outside) :=
  samplePublished ++ [.start (.window (some 0)), .advance 1 sampleEnv]

/-- And ends. -/
def sampleEnded : List (Pool.Action Cmd Env Outside) :=
  sampleWindow ++ [.start .stopEnd, .advance 2 sampleEnv]

/-- A step in which nothing fails is timely. -/
private theorem timely_sample (w : World) (p : Proc) : Timely w p sampleEnv where
  recorded _ _ hfail := absurd rfl hfail.2
  shortened _ hfail := by rcases hfail with hfail | hfail <;> exact absurd rfl hfail
  revoked _ hlingers := by cases hlingers

theorem legal_timely {as : List (Pool.Action Cmd Env Outside)}
    (has : ∀ a ∈ as, ∀ k env, a = .advance k env → env = sampleEnv) :
    lifecycle.Legal Timely ⟨sampleBoot.world, []⟩ as :=
  .of_inputs fun k env hmem w p => has _ hmem k env rfl ▸ timely_sample w p

/-- The window lengthens the life of the key up to the hard expiry, and its end shortens it to the
    period again. -/
theorem cache_lifetime_window :
    ((sampleBoot.after sampleWindow).shared.cache = some ⟨sampleFetched, 86400⟩ ∧
      ∃ pl, parsePayload sampleFetched.data = some pl ∧ 86400 ≤ pl.hardExpiry ∧
        ((windowOf (sampleBoot.after sampleWindow).shared.window).isOnePassword = false →
          86400 ≤ pl.periodEnds) ∧
        (pl.periodEnds < 86400 → ∃ e, windowOf (sampleBoot.after sampleWindow).shared.window =
          .parsed (.onePassword pl.fetchId e))) ∧
    (sampleBoot.after sampleEnded).shared.cache = some ⟨sampleFetched, 43200⟩ ∧
      (sampleBoot.after sampleEnded).shared.window = none ∧
      ∃ pl, parsePayload sampleFetched.data = some pl ∧ 43200 ≤ pl.hardExpiry ∧
        ((windowOf (sampleBoot.after sampleEnded).shared.window).isOnePassword = false →
          43200 ≤ pl.periodEnds) ∧
        (pl.periodEnds < 43200 → ∃ e, windowOf (sampleBoot.after sampleEnded).shared.window =
          .parsed (.onePassword pl.fetchId e)) := by
  have hwindow : (sampleBoot.after sampleWindow).shared.cache = some ⟨sampleFetched, 86400⟩ := by
    decide +kernel
  have hended : (fun w : World => (w.window, w.cache)) (sampleBoot.after sampleEnded).shared =
      (none, some ⟨sampleFetched, 43200⟩) := by
    decide +kernel
  obtain ⟨hclosed, hkey⟩ := Prod.mk.inj hended
  have hinputs : ∀ a ∈ sampleEnded, ∀ k env, a = .advance k env → env = sampleEnv := by
    intro a ha k env hadvance
    subst hadvance
    have hor : k = 0 ∧ env = sampleEnv ∨ k = 1 ∧ env = sampleEnv ∨ k = 2 ∧ env = sampleEnv := by
      simpa [sampleEnded, sampleWindow, samplePublished, List.mem_replicate] using ha
    rcases hor with ⟨-, henv⟩ | ⟨-, henv⟩ | ⟨-, henv⟩ <;> exact henv
  have hbegun : lifecycle.Legal Timely ⟨sampleBoot.world, []⟩ sampleWindow :=
    legal_timely fun a ha => hinputs a (List.mem_append_left _ ha)
  have hlong := cache_lifetime sampleBoot sampleWindow hbegun _ hwindow
  have hshort := cache_lifetime sampleBoot sampleEnded (legal_timely hinputs) _ hkey
  exact ⟨⟨hwindow, hlong⟩, hkey, hclosed, hshort⟩

/-- A window starts for it, and the write of the window's file fails. -/
def sampleUnrecorded : List (Pool.Action Cmd Env Outside) :=
  samplePublished ++ [.start (.window (some 0)),
    .advance 1 { sampleEnv with faults := fun k => if k = 6 then some "No space left" else none }]

/-- No window is recorded, and the key lives on past the period of its payload. -/
theorem unrecorded_window_lasts :
    (fun w : World => (w.window, w.cache.map CacheKey.expires,
        w.cache.bind fun key => (parsePayload key.origin.data).map Payload.periodEnds))
      (sampleBoot.after sampleUnrecorded).shared = (none, some 86400, some 43200) := by
  decide +kernel

/-- The window is recorded and ends, and the timeout of the key cannot be set. -/
def sampleUnshortened : List (Pool.Action Cmd Env Outside) :=
  samplePublished ++ [.start (.window (some 0)), .advance 1 sampleEnv, .start .stopEnd,
    .advance 2 { sampleEnv with faults := fun k => if k = 2 then some "Denied" else none }]

/-- The window is over, and the key lives on past the period of its payload. -/
theorem unshortened_window_lasts :
    (fun w : World => (w.window, w.cache.map CacheKey.expires,
        w.cache.bind fun key => (parsePayload key.origin.data).map Payload.periodEnds))
      (sampleBoot.after sampleUnshortened).shared = (none, some 86400, some 43200) := by
  decide +kernel

end Omdrop.Identity
