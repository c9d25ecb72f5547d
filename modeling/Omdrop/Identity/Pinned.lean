import Omdrop.Identity.Steps

namespace Omdrop.Identity

open Omdrop.Text

/-!
# A 1Password window pins the cache

While a 1Password window is recorded, the cache holds the payload of the fetch that the window
names, or nothing (`window_pins_cache`).  `windowOf_onePassword` reads the window's file back.
-/

/-- What the file of a 1Password window sets. -/
def onePasswordFields (p : Payload) (serial : Text) : List (Text × Text) :=
  [("source", "1password"), ("fetch_id", p.fetchId), ("hard_expiry", decimalInt p.hardExpiry),
    ("cache_serial", serial)]

theorem onePasswordLines_eq (p : Payload) (serial : Text) :
    onePasswordLines p serial =
      (onePasswordFields p serial).map fun kv => settingLine kv.1 kv.2 := rfl

/-- No character of a fetch id ends a line. -/
private theorem unbroken_fetchId {t : Text} (h : isFetchId t = true) : Unbroken isLineEnd t := by
  intro c hc
  simp only [isFetchId, Bool.and_eq_true, List.all_eq_true, Bool.or_eq_true,
    decide_eq_true_eq] at h
  rcases h.2 c hc with hdigit | hletter
  · exact isLineEnd_of_isDigit hdigit
  · by_contra hend
    simp only [isLineEnd, Bool.not_eq_false, Bool.or_eq_true, beq_iff_eq] at hend
    rcases hend with ((((((((rfl | rfl) | rfl) | rfl) | rfl) | rfl) | rfl) | rfl) | rfl) | rfl <;>
      exact absurd hletter (by decide)

private theorem clean_onePasswordFields (p : Payload) {serial : Text}
    (hserial : Unbroken isLineEnd serial) :
    ∀ kv ∈ onePasswordFields p serial, Clean kv.1 kv.2 := by
  have hkey : ∀ key ∈ (["source", "fetch_id", "hard_expiry", "cache_serial"] : List Text),
      '=' ∉ key ∧ Unbroken isLineEnd key := by
    unfold Unbroken
    decide
  intro kv hkv
  simp only [onePasswordFields, List.mem_cons, List.not_mem_nil, or_false] at hkv
  rcases hkv with rfl | rfl | rfl | rfl
  · refine ⟨(hkey _ (by simp)).1, (hkey _ (by simp)).2, ?_⟩
    unfold Unbroken
    decide
  · exact ⟨(hkey _ (by simp)).1, (hkey _ (by simp)).2, unbroken_fetchId p.isFetchId⟩
  · exact ⟨(hkey _ (by simp)).1, (hkey _ (by simp)).2, unbroken_decimalInt _⟩
  · exact ⟨(hkey _ (by simp)).1, (hkey _ (by simp)).2, hserial⟩

/-- **Windows read back.**  The file of a 1Password window names its fetch. -/
theorem windowOf_onePassword (p : Payload) {serial : Text} (hserial : Unbroken isLineEnd serial) :
    ∃ e, windowOf (some (windowText (onePasswordLines p serial))) =
      .parsed (.onePassword p.fetchId e) := by
  have hclean := clean_onePasswordFields p hserial
  have hread : ∀ key, (parseSettings (windowText (onePasswordLines p serial))).lookup key =
      (onePasswordFields p serial).reverse.lookup key := by
    intro key
    have hlines : ∀ l ∈ onePasswordLines p serial, Unbroken isLineEnd l := by
      rw [onePasswordLines_eq]
      intro l hl
      obtain ⟨kv, hkv, rfl⟩ := List.mem_map.mp hl
      exact (hclean kv hkv).unbroken
    rw [lookup_parseSettings, windowText, lastValue_joinLines hlines, onePasswordLines_eq,
      lastValue_changes hclean]
  have hexpiry : allDigits (decimalInt p.hardExpiry) = true := by
    unfold decimalInt
    rw [if_neg (by have := p.ordered; omega)]
    exact allDigits_decimal _
  have hsource : (onePasswordFields p serial).reverse.lookup "source".toList =
      some "1password".toList := rfl
  have hid : (onePasswordFields p serial).reverse.lookup "fetch_id".toList = some p.fetchId := rfl
  have hhard : (onePasswordFields p serial).reverse.lookup "hard_expiry".toList =
      some (decimalInt p.hardExpiry) := rfl
  refine ⟨parseExpiry (decimalInt p.hardExpiry), ?_⟩
  have hparse : parseWindow (windowText (onePasswordLines p serial)) =
      some (.onePassword p.fetchId (parseExpiry (decimalInt p.hardExpiry))) := by
    unfold parseWindow
    simp only [hread, hsource, hid, hhard, Option.getD_some]
    rw [if_neg (by decide), if_neg (by decide), if_pos trivial, p.isFetchId, hexpiry]
    rfl
  simp only [windowOf, hparse]

private theorem isOnePassword_disk :
    (windowOf (some (windowText ["source=disk"]))).isOnePassword = false := by
  decide +kernel

private theorem isOnePassword_selfSigned :
    (windowOf (some (windowText ["source=self-signed"]))).isOnePassword = false := by
  decide +kernel

variable [SerdeJson]

/-- What the cache holds parses, and a 1Password window names it. -/
def Pins (w : World) : Prop :=
  ∀ k, w.cache = some k → ∃ p, parsePayload k.origin.data = some p ∧
    ∀ f e, windowOf w.window = .parsed (.onePassword f e) → p.fetchId = f

variable {env : Env} {w w' : World}

/-- A key that is kept stays pinned by the window there was, or by none. -/
theorem Pins.kept (h : Pins w) (hcache : CacheKept w w')
    (hwindow : w'.window = w.window ∨ (windowOf w'.window).isOnePassword = false) : Pins w' := by
  intro k hk
  obtain ⟨k₀, hk₀, horigin⟩ := hcache k hk
  obtain ⟨p, hp, hnamed⟩ := h k₀ hk₀
  refine ⟨p, horigin ▸ hp, fun f e hf => ?_⟩
  rcases hwindow with hsame | hother
  · exact hnamed f e (hsame ▸ hf)
  · rw [hf] at hother
    cases hother

/-- A window that is opened names what the cache holds. -/
theorem Pins.opened {lines : List Text} {w₁ : World} (h : Pins w) (hchosen : Chosen w lines w₁) :
    Pins (w₁.opened lines) := by
  cases hchosen with
  | disk => exact h.kept (fun k hk => ⟨k, hk, rfl⟩) (.inr isOnePassword_disk)
  | selfSigned => exact h.kept (fun k hk => ⟨k, hk, rfl⟩) (.inr isOnePassword_selfSigned)
  | onePassword p hserial hmode hcache husable =>
    intro k hk
    obtain ⟨k₀, hk₀, horigin, -⟩ := timed_cache_eq_some hk
    obtain ⟨k₁, hk₁, hparse, -⟩ := currentCache_eq_some hcache
    obtain rfl : k₁ = k₀ := Option.some.inj (hk₁.symm.trans hk₀)
    obtain ⟨e, hwindow⟩ := windowOf_onePassword p hserial
    refine ⟨p, horigin ▸ hparse, fun f e' hf => ?_⟩
    rw [opened_window, hwindow] at hf
    cases hf
    rfl

theorem Next.pins {p p' : Proc} (h : Next env w p p' w') (hw : Pins w) : Pins w' := by
  rcases h.window_cases with hsame | hnone | ⟨lines, w₁, hchosen, rfl⟩
  · rcases h.cache_cases with hkept | ⟨f, payload, pl, rfl, hmay, rfl⟩
    · exact hw.kept hkept (.inl hsame)
    · intro k hk
      cases hk
      refine ⟨pl, hmay.parses, fun f e hf => ?_⟩
      have hno := hmay.noWindow
      rw [← hsame, hf] at hno
      cases hno
  · rcases h.cache_cases with hkept | ⟨f, payload, pl, rfl, hmay, rfl⟩
    · exact hw.kept hkept (.inr (by rw [hnone]; rfl))
    · intro k hk
      cases hk
      refine ⟨pl, hmay.parses, fun f e hf => ?_⟩
      rw [hnone] at hf
      cases hf
  · exact hw.opened hchosen

private theorem outside_pins (e : Outside) (hw : Pins w) : Pins (outside e w) := by
  cases e with
  | clock t =>
    refine hw.kept (fun k hk => ?_) (.inl rfl)
    exact ⟨k, (Option.filter_eq_some_iff.mp hk).1, rfl⟩
  | lost =>
    intro k hk
    cases hk

/-- **An open 1Password window pins the cache.**  Whatever the commands do, in any order, while
    the window that is recorded is a 1Password window that names a fetch, what the keyring holds
    is the payload of that fetch. -/
theorem window_pins_cache (b : Boot) (as : List (Pool.Action Cmd Env Outside)) :
    Pins (b.after as).shared := by
  apply Pool.run_shared (A := fun _ _ _ => True) _ _ _ (.of_forall fun _ _ _ => trivial)
  · intro w p env _ hw
    exact (advance_next env p w).1.pins hw
  · exact fun w e hw => outside_pins e hw
  · intro k hk
    cases hk

end Omdrop.Identity
