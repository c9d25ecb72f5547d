import Omdrop.Machine.Fallible
import Omdrop.Text.Basic

namespace Omdrop.Identity.Keyring

open Omdrop.Text

/-!
# The cache in the kernel's keyrings

`publish`, `setTimeout` and `revoke` are sequences of operations on keys, any of which may fail.
A `World` keeps, besides the keyrings, every state that they have been in.

* `publish_guarded_iff`: when publishing never shows a key without a timeout, and when a
  publishing that fails leaves the old key alone;
* `revoke_clears_iff`: when a revocation that reports success has left nothing to be found.
-/

/-- The serial number of a key. -/
abbrev Serial := Int

/-- A key of the cache's type and description. -/
structure Key where
  payload : List UInt8
  perm : Nat
  /-- In seconds, zero for a key that stays. -/
  timeout : Nat
  revoked : Bool
  expired : Bool
  deriving DecidableEq

/-- Does a search come to this key? -/
def Key.usable (k : Key) : Bool := !k.revoked && !k.expired

/-- The keys by their serials, and which of them hang in the keyrings.  A keyring holds one key of
    a type and description; more hang in the keyrings that are linked into the user's. -/
structure Rings where
  key : Serial → Option Key
  process : Option Serial
  user : Option Serial
  nested : List Serial

/-! ### The operations -/

def enoent : Int := 2
def enokey : Int := 126
def ekeyexpired : Int := 127
def ekeyrevoked : Int := 128

/-- A key that is not there, or no longer usable: absent, not an error. -/
def isMissing (err : Int) : Bool :=
  err == enokey || err == ekeyexpired || err == ekeyrevoked || err == enoent

/-- Possessor: all; user: view. -/
def keyPerm : Nat := 0x3f010000

/-- What operations are told of the rings they are on. -/
inductive Ring
  | process
  | user

namespace Rings

variable (r : Rings)

/-- The keys that hang in the user keyring, in the order of a search. -/
def reach : List Serial := r.user.toList ++ r.nested

/-- The key that a search of the user keyring comes to. -/
def found : Option Serial := r.reach.find? fun id => (r.key id).any Key.usable

/-- Change a key. -/
def change (id : Serial) (f : Key → Key) : Rings :=
  { r with key := fun i => if i = id then (r.key i).map f else r.key i }

/-- Why nothing is found: what the last key was passed over for, if there was one. -/
def passedOver : Int := (r.reach.filterMap r.key).foldl
  (fun _ k => if k.revoked then ekeyrevoked else ekeyexpired) enokey

/-- Search the user keyring. -/
def searchUser : Except Int (Serial × Rings) :=
  match r.found with
  | some id => .ok (id, r)
  | none    => .error r.passedOver

/-- The key that is updated when one is added to the process keyring. -/
def updated : Option Serial := r.process.filter fun id => (r.key id).any (!·.revoked)

/-- Add a key to the process keyring: what hangs there is updated in place, and stays. -/
def addToProcess (serial : Serial) (perm : Nat) (payload : List UInt8) :
    Except Int (Serial × Rings) :=
  match r.updated with
  | some id => .ok (id, r.change id ({ · with payload, timeout := 0, expired := false }))
  | none    => .ok (serial, { r with
      key := fun i => if i = serial then some ⟨payload, perm, 0, false, false⟩ else r.key i
      process := some serial })

/-- Give a key a timeout; zero takes it away. -/
def setTimeout (id : Serial) (secs : Nat) : Except Int (Unit × Rings) :=
  .ok ((), r.change id ({ · with timeout := secs, expired := false }))

/-- Set a key's permissions. -/
def setperm (id : Serial) (perm : Nat) : Except Int (Unit × Rings) :=
  .ok ((), r.change id ({ · with perm }))

/-- Link a key into a keyring, in place of the one that hangs there. -/
def link (id : Serial) : Ring → Except Int (Unit × Rings)
  | .process => .ok ((), { r with process := some id })
  | .user    => .ok ((), { r with user := some id })

/-- Take a key from a keyring that it hangs in. -/
def unlink (id : Serial) : Ring → Except Int (Unit × Rings)
  | .process => if r.process = some id then .ok ((), { r with process := none }) else .error enoent
  | .user    => if r.user = some id then .ok ((), { r with user := none }) else .error enoent

/-- Revoke a key. -/
def revokeKey (id : Serial) : Except Int (Unit × Rings) :=
  .ok ((), r.change id ({ · with revoked := true }))

end Rings

/-- What the kernel does of its own: which operation fails and how, and what a new key is given. -/
structure Env where
  faults : Nat → Option Int
  serial : Serial
  perm : Nat
  strerror : Int → Text

/-- The keyrings, how many operations there were, and for the record the states that the keyrings
    were in and the timeouts that were asked for. -/
structure World where
  rings : Rings
  calls : Nat
  trace : List Rings
  timeouts : List Nat

/-- The keyrings before anything is done. -/
def World.start (r : Rings) : World := ⟨r, 0, [r], []⟩

/-- A failed keyring operation. -/
abbrev KeyringError := Text

/-- What the operations run in. -/
abbrev K := Fallible KeyringError World

section
variable {α : Type} (env : Env)

/-- One operation; one that fails changes nothing. -/
def call (f : Rings → Except Int (α × Rings)) : K (Except Int α) := fun w =>
  let w' := { w with calls := w.calls + 1 }
  match env.faults w.calls with
  | some e => (.ok (.error e), w')
  | none   =>
    match f w.rings with
    | .error e   => (.ok (.error e), w')
    | .ok (a, r) => (.ok (.ok a), { w' with rings := r, trace := r :: w.trace })

/-- Give a key a timeout, for the record as well. -/
def callTimeout (id : Serial) (secs : Nat) : K (Except Int Unit) := do
  Fallible.modify fun w => { w with timeouts := secs :: w.timeouts }
  call env (·.setTimeout id secs)

/-- The result of an operation, or the error that says what failed. -/
def orFail (what : String) : Except Int α → K α
  | .ok a    => pure a
  | .error e => Fallible.fail (what.toList ++ ": ".toList ++ env.strerror e)

/-! ### The keyring of the cache -/

/-- A timeout as the kernel takes it. -/
def clampSecs (timeout : Int) : Nat := min (max timeout 0).toNat (2 ^ 32 - 1)

/-- The cache key's serial in the user keyring, or `none`. -/
def find : K (Option Serial) := do
  match ← call env Rings.searchUser with
  | .ok id   => return some id
  | .error e =>
    if isMissing e then return none
    else orFail env "searching for the identity cache" (.error e)

/-- What is done to a new key before others see it, and the link that lets them. -/
def staged (id : Serial) (timeout : Int) : K Unit := do
  orFail env "setting the cache timeout" (← callTimeout env id (clampSecs timeout))
  orFail env "setting the cache permissions" (← call env (·.setperm id keyPerm))
  orFail env "linking the identity cache" (← call env (·.link id .user))

/-- Publish.  Returns the new serial. -/
def publish (payload : List UInt8) (timeout : Int) : K Serial := do
  if timeout < 1 then
    Fallible.fail "refusing to publish a cache that has already expired".toList
  else
    let old ← Fallible.attempt (find env)
    let id ← orFail env "adding the identity cache"
      (← call env (·.addToProcess env.serial env.perm payload))
    match ← Fallible.attempt (staged env id timeout) with
    | .error e =>
      let _ ← call env (·.revokeKey id)
      Fallible.fail e
    | .ok () =>
      let _ ← call env (·.unlink id .process)
      match old with
      | .ok (some old) =>
        if old ≠ id then
          let _ ← call env (·.revokeKey old)
          return id
        else return id
      | _ => return id

/-- Revoke and unlink the cache.  `false` when there was none. -/
def revoke : K Bool := do
  match ← find env with
  | none    => return false
  | some id =>
    let _ ← call env (·.revokeKey id)
    let _ ← call env (·.unlink id .user)
    return true

/-- Change the cache's timeout; revoke it when there is none left.  `false` when there was no
    cache, or it was revoked. -/
def setTimeout (timeout : Int) : K Bool := do
  match ← find env with
  | none    => return false
  | some id =>
    if timeout < 1 then
      let _ ← revoke env
      return false
    else
      orFail env "setting the cache timeout" (← callTimeout env id (clampSecs timeout))
      return true

end

/-! ### What can be found -/

namespace Rings

/-- The key hangs in the user keyring, and a search may come to it. -/
def Findable (r : Rings) (id : Serial) (k : Key) : Prop :=
  id ∈ r.reach ∧ r.key id = some k ∧ k.usable = true

/-- Whatever can be found is restricted, and has a timeout. -/
def Guarded (r : Rings) : Prop := ∀ id k, r.Findable id k → k.perm = keyPerm ∧ k.timeout ≠ 0

/-- The key that adding updates in place hangs in the user keyring too. -/
def Shared (r : Rings) : Prop := ∃ id ∈ r.reach, r.updated = some id

/-- No key has this serial. -/
def Unused (r : Rings) (id : Serial) : Prop := r.key id = none ∧ id ∉ r.reach

variable {r : Rings} {id i : Serial} {f : Key → Key} {k : Key}

@[simp] theorem reach_change : (r.change id f).reach = r.reach := rfl

/-- A change of one key is none of another. -/
theorem change_ne (h : i ≠ id) : (r.change id f).key i = r.key i := if_neg h

/-- A change of a key is made to that key. -/
theorem change_self : (r.change id f).key id = (r.key id).map f := if_pos rfl

/-- A key that is found is within reach. -/
private theorem found_mem (h : r.found = some id) : id ∈ r.reach := List.mem_of_find?_eq_some h

/-- What a search comes to is found. -/
theorem findable_of_found (h : r.found = some id) : ∃ k, r.Findable id k := by
  have husable := List.find?_some h
  cases hk : r.key id with
  | none =>
    rw [hk] at husable
    cases husable
  | some k =>
    rw [hk] at husable
    exact ⟨k, found_mem h, hk, husable⟩

/-- A revoked key is not found, and the others are as they were. -/
theorem findable_revokeKey :
    (r.change id ({ · with revoked := true })).Findable i k ↔ r.Findable i k ∧ i ≠ id := by
  unfold Findable
  rw [reach_change]
  by_cases hi : i = id
  · subst hi
    rw [change_self]
    constructor
    · rintro ⟨-, hk, hu⟩
      obtain ⟨k₀, -, rfl⟩ := Option.map_eq_some_iff.mp hk
      simp [Key.usable] at hu
    · rintro ⟨-, hne⟩
      exact absurd rfl hne
  · rw [change_ne hi]
    simp [hi]

/-- A revoked key is guarded like any other. -/
theorem Guarded.revokeKey (h : r.Guarded) : (r.change id ({ · with revoked := true })).Guarded :=
  fun i k hk => h i k (findable_revokeKey.mp hk).1

/-- A key that is not reached is not found, whatever it is. -/
theorem findable_of_not_mem {r' : Rings} (hreach : r'.reach = r.reach)
    (hkey : ∀ i ∈ r.reach, r'.key i = r.key i) : r'.Findable i k ↔ r.Findable i k := by
  unfold Findable
  rw [hreach]
  constructor
  · rintro ⟨hi, hk⟩
    exact ⟨hi, hkey i hi ▸ hk⟩
  · rintro ⟨hi, hk⟩
    exact ⟨hi, (hkey i hi).symm ▸ hk⟩

end Rings

/-! ### What an operation does -/

section
variable {α : Type} {env : Env} {f : Rings → Except Int (α × Rings)} {w : World}

/-- A call that the kernel fails changes nothing. -/
theorem call_failed {e : Int} (h : env.faults w.calls = some e) :
    call env f w = (.ok (.error e), { w with calls := w.calls + 1 }) := by
  unfold call
  rw [h]

/-- One that the keyrings refuse changes nothing either. -/
theorem call_refused {e : Int} (h : env.faults w.calls = none) (hf : f w.rings = .error e) :
    call env f w = (.ok (.error e), { w with calls := w.calls + 1 }) := by
  unfold call
  rw [h]
  dsimp only
  rw [hf]

/-- One that goes through changes the keyrings, and that is seen. -/
theorem call_done {a : α} {r : Rings} (h : env.faults w.calls = none)
    (hf : f w.rings = .ok (a, r)) : call env f w =
      (.ok (.ok a), { w with calls := w.calls + 1, rings := r, trace := r :: w.trace }) := by
  unfold call
  rw [h]
  dsimp only
  rw [hf]

/-- A call is failed, is refused or goes through. -/
theorem call_after {Q : Except Int α → World → Prop} {E : KeyringError → World → Prop}
    (hfailed : ∀ e, Q (.error e) { w with calls := w.calls + 1 })
    (hdone : ∀ a r, env.faults w.calls = none → f w.rings = .ok (a, r) →
      Q (.ok a) { w with calls := w.calls + 1, rings := r, trace := r :: w.trace }) :
    Fallible.After Q E (call env f w) := by
  cases h : env.faults w.calls with
  | some e =>
    rw [call_failed h]
    exact hfailed e
  | none =>
    cases hf : f w.rings with
    | error e =>
      rw [call_refused h hf]
      exact hfailed e
    | ok res =>
      rw [call_done h hf]
      exact hdone _ _ h hf

/-- What went well goes on, and what failed is a failure. -/
theorem orFail_after {Q : α → World → Prop} {E : KeyringError → World → Prop} {what : String}
    {res : Except Int α} (hok : ∀ a, res = .ok a → Q a w)
    (herror : ∀ e, res = .error e → ∀ t, E t w) :
    Fallible.After Q E (orFail env what res w) := by
  cases res with
  | ok a => exact hok a rfl
  | error e => exact herror e rfl _

end

/-! ### The search -/

section
variable {env : Env} {w : World} {id : Serial}

/-- The search gives the key that is there. -/
private theorem find_found (h : env.faults w.calls = none) (hfound : w.rings.found = some id) :
    find env w = (.ok (some id), { w with calls := w.calls + 1, trace := w.rings :: w.trace }) := by
  have hsearch : w.rings.searchUser = .ok (id, w.rings) := by
    unfold Rings.searchUser
    rw [hfound]
  exact Fallible.bind_of_ok (call_done h hsearch)

/-- Whatever was passed over is no error. -/
private theorem isMissing_passedOver (r : Rings) : isMissing r.passedOver = true := by
  have hpassed : ∀ (keys : List Key) (e : Int), isMissing e = true →
      isMissing (keys.foldl (fun _ k => if k.revoked then ekeyrevoked else ekeyexpired) e) := by
    intro keys
    induction keys with
    | nil => exact fun _ he => he
    | cons k keys ih =>
      intro e _
      apply ih
      dsimp only
      split_ifs <;> rfl
  exact hpassed _ _ rfl

/-- The search gives none where the kernel says that there is none. -/
theorem find_missing {e : Int} (h : isMissing e = true)
    (hsearch : call env Rings.searchUser w = (.ok (.error e), { w with calls := w.calls + 1 })) :
    find env w = (.ok none, { w with calls := w.calls + 1 }) := by
  have hfind : find env w = _ := Fallible.bind_of_ok hsearch
  rw [hfind]
  dsimp only
  rw [if_pos h]
  rfl

/-- The search gives none where nothing is found. -/
private theorem find_nothing (h : env.faults w.calls = none) (hfound : w.rings.found = none) :
    find env w = (.ok none, { w with calls := w.calls + 1 }) := by
  have hsearch : w.rings.searchUser = .error w.rings.passedOver := by
    unfold Rings.searchUser
    rw [hfound]
  exact find_missing (isMissing_passedOver _) (call_refused h hsearch)

/-- A search that fails is a search that found nothing, or an error. -/
theorem find_failed {e : Int} (h : env.faults w.calls = some e) :
    (isMissing e = true → find env w = (.ok none, { w with calls := w.calls + 1 })) ∧
      (isMissing e = false → ∃ t, find env w = (.error t, { w with calls := w.calls + 1 })) := by
  refine ⟨fun hmissing => find_missing hmissing (call_failed h), fun hmissing => ?_⟩
  have hfind : find env w = _ := Fallible.bind_of_ok (call_failed h)
  rw [hfind]
  dsimp only
  rw [if_neg (by rw [hmissing]; decide)]
  exact ⟨_, rfl⟩

end

/-! ### Revocation -/

section
variable {env : Env} {r : Rings} {id : Serial}

/-- Once it is unlinked, what is found in the user keyring is within a keyring in it. -/
theorem findable_unlinked {i : Serial} {k : Key} :
    Rings.Findable { r with user := none } i k ↔ r.Findable i k ∧ i ∈ r.nested := by
  unfold Rings.Findable Rings.reach
  constructor
  · rintro ⟨hi, hk⟩
    have hi : i ∈ r.nested := by simpa using hi
    exact ⟨⟨List.mem_append_right _ hi, hk⟩, hi⟩
  · rintro ⟨⟨-, hk⟩, hi⟩
    exact ⟨by simpa using hi, hk⟩

/-- A revocation takes no more than the one key away. -/
private theorem call_revokeKey (w : World) : ∃ res w', call env (·.revokeKey id) w = (.ok res, w') ∧
    w'.calls = w.calls + 1 ∧ w'.rings.user = w.rings.user ∧ w'.rings.nested = w.rings.nested ∧
      ∀ i k, w'.rings.Findable i k ↔
        w.rings.Findable i k ∧ (env.faults w.calls = none → i ≠ id) := by
  cases h : env.faults w.calls with
  | some e => exact ⟨_, _, call_failed h, rfl, rfl, rfl, fun i k => by simp⟩
  | none =>
    refine ⟨_, _, call_done h rfl, rfl, rfl, rfl, fun i k => ?_⟩
    simpa using Rings.findable_revokeKey

/-- An unlinking takes the key away when it goes through. -/
private theorem call_unlink (w : World) : ∃ res w', call env (·.unlink id .user) w = (.ok res, w') ∧
    ∀ i k, w'.rings.Findable i k ↔ w.rings.Findable i k ∧
      (env.faults w.calls = none → w.rings.user = some id → i ∈ w.rings.nested) := by
  cases h : env.faults w.calls with
  | some e => exact ⟨_, _, call_failed h, fun i k => by simp⟩
  | none =>
    by_cases hu : w.rings.user = some id
    · refine ⟨_, _, call_done h (if_pos hu), fun i k => ?_⟩
      rw [findable_unlinked]
      simp [hu]
    · exact ⟨_, _, call_refused h (if_neg hu), fun i k => by simp [hu]⟩

/-- What a revocation leaves of what its search came to. -/
private theorem revoke_found (h0 : env.faults 0 = none) (hfound : r.found = some id) :
    ∃ w, revoke env (.start r) = (.ok true, w) ∧ ∀ i k, w.rings.Findable i k ↔
      r.Findable i k ∧ (env.faults 1 = none → i ≠ id) ∧
        (env.faults 2 = none → r.user = some id → i ∈ r.nested) := by
  have hfind : find env (.start r) = (.ok (some id), ⟨r, 1, [r, r], []⟩) := find_found h0 hfound
  obtain ⟨res₁, w₁, hrevoke, hcalls, huser, hnested, hleft₁⟩ := call_revokeKey ⟨r, 1, [r, r], []⟩
  obtain ⟨res₂, w₂, hunlink, hleft₂⟩ := call_unlink w₁
  refine ⟨w₂, ?_, fun i k => ?_⟩
  · unfold revoke
    rw [Fallible.bind_of_ok hfind]
    show ((call env (·.revokeKey id)) >>= _) _ = _
    rw [Fallible.bind_of_ok hrevoke, Fallible.bind_of_ok hunlink]
    rfl
  · rw [hleft₂, hleft₁, hcalls, huser, hnested, and_assoc]

/-- The search fails and says so; or the one key that it can come to is the one that it comes to,
    and is either revoked or taken from the only place where it hangs. -/
def Clears (env : Env) (r : Rings) : Prop :=
  (∃ e, env.faults 0 = some e ∧ isMissing e = false) ∨
    ∀ id k, r.Findable id k → env.faults 0 = none ∧ r.found = some id ∧
      (env.faults 1 = none ∨ env.faults 2 = none ∧ id ∉ r.nested)

/-- **When a revocation that reports success has left nothing.** -/
theorem revoke_clears_iff (env : Env) (r : Rings) :
    (∀ b, (revoke env (.start r)).1 = .ok b →
        ∀ id k, ¬ (revoke env (.start r)).2.rings.Findable id k) ↔ Clears env r := by
  -- what is found at last when the search comes to nothing
  have hidle : ∀ w : World, find env (.start r) = (.ok none, w) → w.rings = r →
      ((∀ b, (revoke env (.start r)).1 = .ok b →
          ∀ id k, ¬ (revoke env (.start r)).2.rings.Findable id k) ↔
        ∀ id k, ¬ r.Findable id k) := by
    intro w hfind hw
    have hrevoke : revoke env (.start r) = (.ok false, w) := Fallible.bind_of_ok hfind
    rw [hrevoke, ← hw]
    exact ⟨fun h => h false rfl, fun h _ _ => h⟩
  unfold Clears
  cases h0 : env.faults 0 with
  | some e =>
    cases hmissing : isMissing e with
    | true =>
      rw [hidle _ ((find_failed h0).1 hmissing) rfl]
      simp [hmissing]
    | false =>
      obtain ⟨t, hfind⟩ := (find_failed (w := .start r) h0).2 hmissing
      have hrevoke : revoke env (.start r) = (.error t, _) := Fallible.bind_of_error hfind
      rw [hrevoke]
      exact ⟨fun _ => .inl ⟨e, rfl, hmissing⟩, fun _ b hb => by cases hb⟩
  | none =>
    simp only [reduceCtorEq, false_and, exists_false, false_or, true_and]
    cases hfound : r.found with
    | none =>
      rw [hidle _ (find_nothing h0 hfound) rfl]
      simp
    | some first =>
      obtain ⟨w, hrevoke, hleft⟩ := revoke_found h0 hfound
      rw [hrevoke]
      have hreach : ∀ id k, r.Findable id k → id ∈ r.nested ∨ r.user = some id := by
        intro id k hid
        rcases List.mem_append.mp hid.1 with huser | hnested
        · exact .inr (Option.mem_toList.mp huser)
        · exact .inl hnested
      constructor
      · intro h id k hid
        have hgone := h true rfl id k
        rw [hleft] at hgone
        by_cases hne : id = first
        · subst hne
          refine ⟨rfl, ?_⟩
          by_contra hkept
          rw [not_or, not_and] at hkept
          refine hgone ⟨hid, fun h1 => absurd h1 hkept.1, fun h2 _ => ?_⟩
          exact not_not.mp (hkept.2 h2)
        · refine absurd ⟨hid, fun _ => hne, fun _ hu => ?_⟩ hgone
          rcases hreach id k hid with hnested | huser
          · exact hnested
          · cases huser.symm.trans hu
            exact absurd rfl hne
      · intro h b _ id k hid
        obtain ⟨hid, h1, h2⟩ := (hleft id k).mp hid
        obtain ⟨hfirst, hdone⟩ := h id k hid
        cases hfirst
        rcases hdone with hrevoked | ⟨hunlinked, hnested⟩
        · exact h1 hrevoked rfl
        · exact hnested (h2 hunlinked ((hreach _ k hid).resolve_left hnested))

end

/-- A cache in the user keyring. -/
def sampleRings : Rings where
  key id := if id = 3 then some ⟨[1], keyPerm, 60, false, false⟩ else none
  process := none
  user := some 3
  nested := []

/-- A process that may search its user keyring and do nothing to what it finds. -/
def powerless : Env where
  faults n := if n = 0 then none else some 13
  serial := 7
  perm := keyPerm
  strerror _ := "Permission denied"

/-- **Success, and the key is still there.** -/
theorem revoke_keeps : ¬ ∀ (env : Env) (r : Rings) (b : Bool),
    (revoke env (.start r)).1 = .ok b →
      ∀ id k, ¬ (revoke env (.start r)).2.rings.Findable id k := by
  intro h
  exact h powerless sampleRings true rfl 3 _ ⟨by decide, rfl, rfl⟩

/-! ### Publishing -/

/-- Nothing has been shown without a timeout, and none was taken away. -/
structure World.Kept (w : World) : Prop where
  now : w.rings.Guarded
  shown : ∀ r ∈ w.trace, r.Guarded
  timed : ∀ t ∈ w.timeouts, t ≠ 0

/-- The keyrings are those of `r`, but for the key `id`, which others cannot find. -/
structure World.Apart (r : Rings) (id : Serial) (w : World) : Prop where
  guarded : r.Guarded
  away : id ∉ r.reach
  user : w.rings.user = r.user
  nested : w.rings.nested = r.nested
  same : ∀ i, i ≠ id → w.rings.key i = r.key i
  shown : ∀ r ∈ w.trace, r.Guarded
  timed : ∀ t ∈ w.timeouts, t ≠ 0

namespace World.Apart

variable {r : Rings} {id : Serial} {w : World}

/-- A key that stands apart is no key to be found. -/
theorem findable (h : w.Apart r id) (i : Serial) (k : Key) :
    w.rings.Findable i k ↔ r.Findable i k := by
  have hreach : w.rings.reach = r.reach := by
    unfold Rings.reach
    rw [h.user, h.nested]
  exact Rings.findable_of_not_mem hreach fun i hi => h.same i fun hid => h.away (hid ▸ hi)

/-- While it does, every key to be found is guarded. -/
theorem kept (h : w.Apart r id) : w.Kept :=
  ⟨fun i k hk => h.guarded i k ((h.findable i k).mp hk), h.shown, h.timed⟩

/-- Going on to other states of the same key. -/
theorem next (h : w.Apart r id) {r' : Rings} {n : Nat} (huser : r'.user = r.user)
    (hnested : r'.nested = r.nested) (hsame : ∀ i, i ≠ id → r'.key i = r.key i) :
    World.Apart r id { w with calls := n, rings := r', trace := r' :: w.trace } := by
  have hnow : World.Apart r id { w with calls := n, rings := r' } :=
    { h with user := huser, nested := hnested, same := hsame }
  exact { hnow with shown := List.forall_mem_cons.mpr ⟨hnow.kept.now, h.shown⟩ }

/-- Counting a call leaves the key apart. -/
theorem call (h : w.Apart r id) {n : Nat} : World.Apart r id { w with calls := n } := { h with }

/-- A change of the key leaves it apart. -/
theorem change (h : w.Apart r id) (f : Key → Key) {n : Nat} :
    World.Apart r id { w with
      calls := n, rings := w.rings.change id f, trace := w.rings.change id f :: w.trace } :=
  h.next h.user h.nested fun i hi => (Rings.change_ne hi).trans (h.same i hi)

end World.Apart

section
variable {env : Env} {r : Rings} {id : Serial} {w : World} {timeout : Int}

/-- What must be true of a key before others may find it. -/
structure Ready (id : Serial) (r : Rings) : Prop where
  timed : ∀ k, r.key id = some k → k.timeout ≠ 0
  restricted : ∀ k, r.key id = some k → k.perm = keyPerm

/-- Setting its timeout gives it one, or fails, and it stands apart still. -/
private theorem timeout_after (h : w.Apart r id) {secs : Nat} (hsecs : secs ≠ 0)
    {E : KeyringError → World → Prop} :
    Fallible.After (fun res w' => w'.Apart r id ∧
      (res = .ok () → ∀ k, w'.rings.key id = some k → k.timeout ≠ 0)) E
      (callTimeout env id secs w) := by
  have hasked : World.Apart r id { w with timeouts := secs :: w.timeouts } :=
    { h with timed := List.forall_mem_cons.mpr ⟨hsecs, h.timed⟩ }
  unfold callTimeout
  rw [Fallible.bind_of_ok (Fallible.modify_apply _ _)]
  apply call_after
  · exact fun e => ⟨hasked.call, by simp⟩
  · intro u r' _ hr'
    cases hr'
    refine ⟨hasked.change _, fun _ k hk => ?_⟩
    obtain ⟨k₀, -, rfl⟩ := Option.map_eq_some_iff.mp (Rings.change_self.symm.trans hk)
    exact hsecs

/-- With its permissions it is ready. -/
private theorem perm_after (h : w.Apart r id)
    (htimed : ∀ k, w.rings.key id = some k → k.timeout ≠ 0)
    {E : KeyringError → World → Prop} :
    Fallible.After (fun res w' => w'.Apart r id ∧ (res = .ok () → Ready id w'.rings)) E
      (call env (·.setperm id keyPerm) w) := by
  apply call_after
  · exact fun e => ⟨h.call, by simp⟩
  · intro u r' _ hr'
    cases hr'
    refine ⟨h.change _, fun _ => ⟨fun k hk => ?_, fun k hk => ?_⟩⟩
    all_goals obtain ⟨k₀, hk₀, rfl⟩ := Option.map_eq_some_iff.mp (Rings.change_self.symm.trans hk)
    · exact htimed k₀ hk₀
    · rfl

/-- A ready key may be linked, and all that can be found is guarded. -/
private theorem link_after (h : w.Apart r id) (hready : Ready id w.rings)
    {E : KeyringError → World → Prop} :
    Fallible.After
      (fun res w' => (res = .ok () → w'.Kept) ∧ ∀ e, res = .error e → w'.Apart r id) E
      (call env (·.link id .user) w) := by
  apply call_after
  · exact fun e => ⟨by simp, fun _ _ => h.call⟩
  · intro u r' _ hr'
    cases hr'
    refine ⟨fun _ => ?_, by simp⟩
    have hnow : Rings.Guarded { w.rings with user := some id } := by
      rintro i k ⟨hi, hk, hu⟩
      by_cases hid : i = id
      · subst hid
        exact ⟨hready.restricted k hk, hready.timed k hk⟩
      · -- the other keys that are left hung there before
        have hnested : i ∈ r.nested := by
          have hmem : i = id ∨ i ∈ w.rings.nested := by simpa [Rings.reach] using hi
          exact h.nested ▸ hmem.resolve_left hid
        exact h.guarded i k ⟨List.mem_append_right _ hnested, h.same i hid ▸ hk, hu⟩
    exact ⟨hnow, List.forall_mem_cons.mpr ⟨hnow, h.shown⟩, h.timed⟩

/-- A key that is shown was given its timeout and its permissions before. -/
private theorem staged_after (h : w.Apart r id) (htimeout : ¬ timeout < 1) :
    Fallible.After (fun _ w => w.Kept) (fun _ w => w.Apart r id) (staged env id timeout w) := by
  have hsecs : clampSecs timeout ≠ 0 := by
    unfold clampSecs
    omega
  unfold staged
  refine .bind ((timeout_after h hsecs).imp (fun res w₁ h₁ => ?_) fun _ _ h => h)
  refine .bind (orFail_after (fun u hu => ?_) fun _ _ _ => h₁.1)
  refine .bind ((perm_after h₁.1 (h₁.2 hu)).imp (fun res w₂ h₂ => ?_) fun _ _ h => h)
  refine .bind (orFail_after (fun u hu => ?_) fun _ _ _ => h₂.1)
  refine .bind ((link_after h₂.1 (h₂.2 hu)).imp (fun res w₃ h₃ => ?_) fun _ _ h => h)
  exact orFail_after (fun u hu => h₃.1 hu) fun e he _ => h₃.2 e he

/-- A search changes nothing. -/
theorem find_after (h : w.Kept) : Fallible.After
    (fun res w' => w'.Kept ∧ w'.rings = w.rings ∧ w'.calls = w.calls + 1 ∧
      ∀ id, res = some id → w'.rings.found = some id)
    (fun _ w' => w'.Kept ∧ w'.rings = w.rings ∧ w'.calls = w.calls + 1) (find env w) := by
  unfold find
  refine .bind (call_after (fun e => ?_) fun found r' _ hr' => ?_)
  · have hkept : World.Kept { w with calls := w.calls + 1 } := { h with }
    exact .ite (fun _ => ⟨hkept, rfl, rfl, by simp⟩) fun _ => ⟨hkept, rfl, rfl⟩
  · have hsame : w.rings.found = some found ∧ r' = w.rings := by
      unfold Rings.searchUser at hr'
      cases hfound : w.rings.found <;> rw [hfound] at hr' <;> cases hr'
      exact ⟨rfl, rfl⟩
    obtain ⟨hfound, rfl⟩ := hsame
    exact ⟨⟨h.now, List.forall_mem_cons.mpr ⟨h.now, h.shown⟩, h.timed⟩, rfl, rfl,
      fun id hid => Option.some.inj hid ▸ hfound⟩

/-- A new key in the process keyring stands apart, unless one that can be found is there. -/
private theorem add_after (h : w.Kept) (hnew : w.rings.Unused env.serial)
    (hshared : env.faults w.calls ≠ none ∨ ¬ w.rings.Shared) {payload : List UInt8}
    {E : KeyringError → World → Prop} :
    Fallible.After (fun res w' => (∀ id, res = .ok id → w'.Apart w.rings id) ∧
        ∀ e, res = .error e → w'.Kept ∧ w'.rings = w.rings) E
      (call env (·.addToProcess env.serial env.perm payload) w) := by
  have hapart : ∀ id, id ∉ w.rings.reach → w.Apart w.rings id :=
    fun id hid => ⟨h.now, hid, rfl, rfl, fun _ _ => rfl, h.shown, h.timed⟩
  apply call_after
  · exact fun e => ⟨by simp, fun _ _ => ⟨{ h with }, rfl⟩⟩
  · intro id r' hnone hr'
    have hshared : ¬ w.rings.Shared := hshared.resolve_left (not_not.mpr hnone)
    refine ⟨fun _ hid => ?_, by simp⟩
    cases hid
    unfold Rings.addToProcess at hr'
    cases hupdated : w.rings.updated with
    | some old =>
      rw [hupdated] at hr'
      cases hr'
      exact (hapart _ fun hold => hshared ⟨_, hold, hupdated⟩).change _
    | none =>
      rw [hupdated] at hr'
      cases hr'
      exact (hapart _ hnew.2).next rfl rfl fun i hi => if_neg hi

/-- Operations on keys that are no longer shown, or on the process keyring. -/
theorem revokeKey_after (h : w.Kept) {E : KeyringError → World → Prop} :
    Fallible.After (fun _ w' => w'.Kept) E (call env (·.revokeKey id) w) := by
  apply call_after
  · exact fun e => { h with }
  · intro u r' _ hr'
    cases hr'
    exact ⟨h.now.revokeKey, List.forall_mem_cons.mpr ⟨h.now.revokeKey, h.shown⟩, h.timed⟩

/-- An unlinking leaves all that can be found guarded. -/
theorem unlink_after (h : w.Kept) {ring : Ring} {E : KeyringError → World → Prop} :
    Fallible.After (fun _ w' => w'.Kept) E (call env (·.unlink id ring) w) := by
  apply call_after
  · exact fun e => { h with }
  · intro u r' _ hr'
    have hnow : r'.Guarded := by
      cases ring <;> unfold Rings.unlink at hr' <;> dsimp only at hr' <;> split_ifs at hr' <;>
        cases hr'
      · exact h.now
      · exact fun i k hk => h.now i k (findable_unlinked.mp hk).1
    exact ⟨hnow, List.forall_mem_cons.mpr ⟨hnow, h.shown⟩, h.timed⟩

/-- A start at which all is guarded keeps that. -/
theorem start_kept (h : r.Guarded) : (World.start r).Kept :=
  ⟨h, List.forall_mem_singleton.mpr h, by simp [World.start]⟩

/-- What publishing promises: at no time can a key be found that is not restricted or has no
    timeout, no timeout is zero, and a failure leaves whatever could be found. -/
def Publishes (r : Rings) (res : Except KeyringError Serial × World) : Prop :=
  Fallible.After (fun _ w => w.Kept)
    (fun _ w => w.Kept ∧ ∀ id k, r.Findable id k → w.rings.Findable id k) res

/-- The publication is guarded when the process keyring holds no key that can be found. -/
private theorem publish_of_not_shared {payload : List UInt8} (h : r.Guarded)
    (hnew : r.Unused env.serial)
    (hshared : env.faults 1 ≠ none ∨ ¬ r.Shared) :
    Publishes r (publish env payload timeout (.start r)) := by
  unfold Publishes publish
  refine .ite (fun _ => ⟨start_kept h, fun _ _ hk => hk⟩) fun htimeout => ?_
  have hfind : Fallible.After (fun _ w' => w'.Kept ∧ w'.rings = r ∧ w'.calls = 1)
      (fun _ _ => False) (Fallible.attempt (find env) (World.start r)) :=
    .attempt ((find_after (start_kept h)).imp (fun _ _ h => ⟨h.1, h.2.1, h.2.2.1⟩) fun _ _ h => h)
  refine .bind (hfind.imp (fun old w₁ h₁ => ?_) fun _ _ h => h.elim)
  obtain ⟨hkept, rfl, hcalls⟩ := h₁
  refine .bind ((add_after hkept hnew (hcalls ▸ hshared)).imp (fun res w₂ h₂ => ?_) fun _ _ h => h)
  refine .bind (orFail_after (fun id hid => ?_) fun e he _ => ?_)
  · -- the new key is on its way
    have hstaged : Fallible.After (fun res w' => (res = .ok () → w'.Kept) ∧
        ∀ e, res = .error e → w'.Apart w₁.rings id) (fun _ _ => False)
        (Fallible.attempt (staged env id timeout) w₂) :=
      .attempt ((staged_after (h₂.1 id hid) htimeout).imp (fun _ _ h => ⟨fun _ => h, by simp⟩)
        fun _ _ h => ⟨by simp, fun _ _ => h⟩)
    refine .bind (hstaged.imp (fun res w₃ h₃ => ?_) fun _ _ h => h.elim)
    cases res with
    | error e =>
      -- it is revoked, and what could be found still is
      have hleft : ∀ w' : World, w'.Apart w₁.rings id →
          w'.Kept ∧ ∀ i k, w₁.rings.Findable i k → w'.rings.Findable i k :=
        fun w' h => ⟨h.kept, fun i k => (h.findable i k).mpr⟩
      refine .bind (call_after (fun e' => hleft _ (h₃.2 e rfl).call) fun u r' _ hr' => ?_)
      cases hr'
      exact hleft _ ((h₃.2 e rfl).change _)
    | ok u =>
      refine .bind ((unlink_after (h₃.1 rfl)).imp (fun res w₄ h₄ => ?_) fun _ _ h => h)
      cases old with
      | error e => exact h₄
      | ok old =>
        cases old with
        | none => exact h₄
        | some old =>
          refine .ite (fun _ => ?_) fun _ => h₄
          exact .bind ((revokeKey_after h₄).imp (fun _ _ h => h) fun _ _ h => h)
  · obtain ⟨hkept, hrings⟩ := h₂.2 e he
    exact ⟨hkept, fun _ _ hk => hrings ▸ hk⟩

/-- A key has been shown without a timeout. -/
def World.Broken (w : World) : Prop := ∃ r ∈ w.trace, ¬ r.Guarded

/-- A key that was to be found without its guard has been found, whatever comes after. -/
theorem broken_after {α : Type} {f : Rings → Except Int (α × Rings)} (h : w.Broken)
    {E : KeyringError → World → Prop} :
    Fallible.After (fun _ w' => w'.Broken) E (call env f w) := by
  obtain ⟨bad, hbad, hnot⟩ := h
  apply call_after
  · exact fun e => ⟨bad, hbad, hnot⟩
  · exact fun a r' _ _ => ⟨bad, List.mem_cons_of_mem _ hbad, hnot⟩

/-- The rest of the publication is no exception. -/
private theorem staged_broken (h : w.Broken) : Fallible.After (fun _ w' => w'.Broken)
    (fun _ w' => w'.Broken) (staged env id timeout w) := by
  unfold staged callTimeout
  have hasked : World.Broken { w with timeouts := clampSecs timeout :: w.timeouts } := h
  refine .bind (.bind ?_)
  show Fallible.After _ _ (call env _ { w with timeouts := clampSecs timeout :: w.timeouts })
  refine (broken_after hasked).imp (fun _ w₁ h₁ => ?_) fun _ _ h => h
  refine .bind (orFail_after (fun _ _ => ?_) fun _ _ _ => h₁)
  refine .bind ((broken_after h₁).imp (fun _ w₂ h₂ => ?_) fun _ _ h => h)
  refine .bind (orFail_after (fun _ _ => ?_) fun _ _ _ => h₂)
  refine .bind ((broken_after h₂).imp (fun _ w₃ h₃ => ?_) fun _ _ h => h)
  exact orFail_after (fun _ _ => h₃) fun _ _ _ => h₃

/-- A key that others can find and that is updated is shown without a timeout. -/
private theorem not_guarded_of_shared {id : Serial} (hid : id ∈ r.reach)
    (hupdated : r.updated = some id)
    (payload : List UInt8) :
    ¬ (r.change id ({ · with payload, timeout := 0, expired := false })).Guarded := by
  intro h
  have hlive := (Option.filter_eq_some_iff.mp hupdated).2
  cases hk : r.key id with
  | none =>
    rw [hk] at hlive
    cases hlive
  | some k =>
    rw [hk] at hlive
    have hnow := Rings.change_self (f := ({ · with payload, timeout := 0, expired := false }))
      |>.trans (congrArg (Option.map _) hk)
    refine (h id _ ⟨hid, hnow, ?_⟩).2 rfl
    simpa [Key.usable] using hlive

/-- A key of that name that can be found stands with the new payload before it is guarded. -/
private theorem not_publishes_of_shared {payload : List UInt8} (h : r.Guarded)
    (htimeout : ¬ timeout < 1)
    (hadd : env.faults 1 = none) (hshared : r.Shared) :
    ¬ Publishes r (publish env payload timeout (.start r)) := by
  have hfind : Fallible.After (fun _ w' => w'.rings = r ∧ w'.calls = 1) (fun _ _ => False)
      (Fallible.attempt (find env) (World.start r)) :=
    .attempt ((find_after (start_kept h)).imp (fun _ _ h => ⟨h.2.1, h.2.2.1⟩) fun _ _ h => h.2)
  have hbroken : Fallible.After (fun _ w' => w'.Broken) (fun _ w' => w'.Broken)
      (publish env payload timeout (.start r)) := by
    unfold publish
    rw [if_neg htimeout]
    refine .bind (hfind.imp (fun old w₁ h₁ => ?_) fun _ _ h => h.elim)
    obtain ⟨rfl, hcalls⟩ := h₁
    obtain ⟨id, hid, hupdated⟩ := hshared
    have hdone : w₁.rings.addToProcess env.serial env.perm payload = .ok (id,
        w₁.rings.change id ({ · with payload, timeout := 0, expired := false })) := by
      unfold Rings.addToProcess
      rw [hupdated]
    rw [Fallible.bind_of_ok (call_done (hcalls ▸ hadd) hdone)]
    refine .bind (orFail_after (fun _ hok => ?_) fun e he => by cases he)
    cases hok
    refine .bind (.attempt ((staged_broken ?_).imp (fun _ w₂ h₂ => ?_) fun e w₂ h₂ => ?_))
    · exact ⟨_, List.mem_cons_self, not_guarded_of_shared hid hupdated payload⟩
    · refine .bind ((broken_after h₂).imp (fun _ w₃ h₃ => ?_) fun _ _ h => h)
      cases old with
      | error e => exact h₃
      | ok old =>
        cases old with
        | none => exact h₃
        | some old =>
          refine .ite (fun _ => ?_) fun _ => h₃
          exact .bind ((broken_after h₃).imp (fun _ _ h => h) fun _ _ h => h)
    · exact .bind ((broken_after h₂).imp (fun _ _ h => h) fun _ _ h => h)
  intro hpublishes
  unfold Publishes at hpublishes
  rcases hres : publish env payload timeout (.start r) with ⟨res, w'⟩
  rw [hres] at hpublishes hbroken
  have hboth : w'.Kept ∧ w'.Broken := by
    cases res with
    | ok id => exact ⟨hpublishes, hbroken⟩
    | error e => exact ⟨hpublishes.1, hbroken⟩
  obtain ⟨hkept, bad, hbad, hnot⟩ := hboth
  exact hnot (hkept.shown bad hbad)

/-- A revocation leaves all that can be found guarded. -/
private theorem revoke_after (h : w.Kept) :
    Fallible.After (fun _ w' => w'.Kept) (fun _ w' => w'.Kept) (revoke env w) := by
  unfold revoke
  refine .bind ((find_after h).imp (fun found w₁ h₁ => ?_) fun _ _ h => h.1)
  cases found with
  | none => exact h₁.1
  | some id =>
    refine .bind ((revokeKey_after h₁.1).imp (fun _ w₂ h₂ => ?_) fun _ _ h => h)
    exact .bind ((unlink_after h₂).imp (fun _ _ h => h) fun _ _ h => h)

/-- The key that a search came to keeps its permissions, and gets another timeout. -/
private theorem callTimeout_after (h : w.Kept) (hfound : w.rings.found = some id) {secs : Nat}
    (hsecs : secs ≠ 0) {E : KeyringError → World → Prop} :
    Fallible.After (fun _ w' => w'.Kept) E (callTimeout env id secs w) := by
  have hasked : World.Kept { w with timeouts := secs :: w.timeouts } :=
    { h with timed := List.forall_mem_cons.mpr ⟨hsecs, h.timed⟩ }
  unfold callTimeout
  rw [Fallible.bind_of_ok (Fallible.modify_apply _ _)]
  apply call_after
  · exact fun e => { hasked with }
  · intro u r' _ hr'
    cases hr'
    have hnow : Rings.Guarded
        (w.rings.change id ({ · with timeout := secs, expired := false })) := by
      rintro i k ⟨hi, hk, hu⟩
      by_cases hid : i = id
      · subst hid
        obtain ⟨k₀, hk₀, rfl⟩ := Option.map_eq_some_iff.mp (Rings.change_self.symm.trans hk)
        obtain ⟨k₁, hbefore⟩ := Rings.findable_of_found hfound
        cases hk₀.symm.trans hbefore.2.1
        exact ⟨(h.now i k₀ hbefore).1, hsecs⟩
      · rw [Rings.change_ne hid] at hk
        exact h.now i k ⟨hi, hk, hu⟩
    exact ⟨hnow, List.forall_mem_cons.mpr ⟨hnow, h.shown⟩, hasked.timed⟩

/-- A new timeout leaves all that can be found guarded. -/
private theorem setTimeout_after (h : w.Kept) :
    Fallible.After (fun _ w' => w'.Kept) (fun _ w' => w'.Kept) (setTimeout env timeout w) := by
  unfold setTimeout
  refine .bind ((find_after h).imp (fun found w₁ h₁ => ?_) fun _ _ h => h.1)
  cases found with
  | none => exact h₁.1
  | some id =>
    refine .ite (fun _ => ?_) fun htimeout => ?_
    · exact .bind ((revoke_after h₁.1).imp (fun _ _ h => h) fun _ _ h => h)
    · have hsecs : clampSecs timeout ≠ 0 := by
        unfold clampSecs
        omega
      refine .bind ((callTimeout_after h₁.1 (h₁.2.2.2 id rfl) hsecs).imp (fun res w₂ h₂ => ?_)
        fun _ _ h => h)
      exact .bind (orFail_after (fun _ _ => h₂) fun _ _ _ => h₂)

/-- **When publishing keeps what it promises.** -/
theorem publish_guarded_iff (env : Env) (r : Rings) (payload : List UInt8) (timeout : Int)
    (h : r.Guarded) (hnew : r.Unused env.serial) :
    (Publishes r (publish env payload timeout (.start r)) ↔
        timeout < 1 ∨ env.faults 1 ≠ none ∨ ¬ r.Shared) ∧
      (setTimeout env timeout (.start r)).2.Kept := by
  refine ⟨⟨fun hpublishes => ?_, fun hcond => ?_⟩, ?_⟩
  · by_contra hcond
    rw [not_or, not_or, not_not, not_not] at hcond
    exact not_publishes_of_shared h hcond.1 hcond.2.1 hcond.2.2 hpublishes
  · rcases hcond with htimeout | hcond
    · unfold Publishes publish
      rw [if_pos htimeout]
      exact ⟨start_kept h, fun _ _ hk => hk⟩
    · exact publish_of_not_shared h hnew hcond
  · have hafter : Fallible.After (fun _ w' => w'.Kept) (fun _ w' => w'.Kept)
        (setTimeout env timeout (.start r)) := setTimeout_after (start_kept h)
    rcases hres : setTimeout env timeout (.start r) with ⟨_ | _, w'⟩ <;> rw [hres] at hafter <;>
      exact hafter

end

/-- No key, nothing to guard. -/
theorem sampleRings_guarded : sampleRings.Guarded := by
  rintro id k ⟨-, hk, -⟩
  simp only [sampleRings, Option.ite_none_right_eq_some, Option.some.injEq] at hk
  rw [← hk.2]
  exact ⟨rfl, by decide⟩

/-- What has been made ready cannot be linked into the user keyring. -/
def linkless : Env where
  faults n := if n = 4 then some 122 else none
  serial := 7
  perm := keyPerm
  strerror _ := "Disk quota exceeded"

/-- The key has its timeout and its permissions when the link fails, and nobody ever finds it. -/
theorem publish_guarded_linkless :
    ((Publishes sampleRings (publish linkless [2] 60 (.start sampleRings)) ↔
        (60 : Int) < 1 ∨ linkless.faults 1 ≠ none ∨ ¬ sampleRings.Shared) ∧
      (setTimeout linkless 60 (.start sampleRings)).2.Kept) ∧
    ¬ sampleRings.Shared ∧
    (publish linkless [2] 60 (.start sampleRings)).1 =
      .error "linking the identity cache: Disk quota exceeded".toList ∧
    (publish linkless [2] 60 (.start sampleRings)).2.rings.key 7 =
      some ⟨[2], keyPerm, 60, true, false⟩ := by
  refine ⟨publish_guarded_iff linkless sampleRings [2] 60 sampleRings_guarded ⟨rfl, by decide⟩,
    ?_, by decide, by decide⟩
  rintro ⟨id, -, hupdated⟩
  cases hupdated

/-- The cache hangs in the process keyring still: it could not be unlinked when it was published. -/
def leftRings : Rings := { sampleRings with process := some 3 }

/-- No timeout can be set. -/
def timeless : Env where
  faults n := if n = 2 then some 122 else none
  serial := 7
  perm := keyPerm
  strerror _ := "Disk quota exceeded"

/-- **A publishing that fails and takes the old key along.** -/
theorem publish_takes_old : ¬ ∀ (env : Env) (r : Rings) (payload : List UInt8) (timeout : Int),
    r.Guarded → r.Unused env.serial → Publishes r (publish env payload timeout (.start r)) := by
  intro h
  have hpublishes := h timeless leftRings [2] 60 sampleRings_guarded ⟨rfl, by decide⟩
  have hold : leftRings.Findable 3 ⟨[1], keyPerm, 60, false, false⟩ := ⟨by decide, rfl, rfl⟩
  have hkey := (hpublishes.2 3 _ hold).2.1
  revert hkey
  decide

end Omdrop.Identity.Keyring
