import Omdrop.Text.Unicode
import Omdrop.Text.Lines
import Omdrop.Text.Space
import Omdrop.Text.Utf8

namespace Omdrop.Receiver

open Omdrop.Text

/-!
# Who may send

The policy for contacts: `decide` judges a sender by the validation record that it sends, the
certificate of its connection and the known senders; `decide_eq_accept_iff` says whom it accepts.
`decideDiscovery` is the weaker one for who may see this machine.
-/

/-- What a validation record says. -/
structure Record where
  account : Text
  hashes : List Text
  expired : Bool
  deriving DecidableEq

/-- The checks of what Apple signed: the contents of a record whose signature verifies, and the
    account that a certificate names, empty when it names none. -/
structure AppleChecks where
  verifyRecord : List UInt8 → Option Record
  certificateAccount : List UInt8 → Text

/-- A policy outcome. -/
inductive Outcome
  | accept | noRecord | badRecord | noCertificate | unbound | unknown
  deriving DecidableEq, Repr

/-- The reason that is logged. -/
def Outcome.why : Outcome → Text
  | .accept        => "sender is a known contact"
  | .noRecord      => "sender sent no Apple ID validation record"
  | .badRecord     => "the validation record is not signed by Apple, or has expired"
  | .noCertificate => "sender presented no client certificate"
  | .unbound       => "the validation record does not belong to the presented certificate"
  | .unknown       => "sender is not in the known-senders list"

/-- What a decision rests on. -/
inductive Detail
  | none
  | expired (b : Bool)
  | appleIssuedCertificate (b : Bool)
  | knownSenders (n : Nat)
  | identified (b : Bool)
  deriving DecidableEq, Repr

/-- A truth value as the messages show it. -/
def pyBool (b : Bool) : Text := if b then "True" else "False"

/-- A detail as the messages show it. -/
def Detail.text : Detail → Text
  | .none                     => "\x7b\x7d"
  | .expired b                => "\x7b'expired': ".toList ++ pyBool b ++ ['\x7d']
  | .appleIssuedCertificate b => "\x7b'apple_issued_certificate': ".toList ++ pyBool b ++ ['\x7d']
  | .knownSenders n           => "\x7b'known_senders': ".toList ++ decimal n ++ ['\x7d']
  | .identified b             => "\x7b'identified': ".toList ++ pyBool b ++ ['\x7d']

/-- What is added to a reason. -/
def detailSuffix (detail : Detail) : Text :=
  if detail = .none then [] else " [".toList ++ detail.text ++ [']']

/-! ### The known senders and the visibility -/

section
variable [Unicode]

/-- An entry of the address book as it is hashed; `none` for blanks and comments. -/
def normalize (entry : Text) : Option Text :=
  let entry := trim entry
  if entry = [] ∨ entry.head? = some '#' then none
  else if '@' ∈ entry then some (Unicode.toLowercase entry)
  else
    let digits := entry.filter Char.isDigit
    if digits = [] then none else some digits

/-- The hashes of everyone who is accepted, each once; none when the file cannot be read. -/
def knownHashes (hash : Text → Text) : Option (List UInt8) → List Text
  | none       => []
  | some bytes => ((strLines (fromUtf8Lossy bytes)).filterMap normalize).map hash |>.dedup

/-- Who may see this machine. -/
inductive Visibility
  | everyone | contacts
  deriving DecidableEq, Repr

/-- Contacts only when the file says so. -/
def visibility (file : Option (List UInt8)) : Visibility :=
  match file.bind fromUtf8 with
  | some text => if Unicode.toLowercase (trim text) = "contacts".toList then .contacts else .everyone
  | none      => .everyone

end

/-! ### The decisions -/

variable (apple : AppleChecks)

/-- Should a transfer from this sender be accepted? -/
def decide (record cert : Option (List UInt8)) (known : List Text) : Outcome × Detail :=
  match record.filter (· ≠ []) with
  | none => (.noRecord, .none)
  | some record =>
    match apple.verifyRecord record with
    | none => (.badRecord, .expired false)
    | some info =>
      if info.expired then (.badRecord, .expired true)
      else
        match cert.filter (· ≠ []) with
        | none => (.noCertificate, .none)
        | some cert =>
          let account := apple.certificateAccount cert
          if account = [] ∨ account ≠ info.account then
            (.unbound, .appleIssuedCertificate (account ≠ []))
          else if known = [] then (.unknown, .knownSenders 0)
          else if info.hashes.any known.contains then (.accept, .knownSenders known.length)
          else (.unknown, .knownSenders known.length)

/-- May this sender see the machine? -/
def decideDiscovery (record : Option (List UInt8)) (known : List Text) : Outcome × Detail :=
  match record.filter (· ≠ []) with
  | none => (.accept, .identified false)
  | some record =>
    match apple.verifyRecord record with
    | none => (.accept, .identified false)
    | some info =>
      if info.expired then (.accept, .identified false)
      else if known ≠ [] ∧ info.hashes.any known.contains then (.accept, .identified true)
      else (.unknown, .knownSenders known.length)

/-- A sender that proves whom it is, on this connection, and is known. -/
structure IsContact (record cert : Option (List UInt8)) (known : List Text) (info : Record) :
    Prop where
  verified : ∃ r, record = some r ∧ r ≠ [] ∧ apple.verifyRecord r = some info
  unexpired : info.expired = false
  bound : ∃ c, cert = some c ∧ c ≠ [] ∧ apple.certificateAccount c = info.account
  named : info.account ≠ []
  isKnown : ∃ h ∈ info.hashes, h ∈ known

/-- **Whom the policy accepts.** -/
theorem decide_eq_accept_iff {record cert : Option (List UInt8)} {known : List Text} :
    (decide apple record cert known).1 = .accept ↔ ∃ info, IsContact apple record cert known info := by
  constructor
  · -- each check in turn refuses what fails it
    intro h
    unfold decide at h
    rcases hrecord : record.filter (· ≠ []) with _ | r
    · rw [hrecord] at h
      cases h
    obtain ⟨rfl, hr⟩ := Option.filter_eq_some_iff.mp hrecord
    rw [hrecord] at h
    dsimp only at h
    rcases hverify : apple.verifyRecord r with _ | info
    · rw [hverify] at h
      cases h
    rw [hverify] at h
    dsimp only at h
    by_cases hexpired : info.expired = true
    · rw [if_pos hexpired] at h
      cases h
    rw [if_neg hexpired] at h
    rcases hcert : cert.filter (· ≠ []) with _ | c
    · rw [hcert] at h
      cases h
    obtain ⟨rfl, hc⟩ := Option.filter_eq_some_iff.mp hcert
    rw [hcert] at h
    dsimp only at h
    by_cases haccount : apple.certificateAccount c = [] ∨ apple.certificateAccount c ≠ info.account
    · rw [if_pos haccount] at h
      cases h
    obtain ⟨hnamed, hbound⟩ := not_or.mp haccount
    have hhash : info.hashes.any known.contains = true := by
      rw [if_neg haccount] at h
      by_contra hnone
      rw [if_neg hnone] at h
      split_ifs at h
    refine ⟨info, ⟨r, rfl, by simpa using hr, hverify⟩, by simpa using hexpired,
      ⟨c, rfl, by simpa using hc, not_not.mp hbound⟩, ?_, by simpa using hhash⟩
    rw [← not_not.mp hbound]
    exact hnamed
  · -- a contact passes all checks
    rintro ⟨info, ⟨r, rfl, hr, hverify⟩, hexpired, ⟨c, rfl, hc, hbound⟩, hnamed, h, hh, hknown⟩
    have hne : known ≠ [] := List.ne_nil_of_mem hknown
    have hany : info.hashes.any known.contains = true :=
      List.any_eq_true.mpr ⟨h, hh, List.contains_iff_mem.mpr hknown⟩
    have hfilter : ∀ {x : List UInt8}, x ≠ [] → (some x).filter (· ≠ []) = some x := by
      intro x hx
      simp [hx]
    unfold decide
    rw [hfilter hr]
    dsimp only
    rw [hverify]
    dsimp only
    rw [hexpired, hfilter hc]
    dsimp only
    rw [hbound, if_neg (by simp), if_neg (by simpa using hnamed), if_neg hne, if_pos hany]

end Omdrop.Receiver
