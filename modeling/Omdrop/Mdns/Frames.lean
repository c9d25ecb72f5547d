import Omdrop.Mdns.Wire
import Omdrop.Text.Utf8

namespace Omdrop.Mdns

open Omdrop.Text

/-!
# What the advertiser sends

`announcement` says where this machine answers, in four records, and `reply` says the same to
somebody who asked, with a fifth.  Names are written without pointers, and their empty labels are
left out.
-/

/-- The service type. -/
def service : Text := "_airdrop._tcp.local"

/-- A frame that cannot be encoded. -/
inductive BuildError
  | notPrintable (name : Text) (bad : Char)
  | labelTooLong (name : Text)
  | nameTooLong (name : Text)
  | dataTooLong
  deriving DecidableEq

/-! ### Names -/

/-- The labels of a name that are not empty. -/
def labels (name : Text) : List Text := (name.splitOn '.').filter (· ≠ [])

/-- The same labels, in bytes. -/
def wireLabels (name : Text) : List (List UInt8) := (labels name).map utf8

/-- Labels with dots between them. -/
def dotted (ls : List Text) : Text := ['.'].intercalate ls

/-- A name without its empty labels. -/
def normal (name : Text) : Text := dotted (labels name)

/-- A printable ASCII character. -/
def isPrintable (c : Char) : Bool := ' ' ≤ c && c ≤ '~'

/-- Does the name encode?  Printable ASCII, labels of at most 63 bytes, and at most 255 bytes in
    all. -/
def checkName (name : Text) : Except BuildError Unit :=
  match name.find? (!isPrintable ·) with
  | some bad => .error (.notPrintable name bad)
  | none     =>
    if (wireLabels name).any (63 < ·.length) then .error (.labelTooLong name)
    else if 255 < 1 + ((wireLabels name).map (·.length + 1)).sum then .error (.nameTooLong name)
    else .ok ()

/-- A name without pointers. -/
def dname (name : Text) : Except BuildError (List UInt8) := do
  checkName name
  pure (wire (wireLabels name))

/-! ### Records -/

def cacheFlush : Nat := 0x8001

/-- A record whose name and data have been encoded. -/
def record (name : List UInt8) (rtype rclass ttl : Nat) (rdata : List UInt8) : List UInt8 :=
  name ++ (toBe16 rtype ++ (toBe16 rclass ++ (toBe32 ttl ++ (toBe16 rdata.length ++ rdata))))

/-- One resource record. -/
def rr (name : Text) (rtype rclass ttl : Nat) (rdata : List UInt8) :
    Except BuildError (List UInt8) := do
  if 65535 < rdata.length then throw .dataTooLong
  pure (record (← dname name) rtype rclass ttl rdata)

/-- The name of an instance. -/
def instanceName (sid : Text) : Text := sid ++ '.' :: service

/-- What a service record says: no priority, no weight, the port and the host. -/
def srvData (port : UInt16) (host : List UInt8) : List UInt8 :=
  [0, 0, 0, 0] ++ (toBe16 port.toNat ++ host)

/-- What a text record says. -/
def txtData (flags : UInt64) : List UInt8 :=
  let txt := utf8 ("flags=".toList ++ decimal flags.toNat)
  .ofNat txt.length :: txt

/-- A message's header: an authoritative response with so many answers. -/
def header (answers : Nat) : List UInt8 := [0, 0x8400, 0, answers, 0, 0].flatMap toBe16

/-- The announcement: the service's instance, its port and host, its flags, and the host's
    address. -/
def announcement (sid host : Text) (port : UInt16) (flags : UInt64) (ll : Vector UInt8 16) :
    Except BuildError (List UInt8) := do
  let inst := instanceName sid
  let srv := srvData port (← dname host)
  let ptr ← rr service 12 0x0001 4500 (← dname inst)
  let srv ← rr inst 33 cacheFlush 120 srv
  let txt ← rr inst 16 cacheFlush 4500 (txtData flags)
  let aaaa ← rr host 28 cacheFlush 120 ll.toList
  pure (header 4 ++ (ptr ++ (srv ++ (txt ++ aaaa))))

/-- The types that there are for the host: its address, and this. -/
def nsecTypes : List UInt8 := [0x00, 0x06, 0, 0, 0, 0x08, 0, 0x01]

/-- The reply: the announcement, with one answer more that says which types there are. -/
def reply (sid host : Text) (port : UInt16) (flags : UInt64) (ll : Vector UInt8 16) :
    Except BuildError (List UInt8) := do
  let msg ← announcement sid host port flags ll
  let nsec ← rr host 47 cacheFlush 120 ((← dname host) ++ nsecTypes)
  let ancount := ((be16 msg 6).getD 0 + 1) % 65536
  -- the count is written over the one that is there
  let msg := if 8 ≤ msg.length then msg.take 6 ++ toBe16 ancount ++ msg.drop 8 else msg
  pure (msg ++ nsec)

/-! ### Names that are accepted -/

/-- A piece of a name holds no other characters than the name. -/
private theorem subset_of_mem_splitOn {name l : Text} (h : l ∈ name.splitOn '.') : l ⊆ name := by
  induction name generalizing l with
  | nil =>
    rw [List.splitOn_nil, List.mem_singleton] at h
    rw [h]
    exact List.Subset.refl _
  | cons c cs ih =>
    rw [List.splitOn_cons_eq_if_modifyHead] at h
    split_ifs at h
    · rcases List.mem_cons.mp h with rfl | h
      · exact List.nil_subset _
      · exact List.subset_cons_of_subset _ (ih h)
    · obtain ⟨head, tail, hsplit⟩ := List.exists_cons_of_ne_nil (List.splitOn_ne_nil '.' cs)
      rw [hsplit, List.modifyHead_cons] at h
      rcases List.mem_cons.mp h with rfl | h
      · exact List.cons_subset_cons _ (ih (hsplit ▸ List.mem_cons_self))
      · exact List.subset_cons_of_subset _ (ih (hsplit ▸ List.mem_cons_of_mem _ h))

/-- A label is a part of its name. -/
theorem subset_of_mem_labels {name l : Text} (h : l ∈ labels name) : l ⊆ name :=
  subset_of_mem_splitOn (List.mem_filter.mp h).1

/-- A name that the advertiser accepts. -/
structure Accepted (name : Text) : Prop where
  printable : ∀ c ∈ name, isPrintable c = true
  fits : ∀ l ∈ wireLabels name, Fits l
  size : ((wireLabels name).map (·.length + 1)).sum ≤ 254

/-- A printable character is ASCII. -/
theorem toNat_lt_of_isPrintable {c : Char} (h : isPrintable c = true) : c.toNat < 0x80 := by
  unfold isPrintable at h
  rw [Bool.and_eq_true, decide_eq_true_eq, decide_eq_true_eq] at h
  have hle : c.toNat ≤ '~'.toNat := UInt32.le_iff_toNat_le.mp h.2
  exact Nat.lt_of_le_of_lt hle (by decide)

/-- No label of a name is empty on the wire. -/
private theorem ne_nil_of_mem_wireLabels {name : Text} {l : List UInt8} (h : l ∈ wireLabels name) :
    l ≠ [] := by
  obtain ⟨t, ht, rfl⟩ := List.mem_map.mp h
  have hne : t ≠ [] := by simpa using (List.mem_filter.mp ht).2
  have hlen := length_le_utf8 t
  have hpos := List.length_pos_iff.mpr hne
  exact List.ne_nil_of_length_pos (by omega)

/-- The check accepts just these names. -/
theorem accepted_iff (name : Text) : checkName name = .ok () ↔ Accepted name := by
  unfold checkName
  constructor
  · intro h
    split at h
    · cases h
    · rename_i hprint
      split_ifs at h with hlabel hsize
      simp only [List.any_eq_true, decide_eq_true_eq, not_exists, not_and, not_lt] at hlabel
      refine ⟨by simpa using List.find?_eq_none.mp hprint, fun l hl => ?_, by omega⟩
      exact ⟨ne_nil_of_mem_wireLabels hl, Nat.lt_succ_of_le (hlabel l hl)⟩
  · intro h
    have hprint : name.find? (!isPrintable ·) = none := by
      rw [List.find?_eq_none]
      intro c hc
      simp [h.printable c hc]
    have hlabel : (wireLabels name).any (63 < ·.length) = false := by
      rw [List.any_eq_false]
      intro l hl
      have := (h.fits l hl).2
      simp only [decide_eq_true_eq]
      omega
    have hsize := h.size
    rw [hprint]
    dsimp only
    rw [hlabel, if_neg (by simp), if_neg (by omega)]

/-- An accepted name is written as its labels. -/
theorem Accepted.dname {name : Text} (h : Accepted name) :
    dname name = .ok (wire (wireLabels name)) := by
  unfold Mdns.dname
  rw [(accepted_iff name).mpr h]
  rfl

/-- An accepted name takes 255 bytes at most. -/
theorem Accepted.length_wire_le {name : Text} (h : Accepted name) :
    (wire (wireLabels name)).length ≤ 255 := by
  rw [length_wire]
  have := h.size
  omega

/-- A record of it is written with its data. -/
theorem Accepted.rr {name : Text} (h : Accepted name) {rdata : List UInt8}
    (hdata : rdata.length ≤ 65535) (rtype rclass ttl : Nat) :
    rr name rtype rclass ttl rdata =
      .ok (record (wire (wireLabels name)) rtype rclass ttl rdata) := by
  unfold Mdns.rr
  rw [if_neg (by omega), h.dname]
  rfl

/-- The labels are read back from their bytes. -/
theorem map_wireLabels (name : Text) :
    (wireLabels name).map fromUtf8Lossy = labels name := by
  unfold wireLabels
  rw [List.map_map]
  conv_rhs => rw [← List.map_id (labels name)]
  exact List.map_congr_left fun l _ => fromUtf8Lossy_utf8 l

/-- The name of the service is one. -/
theorem accepted_service : Accepted service := by
  rw [← accepted_iff]
  decide

end Omdrop.Mdns
