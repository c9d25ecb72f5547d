import Mathlib
import Omdrop.Machine.Run

namespace Omdrop.Receiver

/-!
# The table of open connections

The receiver keeps one entry for every open connection, so that it can refuse a peer that
already holds its share, and close the connection that has waited longest for a handshake or a
request head when the table is full.  `admitPeer`, `setWaiting`, `forget` and `resetSessions` are
the four operations, each under the table's lock; the threads that call them may come in any
order, and with the ids of entries that are long gone.
-/

/-- The caps on open connections. -/
structure Limits where
  maxConnections : Nat
  maxPerPeer : Nat

/-- An open connection: its socket, its peer, and since when it waits for a handshake or a
    request head (`none` in the middle of a request). -/
structure Live (Ip Sock : Type) where
  sock : Sock
  ip : Ip
  waitingSince : Option Nat
  deriving DecidableEq

/-- The same connection, waiting from `now` on, or in the middle of a request. -/
def Live.mark {Ip Sock : Type} (waiting : Bool) (now : Nat) (entry : Live Ip Sock) :
    Live Ip Sock :=
  { entry with waitingSince := if waiting then some now else none }

@[simp] theorem Live.mark_ip {Ip Sock : Type} (waiting : Bool) (now : Nat)
    (entry : Live Ip Sock) : (entry.mark waiting now).ip = entry.ip := rfl

/-- The entries by id. -/
abbrev LiveMap (Ip Sock : Type) := AList fun _ : UInt64 => Live Ip Sock

/-- The server's share of the connections: the entries, and the next id to give out. -/
structure Table (Ip Sock : Type) where
  live : LiveMap Ip Sock
  nextId : UInt64

/-- Why a connection was turned away. -/
inductive Refusal (ε : Type)
  /-- Its socket could not be cloned. -/
  | cloneFailed (e : ε)
  /-- Its peer has as many connections as it may have. -/
  | peerFull (fromPeer : Nat)
  /-- Every connection is in the middle of a request. -/
  | allBusy (live : Nat)

/-- What `admitPeer` decided, and the entry it closed to make room. -/
inductive Admission (Ip Sock ε : Type)
  | refused (why : Refusal ε)
  | admitted (id : UInt64) (evicted : Option (UInt64 × Live Ip Sock))

/-- One call on the table, with the clock's reading. -/
inductive Op (Ip Sock ε : Type)
  | admitPeer (clone : Except ε Sock) (peer : Ip) (now : Nat)
  | setWaiting (id : UInt64) (waiting : Bool) (now : Nat)
  | forget (id : UInt64)
  | resetSessions

/-- What a call answers; `reset` names the sockets set to close with a reset. -/
inductive Answer (Ip Sock ε : Type)
  | admission (a : Admission Ip Sock ε)
  | done
  | reset (socks : List Sock)

variable {Ip Sock ε : Type}

/-! ### The operations -/

/-- Is this a connection of the peer? -/
def fromPeer [DecidableEq Ip] (live : LiveMap Ip Sock) (peer : Ip) : Nat :=
  live.entries.countP fun l => l.2.ip = peer

/-- The entries that wait, with the times they wait since. -/
def waiting (live : LiveMap Ip Sock) : List (Nat × UInt64) :=
  live.entries.filterMap fun l => l.2.waitingSince.map fun since => (since, l.1)

/-- The entry that has waited longest; of two that began together, the older. -/
def oldest (live : LiveMap Ip Sock) : Option (Nat × UInt64) :=
  (waiting live).minOn? fun w => toLex (w.1, w.2.toNat)

namespace Table

/-- No connections yet. -/
def empty : Table Ip Sock := ⟨∅, 0⟩

/-- Put a new entry under the next id. -/
def register (sock : Sock) (peer : Ip) (now : Nat) (t : Table Ip Sock) : Table Ip Sock :=
  { live := t.live.insert t.nextId ⟨sock, peer, some now⟩, nextId := t.nextId + 1 }

variable [DecidableEq Ip]

/-- Register a new connection, or refuse it: past the per-peer cap it is refused; past the total
    cap the connection that has waited longest is closed to make room, and only when every
    connection is in the middle of a request is the new one refused. -/
def admitPeer (limits : Limits) (clone : Except ε Sock) (peer : Ip) (now : Nat)
    (t : Table Ip Sock) : Table Ip Sock × Admission Ip Sock ε :=
  match clone with
  | .error e => (t, .refused (.cloneFailed e))
  | .ok sock =>
    if limits.maxPerPeer ≤ fromPeer t.live peer then
      (t, .refused (.peerFull (fromPeer t.live peer)))
    else if limits.maxConnections ≤ t.live.entries.length then
      match oldest t.live with
      | none             => (t, .refused (.allBusy t.live.entries.length))
      | some (_, victim) =>
        let made := { t with live := t.live.erase victim }
        (made.register sock peer now,
          .admitted t.nextId ((t.live.lookup victim).map fun old => (victim, old)))
    else (t.register sock peer now, .admitted t.nextId none)

/-- Drop an entry. -/
def forget (id : UInt64) (t : Table Ip Sock) : Table Ip Sock :=
  { t with live := t.live.erase id }

/-- Mark an entry as waiting from now on, or as in the middle of a request. -/
def setWaiting (id : UInt64) (waiting : Bool) (now : Nat) (t : Table Ip Sock) :
    Table Ip Sock :=
  match t.live.lookup id with
  | none       => t
  | some entry => { t with live := t.live.insert id (entry.mark waiting now) }

/-- Drop every entry, its socket set to close with a reset. -/
def resetSessions (t : Table Ip Sock) : Table Ip Sock × List Sock :=
  ({ t with live := ∅ }, t.live.entries.map fun l => l.2.sock)

end Table

/-- The table as the connection threads see it. -/
def table [DecidableEq Ip] (limits : Limits) :
    Machine (Table Ip Sock) (Op Ip Sock ε) (Answer Ip Sock ε) where
  step t
    | .admitPeer clone peer now      =>
      let r := t.admitPeer limits clone peer now
      (r.1, .admission r.2)
    | .setWaiting id waiting now => (t.setWaiting id waiting now, .done)
    | .forget id                 => (t.forget id, .done)
    | .resetSessions             => (t.resetSessions.1, .reset t.resetSessions.2)

/-! ### What waits -/

/-- Who waits is in the table with the time since when. -/
theorem mem_waiting {live : LiveMap Ip Sock} {since : Nat} {id : UInt64} :
    (since, id) ∈ waiting live ↔
      ∃ entry, live.lookup id = some entry ∧ entry.waitingSince = some since := by
  simp only [waiting, List.mem_filterMap, Option.map_eq_some_iff, Prod.mk.injEq]
  constructor
  · rintro ⟨⟨id', entry⟩, hmem, since', hsince, rfl, rfl⟩
    exact ⟨entry, AList.mem_lookup_iff.mpr hmem, hsince⟩
  · rintro ⟨entry, hlook, hsince⟩
    exact ⟨⟨id, entry⟩, AList.mem_lookup_iff.mp hlook, since, hsince, rfl, rfl⟩

/-- `entry` waits, and nothing in the table has waited longer. -/
def LongestWaiting (live : LiveMap Ip Sock) (entry : Live Ip Sock) : Prop :=
  ∃ since, entry.waitingSince = some since ∧
    ∀ id' entry' since', live.lookup id' = some entry' → entry'.waitingSince = some since' →
      since ≤ since'

/-- The oldest one has waited longest. -/
theorem longestWaiting_of_oldest {live : LiveMap Ip Sock} {since : Nat} {victim : UInt64}
    (h : oldest live = some (since, victim)) :
    ∃ entry, live.lookup victim = some entry ∧ LongestWaiting live entry := by
  obtain ⟨entry, hlook, hsince⟩ := mem_waiting.mp (List.minOn?_mem h)
  refine ⟨entry, hlook, since, hsince, fun id' entry' since' hlook' hsince' => ?_⟩
  have hmem : (since', id') ∈ waiting live := mem_waiting.mpr ⟨entry', hlook', hsince'⟩
  have hle := List.apply_minOn_le_of_mem (f := fun w : Nat × UInt64 => toLex (w.1, w.2.toNat)) hmem
  rw [List.minOn_eq_of_minOn?_eq_some h] at hle
  rcases Prod.Lex.le_iff.mp hle with hlt | ⟨heq, _⟩
  · exact hlt.le
  · exact heq.le

/-- Nobody is evicted only if nobody waits. -/
private theorem oldest_eq_none {live : LiveMap Ip Sock} :
    oldest live = none ↔
      ∀ id entry, live.lookup id = some entry → entry.waitingSince = none := by
  have hnil : oldest live = none ↔ waiting live = [] := by
    rw [← not_iff_not, ← ne_eq, ← ne_eq, Option.ne_none_iff_isSome]
    exact List.isSome_minOn?_iff
  rw [hnil, List.eq_nil_iff_forall_not_mem]
  constructor
  · intro h id entry hlook
    by_contra hne
    obtain ⟨since, hsince⟩ := Option.ne_none_iff_exists'.mp hne
    exact h (since, id) (mem_waiting.mpr ⟨entry, hlook, hsince⟩)
  · rintro h ⟨since, id⟩ hmem
    obtain ⟨entry, hlook, hsince⟩ := mem_waiting.mp hmem
    rw [h id entry hlook] at hsince
    simp at hsince

/-! ### What `admitPeer` can do -/

namespace Table

@[simp] theorem register_live (sock : Sock) (peer : Ip) (now : Nat) (t : Table Ip Sock) :
    (t.register sock peer now).live = t.live.insert t.nextId ⟨sock, peer, some now⟩ := rfl

@[simp] theorem register_nextId (sock : Sock) (peer : Ip) (now : Nat) (t : Table Ip Sock) :
    (t.register sock peer now).nextId = t.nextId + 1 := rfl

@[simp] theorem forget_live (id : UInt64) (t : Table Ip Sock) :
    (t.forget id).live = t.live.erase id := rfl

@[simp] theorem forget_nextId (id : UInt64) (t : Table Ip Sock) :
    (t.forget id).nextId = t.nextId := rfl

/-- **What `setWaiting` can do.**  Nothing, or give the entry of its id another mark. -/
theorem setWaiting_cases (id : UInt64) (waiting : Bool) (now : Nat) (t : Table Ip Sock) :
    (t.live.lookup id = none ∧ t.setWaiting id waiting now = t) ∨
    ∃ entry, t.live.lookup id = some entry ∧ t.setWaiting id waiting now =
      { t with live := t.live.insert id (entry.mark waiting now) } := by
  unfold setWaiting
  split
  · rename_i h
    exact .inl ⟨h, rfl⟩
  · rename_i entry h
    exact .inr ⟨entry, h, rfl⟩

variable [DecidableEq Ip]

/-- **What `admitPeer` can do.**  Refuse and change nothing, register in a table with room, or
    register in a full one in the place of the longest-waiting entry. -/
theorem admit_cases {limits : Limits} {clone : Except ε Sock} {peer : Ip} {now : Nat}
    {t t' : Table Ip Sock} {a : Admission Ip Sock ε}
    (h : t.admitPeer limits clone peer now = (t', a)) :
    (∃ why, a = .refused why ∧ t' = t ∧
      ((∃ e, clone = .error e) ∨ limits.maxPerPeer ≤ fromPeer t.live peer ∨
        limits.maxConnections ≤ t.live.entries.length ∧ oldest t.live = none)) ∨
    (∃ sock, clone = .ok sock ∧ fromPeer t.live peer < limits.maxPerPeer ∧
      ((t.live.entries.length < limits.maxConnections ∧ a = .admitted t.nextId none ∧
          t' = t.register sock peer now) ∨
        ∃ since victim, limits.maxConnections ≤ t.live.entries.length ∧
          oldest t.live = some (since, victim) ∧
          a = .admitted t.nextId ((t.live.lookup victim).map fun old => (victim, old)) ∧
          t' = { t with live := t.live.erase victim }.register sock peer now)) := by
  unfold admitPeer at h
  split at h
  · rename_i e
    cases h
    exact .inl ⟨_, rfl, rfl, .inl ⟨e, rfl⟩⟩
  · rename_i sock
    by_cases hpeer : limits.maxPerPeer ≤ fromPeer t.live peer
    · rw [if_pos hpeer] at h
      cases h
      exact .inl ⟨_, rfl, rfl, .inr (.inl hpeer)⟩
    · rw [if_neg hpeer] at h
      by_cases hfull : limits.maxConnections ≤ t.live.entries.length
      · rw [if_pos hfull] at h
        split at h
        · rename_i hold
          cases h
          exact .inl ⟨_, rfl, rfl, .inr (.inr ⟨hfull, hold⟩)⟩
        · rename_i since victim hold
          cases h
          exact .inr ⟨sock, rfl, not_le.mp hpeer, .inr ⟨since, victim, hfull, hold, rfl, rfl⟩⟩
      · rw [if_neg hfull] at h
        cases h
        exact .inr ⟨sock, rfl, not_le.mp hpeer, .inl ⟨not_le.mp hfull, rfl, rfl⟩⟩

/-- **Who is refused.** -/
theorem admit_refused_iff (limits : Limits) (clone : Except ε Sock) (peer : Ip) (now : Nat)
    (t : Table Ip Sock) :
    (∃ why, (t.admitPeer limits clone peer now).2 = .refused why) ↔
      (∃ e, clone = .error e) ∨ limits.maxPerPeer ≤ fromPeer t.live peer ∨
        limits.maxConnections ≤ t.live.entries.length ∧ oldest t.live = none := by
  rcases admit_cases (Prod.eta (t.admitPeer limits clone peer now)).symm with
    ⟨why, ha, _, hwhy⟩ | ⟨sock, rfl, hpeer, ⟨hroom, ha, _⟩ | ⟨since, victim, _, hold, ha, _⟩⟩
  · exact iff_of_true ⟨why, ha⟩ hwhy
  · refine iff_of_false (by rw [ha]; simp) ?_
    rintro (⟨e, he⟩ | hfull | ⟨hfull, _⟩)
    · simp at he
    · omega
    · omega
  · refine iff_of_false (by rw [ha]; simp) ?_
    rintro (⟨e, he⟩ | hfull | ⟨_, hnone⟩)
    · simp at he
    · omega
    · rw [hold] at hnone
      simp at hnone

end Table

/-! ### The caps -/

section Caps

/-- Where an entry stands, and what is left without it. -/
theorem entries_of_lookup {live : LiveMap Ip Sock} {id : UInt64} {entry : Live Ip Sock}
    (h : live.lookup id = some entry) :
    ∃ l₁ l₂, live.entries = l₁ ++ ⟨id, entry⟩ :: l₂ ∧ (live.erase id).entries = l₁ ++ l₂ := by
  have hmem : id ∈ live.entries.keys := AList.lookup_isSome.mp (by rw [h]; rfl)
  obtain ⟨b, l₁, l₂, _, hl, hk⟩ := List.exists_of_kerase hmem
  have hb : live.lookup id = some b := AList.mem_lookup_iff.mpr (by rw [hl]; simp)
  obtain rfl : entry = b := by simpa using h.symm.trans hb
  exact ⟨l₁, l₂, hl, hk⟩

/-- Taking an entry out leaves no more. -/
theorem length_erase_le (live : LiveMap Ip Sock) (id : UInt64) :
    (live.erase id).entries.length ≤ live.entries.length :=
  (List.kerase_sublist id live.entries).length_le

/-- A new entry comes first, and replaces one of the same number. -/
theorem entries_insert (live : LiveMap Ip Sock) (id : UInt64) (entry : Live Ip Sock) :
    (live.insert id entry).entries = ⟨id, entry⟩ :: (live.erase id).entries := rfl

/-- A new entry makes one more at most. -/
private theorem length_insert_le (live : LiveMap Ip Sock) (id : UInt64) (entry : Live Ip Sock) :
    (live.insert id entry).entries.length ≤ live.entries.length + 1 := by
  rw [entries_insert, List.length_cons]
  exact Nat.add_le_add_right (length_erase_le live id) 1

/-- Writing over an entry makes no new one. -/
private theorem length_insert_of_lookup {live : LiveMap Ip Sock} {id : UInt64}
    {entry : Live Ip Sock}
    (h : live.lookup id = some entry) (entry' : Live Ip Sock) :
    (live.insert id entry').entries.length = live.entries.length := by
  obtain ⟨l₁, l₂, hl, hk⟩ := entries_of_lookup h
  rw [entries_insert, hk, hl, List.length_cons, List.length_append, List.length_append,
    List.length_cons, Nat.add_assoc]

variable [DecidableEq Ip]

/-- Without an entry there are at most as many from each peer. -/
theorem fromPeer_erase_le (live : LiveMap Ip Sock) (id : UInt64) (peer : Ip) :
    fromPeer (live.erase id) peer ≤ fromPeer live peer :=
  (List.kerase_sublist id live.entries).countP_le

/-- A new entry counts once, for its own peer. -/
private theorem fromPeer_insert_le (live : LiveMap Ip Sock) (id : UInt64) (entry : Live Ip Sock)
    (peer : Ip) : fromPeer (live.insert id entry) peer ≤
      fromPeer live peer + if entry.ip = peer then 1 else 0 := by
  have h := fromPeer_erase_le live id peer
  simp only [fromPeer, entries_insert, List.countP_cons, decide_eq_true_eq]
  exact Nat.add_le_add_right h _

/-- Another mark leaves an entry with its peer. -/
private theorem fromPeer_insert_mark {live : LiveMap Ip Sock} {id : UInt64} {entry : Live Ip Sock}
    (h : live.lookup id = some entry) (waiting : Bool) (now : Nat) (peer : Ip) :
    fromPeer (live.insert id (entry.mark waiting now)) peer = fromPeer live peer := by
  obtain ⟨l₁, l₂, hl, hk⟩ := entries_of_lookup h
  rw [fromPeer, fromPeer, entries_insert, hk, hl, List.countP_cons, List.countP_append,
    List.countP_append, List.countP_cons]
  exact Nat.add_assoc ..

/-- The caps hold. -/
structure WithinCaps (limits : Limits) (t : Table Ip Sock) : Prop where
  total : t.live.entries.length ≤ limits.maxConnections
  perPeer : ∀ peer, fromPeer t.live peer ≤ limits.maxPerPeer

/-- The empty table is within the caps. -/
theorem WithinCaps.empty (limits : Limits) : WithinCaps limits (Table.empty : Table Ip Sock) :=
  ⟨Nat.zero_le _, fun _ => Nat.zero_le _⟩

/-- A table with room for one more connection keeps the caps when one is registered. -/
theorem WithinCaps.register {limits : Limits} {t : Table Ip Sock} (h : WithinCaps limits t)
    {sock : Sock} {peer : Ip} {now : Nat} (hroom : t.live.entries.length < limits.maxConnections)
    (hpeer : fromPeer t.live peer < limits.maxPerPeer) :
    WithinCaps limits (t.register sock peer now) where
  total := (length_insert_le ..).trans hroom
  perPeer p := by
    refine (fromPeer_insert_le ..).trans ?_
    split
    · rename_i hp
      exact hp ▸ hpeer
    · exact h.perPeer p

/-- Forgetting a connection keeps the caps. -/
theorem WithinCaps.forget {limits : Limits} {t : Table Ip Sock} (h : WithinCaps limits t)
    (id : UInt64) : WithinCaps limits (t.forget id) where
  total := (length_erase_le ..).trans h.total
  perPeer p := (fromPeer_erase_le ..).trans (h.perPeer p)

/-- Waiting or not, a connection counts as one. -/
theorem WithinCaps.setWaiting {limits : Limits} {t : Table Ip Sock} (h : WithinCaps limits t)
    (id : UInt64) (waiting : Bool) (now : Nat) :
    WithinCaps limits (t.setWaiting id waiting now) := by
  rcases t.setWaiting_cases id waiting now with ⟨_, heq⟩ | ⟨entry, hlook, heq⟩
  · rwa [heq]
  · rw [heq]
    exact ⟨(length_insert_of_lookup hlook _).trans_le h.total,
      fun p => (fromPeer_insert_mark hlook ..).trans_le (h.perPeer p)⟩

/-- Admitting a peer keeps the caps. -/
theorem WithinCaps.admitPeer {limits : Limits} {t : Table Ip Sock} (h : WithinCaps limits t)
    (clone : Except ε Sock) (peer : Ip) (now : Nat) :
    WithinCaps limits (t.admitPeer limits clone peer now).1 := by
  rcases Table.admit_cases (Prod.eta (t.admitPeer limits clone peer now)).symm with
    ⟨_, _, ht, _⟩ | ⟨sock, rfl, hpeer, ⟨hroom, _, ht⟩ | ⟨since, victim, hfull, hold, _, ht⟩⟩
  · rwa [ht]
  · rw [ht]
    exact h.register hroom hpeer
  · obtain ⟨entry, hlook, _⟩ := longestWaiting_of_oldest hold
    obtain ⟨l₁, l₂, hl, hk⟩ := entries_of_lookup hlook
    have hmade : ({ t with live := t.live.erase victim } : Table Ip Sock) = t.forget victim := rfl
    rw [ht, hmade]
    refine (h.forget victim).register ?_ ((fromPeer_erase_le ..).trans_lt hpeer)
    have := h.total
    simp only [Table.forget_live, hk, hl, List.length_append, List.length_cons] at this ⊢
    omega

/-- **The caps are inductive.** -/
theorem withinCaps_keeps (limits : Limits) :
    (table limits : Machine (Table Ip Sock) (Op Ip Sock ε) _).Keeps (WithinCaps limits) := by
  intro t op h
  cases op with
  | admitPeer clone peer now => exact h.admitPeer clone peer now
  | setWaiting id waiting now => exact h.setWaiting id waiting now
  | forget id => exact h.forget id
  | resetSessions => exact ⟨Nat.zero_le _, fun _ => Nat.zero_le _⟩

end Caps

/-! ### The ids

Ids are given out in order, so an id in the table is one that was given out, and an id that has
left the table does not come back: until the counter comes round to zero. -/

/-- A connection was admitted. -/
def Answer.isAdmitted : Answer Ip Sock ε → Bool
  | .admission (.admitted _ _) => true
  | _                          => false

section Ids

variable [DecidableEq Ip]

/-- **What a step does to the ids.**  A connection that is admitted takes the next one; nothing
    else comes into the table. -/
theorem step_ids (limits : Limits) (t : Table Ip Sock) (op : Op Ip Sock ε) :
    (((table limits).step t op).2.isAdmitted = false ∧
      ((table limits).step t op).1.nextId = t.nextId ∧
      ∀ id ∈ ((table limits).step t op).1.live, id ∈ t.live) ∨
    (((table limits).step t op).2.isAdmitted = true ∧
      ((table limits).step t op).1.nextId = t.nextId + 1 ∧
      ∀ id ∈ ((table limits).step t op).1.live, id = t.nextId ∨ id ∈ t.live) := by
  cases op with
  | admitPeer clone peer now =>
    simp only [table]
    rcases Table.admit_cases (Prod.eta (t.admitPeer limits clone peer now)).symm with
      ⟨why, ha, ht, _⟩ | ⟨sock, rfl, _, ⟨_, ha, ht⟩ | ⟨since, victim, _, _, ha, ht⟩⟩
    · rw [ha, ht]
      exact .inl ⟨rfl, rfl, fun _ h => h⟩
    · rw [ha, ht]
      exact .inr ⟨rfl, rfl, fun id h => by simpa using h⟩
    · rw [ha, ht]
      refine .inr ⟨rfl, rfl, fun id h => ?_⟩
      have := AList.mem_insert _ |>.mp h
      exact this.imp_right fun h => (AList.mem_erase.mp h).2
  | setWaiting id waiting now =>
    simp only [table]
    rcases t.setWaiting_cases id waiting now with ⟨_, heq⟩ | ⟨entry, hlook, heq⟩
    · rw [heq]
      exact .inl ⟨rfl, rfl, fun _ h => h⟩
    · rw [heq]
      refine .inl ⟨rfl, rfl, fun id' h => ?_⟩
      rcases AList.mem_insert _ |>.mp h with rfl | h
      · exact AList.lookup_isSome.mp (by rw [hlook]; rfl)
      · exact h
  | forget id => exact .inl ⟨rfl, rfl, fun _ h => (AList.mem_erase.mp h).2⟩
  | resetSessions => exact .inl ⟨rfl, rfl, fun _ h => absurd h (AList.notMem_empty _)⟩

/-- `n` connections have been admitted, and the ids in the table are some of theirs. -/
structure Issued (n : Nat) (t : Table Ip Sock) : Prop where
  nextId_eq : t.nextId = UInt64.ofNat n
  live_lt : n ≤ 2 ^ 64 → ∀ id ∈ t.live, id.toNat < n

/-- A number below 2^64 fits. -/
theorem toNat_ofNat_of_lt {n : Nat} (h : n < 2 ^ 64) : (UInt64.ofNat n).toNat = n := by
  rw [UInt64.toNat_ofNat', Nat.mod_eq_of_lt h]

/-- Each admission takes the next number. -/
theorem issued_counts (limits : Limits) :
    (table limits : Machine (Table Ip Sock) (Op Ip Sock ε) _).Counts Answer.isAdmitted Issued := by
  intro n t op h
  rcases step_ids limits t op with ⟨ha, hn, hlive⟩ | ⟨ha, hn, hlive⟩
  · rw [ha]
    exact ⟨hn.trans h.nextId_eq, fun hle id hid => h.live_lt hle id (hlive id hid)⟩
  · rw [ha]
    refine ⟨by rw [hn, h.nextId_eq]; simp, fun hle id hid => ?_⟩
    simp only [Bool.toNat_true] at hle ⊢
    rcases hlive id hid with rfl | hid
    · rw [h.nextId_eq, toNat_ofNat_of_lt (by omega)]
      omega
    · have := h.live_lt (by omega) id hid
      omega

/-- `id` was given out and has left the table. -/
structure Gone (id : UInt64) (n : Nat) (t : Table Ip Sock) : Prop where
  nextId_eq : t.nextId = UInt64.ofNat n
  issued : id.toNat < n
  absent : n ≤ 2 ^ 64 → id ∉ t.live

/-- An id that has left the table stays away. -/
private theorem gone_counts (limits : Limits) (id : UInt64) :
    (table limits : Machine (Table Ip Sock) (Op Ip Sock ε) _).Counts Answer.isAdmitted
      (Gone id) := by
  intro n t op h
  rcases step_ids limits t op with ⟨ha, hn, hlive⟩ | ⟨ha, hn, hlive⟩
  · rw [ha]
    exact ⟨hn.trans h.nextId_eq, h.issued, fun hle hid => h.absent hle (hlive id hid)⟩
  · rw [ha]
    refine ⟨by rw [hn, h.nextId_eq]; simp, h.issued.trans_le (Nat.le_add_right ..), ?_⟩
    intro hle hid
    simp only [Bool.toNat_true] at hle
    rcases hlive id hid with rfl | hid
    · have := h.issued
      rw [h.nextId_eq, toNat_ofNat_of_lt (by omega)] at this
      omega
    · exact h.absent (by omega) hid

/-- **What a step does to an entry.**  It stays as it is, gets the mark meant for it, is
    forgotten, is reset, or gives way in a full table as the one that has waited longest. -/
theorem lookup_step (limits : Limits) {t : Table Ip Sock} (op : Op Ip Sock ε) {id : UInt64}
    {entry : Live Ip Sock} (h : t.live.lookup id = some entry)
    (hid : ((table limits).step t op).2.isAdmitted = true → id ≠ t.nextId) :
    ((table limits).step t op).1.live.lookup id = some entry ∨
    (∃ waiting now, op = .setWaiting id waiting now ∧
      ((table limits).step t op).1.live.lookup id = some (entry.mark waiting now)) ∨
    op = .forget id ∨ op = .resetSessions ∨
    (∃ clone peer now, op = .admitPeer clone peer now ∧
      limits.maxConnections ≤ t.live.entries.length ∧ LongestWaiting t.live entry ∧
      ((table limits).step t op).1.live.lookup id = none) := by
  cases op with
  -- only where the table is full one makes room, and it has waited longest
  | admitPeer clone peer now =>
    simp only [table] at hid ⊢
    rcases Table.admit_cases (Prod.eta (t.admitPeer limits clone peer now)).symm with
      ⟨why, ha, ht, _⟩ | ⟨sock, rfl, _, ⟨_, ha, ht⟩ | ⟨since, victim, hfull, hold, ha, ht⟩⟩
    · rw [ht]
      exact .inl h
    · rw [ha] at hid
      rw [ht, Table.register_live, AList.lookup_insert_ne (hid rfl)]
      exact .inl h
    · rw [ha] at hid
      rw [ht, Table.register_live, AList.lookup_insert_ne (hid rfl)]
      by_cases hv : id = victim
      · subst hv
        obtain ⟨entry', hlook, hlong⟩ := longestWaiting_of_oldest hold
        obtain rfl : entry = entry' := by simpa using h.symm.trans hlook
        exact .inr (.inr (.inr (.inr ⟨_, _, _, rfl, hfull, hlong, AList.lookup_erase ..⟩)))
      · exact .inl ((AList.lookup_erase_ne hv).trans h)
  -- a mark on this entry or on another
  | setWaiting id' waiting now =>
    simp only [table]
    rcases t.setWaiting_cases id' waiting now with ⟨_, heq⟩ | ⟨entry', hlook, heq⟩
    · rw [heq]
      exact .inl h
    · rw [heq]
      by_cases hi : id = id'
      · subst hi
        obtain rfl : entry = entry' := by simpa using h.symm.trans hlook
        exact .inr (.inl ⟨waiting, now, rfl, AList.lookup_insert _⟩)
      · exact .inl ((AList.lookup_insert_ne hi).trans h)
  | forget id' =>
    by_cases hi : id = id'
    · exact .inr (.inr (.inl (hi ▸ rfl)))
    · exact .inl ((AList.lookup_erase_ne hi).trans h)
  | resetSessions => exact .inr (.inr (.inr (.inl rfl)))

/-- A call about an entry that is not there does nothing. -/
private theorem step_of_absent (limits : Limits) {t : Table Ip Sock} {op : Op Ip Sock ε}
    {id : UInt64}
    (h : id ∉ t.live)
    (hop : op = .forget id ∨ ∃ waiting now, op = .setWaiting id waiting now) :
    ((table limits).step t op).1 = t := by
  rcases hop with rfl | ⟨waiting, now, rfl⟩
  · have herase : t.live.erase id = t.live :=
      AList.ext (List.kerase_of_notMem_keys h)
    simp only [table, Table.forget, herase]
  · rcases t.setWaiting_cases id waiting now with ⟨_, heq⟩ | ⟨entry, hlook, _⟩
    · exact heq
    · exact absurd (AList.lookup_isSome.mp (by rw [hlook]; rfl)) h

/-- **The connection table is safe.**  Whatever calls were made in whatever order, as long as no
    more than `2 ^ 64` connections were admitted: the caps hold; a call takes from an entry at
    most its mark, unless it forgets or resets it, or evicts it from a full table as the one
    that has waited longest; a connection is refused for the reasons given and no others; and
    calls about an entry that has left change nothing. -/
theorem connection_table_safe (limits : Limits) (ops : List (Op Ip Sock ε)) (op : Op Ip Sock ε)
    (hids : ((table limits).answers .empty (ops ++ [op])).countP Answer.isAdmitted ≤ 2 ^ 64) :
    let t := (table limits).run .empty ops
    let t' := ((table limits).step t op).1
    (t.live.entries.length ≤ limits.maxConnections ∧
      ∀ peer, fromPeer t.live peer ≤ limits.maxPerPeer) ∧
    (∀ id entry, t.live.lookup id = some entry →
      t'.live.lookup id = some entry ∨
      (∃ waiting now, op = .setWaiting id waiting now ∧
        t'.live.lookup id = some (entry.mark waiting now)) ∨
      op = .forget id ∨ op = .resetSessions ∨
      (∃ clone peer now, op = .admitPeer clone peer now ∧
        limits.maxConnections ≤ t.live.entries.length ∧ LongestWaiting t.live entry ∧
        t'.live.lookup id = none)) ∧
    (∀ clone peer now, op = .admitPeer clone peer now →
      ((∃ why, ((table limits).step t op).2 = .admission (.refused why)) ↔
        (∃ e, clone = .error e) ∨ limits.maxPerPeer ≤ fromPeer t.live peer ∨
          limits.maxConnections ≤ t.live.entries.length ∧
            ∀ id entry, t.live.lookup id = some entry → entry.waitingSince = none)) ∧
    (∀ pre mid post id, ops = pre ++ mid ++ post →
      id ∈ ((table limits).run .empty pre).live →
      id ∉ ((table limits).run .empty (pre ++ mid)).live →
      (op = .forget id ∨ ∃ waiting now, op = .setWaiting id waiting now) → t' = t) := by
  intro t t'
  have hempty : Issued 0 (Table.empty : Table Ip Sock) :=
    ⟨rfl, fun _ id hid => absurd hid (AList.notMem_empty id)⟩
  have hcaps : WithinCaps limits t := (withinCaps_keeps limits).run (.empty limits) ops
  have hissued := (issued_counts limits).run hempty ops
  rw [Machine.answers_append, List.countP_append] at hids
  refine ⟨⟨hcaps.total, hcaps.perPeer⟩, fun id entry hlook => ?_, ?_, ?_⟩
  · refine lookup_step limits op hlook fun hadm hid => ?_
    -- a connection admitted now has an id that no entry has
    have hlt := hissued.live_lt (by omega) id (AList.lookup_isSome.mp (by rw [hlook]; rfl))
    have hone : ((table limits).answers ((table limits).run .empty ops) [op]).countP
        Answer.isAdmitted = 1 := by
      rw [Machine.answers_cons, Machine.answers_nil, List.countP_singleton, if_pos hadm]
    rw [hid, show t.nextId = _ from hissued.nextId_eq, toNat_ofNat_of_lt (by omega)] at hlt
    omega
  · rintro clone peer now rfl
    rw [← oldest_eq_none, ← Table.admit_refused_iff]
    simp only [table, Answer.admission.injEq]
    exact Iff.rfl
  · rintro pre mid post id rfl hpre hmid hop
    have h₁ := (issued_counts limits).run hempty pre
    have h₂ := (issued_counts limits).run hempty (pre ++ mid)
    rw [Machine.answers_append, Machine.answers_append, List.countP_append,
      List.countP_append] at hids
    rw [Machine.answers_append, List.countP_append] at h₂
    have hlt := h₁.live_lt (by omega) id hpre
    have hgone := (gone_counts limits id).run ⟨h₂.nextId_eq, by omega, fun _ => hmid⟩ post
    rw [← Machine.run_append] at hgone
    exact step_of_absent limits (hgone.absent (by omega)) hop

end Ids

/-- Two peers, room for one connection each and one in all: the second evicts the first. -/
theorem connection_table_safe_evicting :
    let limits : Limits := ⟨1, 1⟩
    let t : Table Bool Unit := (table (ε := Unit) limits).run .empty [.admitPeer (.ok ()) false 3]
    let t' := ((table (ε := Unit) limits).step t (.admitPeer (.ok ()) true 5)).1
    t.live.entries.length ≤ 1 ∧ t.live.lookup 0 = some ⟨(), false, some 3⟩ ∧
      t'.live.lookup 0 = none := by
  intro limits t t'
  have h := connection_table_safe limits [.admitPeer (.ok ()) false 3]
    (.admitPeer (.ok ()) true 5 : Op Bool Unit Unit) (by decide +kernel)
  have hlook : t.live.lookup 0 = some ⟨(), false, some 3⟩ := by decide +kernel
  refine ⟨h.1.1, hlook, ?_⟩
  rcases h.2.1 0 _ hlook with hkept | ⟨_, _, hop, _⟩ | hop | hop | ⟨_, _, _, _, _, _, hgone⟩
  · exact absurd hkept (by decide +kernel)
  · simp at hop
  · simp at hop
  · simp at hop
  · exact hgone

/-- After an upload began on the first connection and `k` others came and went, the counter has
    moved on by as many. -/
private theorem exists_run_nextId (k : Nat) (hk : k < 2 ^ 64) :
    ∃ ops : List (Op Unit Unit Unit), (table ⟨2, 2⟩).run .empty ops =
      { live := AList.singleton 0 ⟨(), (), none⟩, nextId := UInt64.ofNat (1 + k) } := by
  induction k with
  | zero => exact ⟨[.admitPeer (.ok ()) () 0, .setWaiting 0 false 1], rfl⟩
  | succ k ih =>
    obtain ⟨ops, hops⟩ := ih (by omega)
    have hne : UInt64.ofNat (1 + k) ≠ 0 := by
      intro h0
      have := congrArg UInt64.toNat h0
      rw [toNat_ofNat_of_lt (by omega)] at this
      simp at this
    refine ⟨ops ++ [.admitPeer (.ok ()) () 2, .forget (UInt64.ofNat (1 + k))], ?_⟩
    have hsucc : UInt64.ofNat (1 + (k + 1)) = UInt64.ofNat (1 + k) + 1 := by
      rw [← Nat.add_assoc, UInt64.ofNat_add]
      rfl
    rw [Machine.run_append, hops, hsucc]
    generalize UInt64.ofNat (1 + k) = n at hne
    simp [table, Table.admitPeer, Table.register, Table.forget, fromPeer, AList.erase, AList.insert,
      AList.singleton, hne, List.kinsert_def]

/-- A connection whose socket cannot be cloned is refused by an empty table, and once `2 ^ 64`
    connections have been admitted a new one takes the place of the first, in the middle of its
    upload and with room to spare. -/
theorem connection_table_exceptions :
    (∃ why, ((table ⟨1, 1⟩).step (.empty : Table Unit Unit) (.admitPeer (.error ()) () 0)).2 =
      .admission (.refused why)) ∧
    (∃ ops : List (Op Unit Unit Unit),
      let t := (table ⟨2, 2⟩).run .empty ops
      t.live.entries.length = 1 ∧ t.live.lookup 0 = some ⟨(), (), none⟩ ∧
        ((table ⟨2, 2⟩).step t (.admitPeer (.ok ()) () 7 : Op Unit Unit Unit)).1.live.lookup 0 =
          some ⟨(), (), some 7⟩) := by
  refine ⟨⟨.cloneFailed (), rfl⟩, ?_⟩
  obtain ⟨ops, hops⟩ := exists_run_nextId (2 ^ 64 - 1) (by omega)
  refine ⟨ops, ?_⟩
  rw [hops]
  have hzero : UInt64.ofNat (1 + (2 ^ 64 - 1)) = 0 := by decide +kernel
  rw [hzero]
  exact ⟨rfl, rfl, rfl⟩

end Omdrop.Receiver
