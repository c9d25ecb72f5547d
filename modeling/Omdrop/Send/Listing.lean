import Omdrop.Send.Heard
import Omdrop.Text.Json

namespace Omdrop.Send

open Omdrop.Text

/-!
# The listing of nearby peers

`list` is what is printed for the peers heard.  With names, every peer is asked what it is called,
all of them at once, and the table is read again while they are; a `Lookup` is how far that has
come.

The listing is read back by another program, line by line.  `rows_list_iff` says for which names
it reads what was listed.
-/

/-- One turn of a lookup: the answers that have come in, and the table if it was read again. -/
structure Turn where
  got : List (Mac × Option Text)
  rescan : Option Peers

/-- A lookup under way: who was asked, who of them is still to answer and how many they are, the
    answers in the order in which they came, the readings, and what was printed. -/
structure Lookup where
  asked : List Mac
  running : List Mac
  pending : Nat
  results : List (Mac × Option Text)
  rssiOf : List (Mac × Option Int)
  out : Text

namespace Lookup

/-- A peer is asked, unless it was. -/
def ask (s : Lookup) (mac : Mac) : Lookup :=
  if mac ∈ s.asked then s
  else { s with
    asked := s.asked ++ [mac]
    running := s.running ++ [mac]
    pending := s.pending + 1 }

/-- A reading is kept, unless there is one. -/
def orInsert (rssiOf : List (Mac × Option Int)) (e : Mac × Option Int) : List (Mac × Option Int) :=
  if (rssiOf.lookup e.1).isSome then rssiOf else rssiOf ++ [e]

/-- The table is read again: the newcomers are asked. -/
def rescan (s : Lookup) (now : Peers) : Lookup :=
  now.macs.foldl ask { s with rssiOf := now.entries.foldl orInsert s.rssiOf }

/-- A peer's line as the lookup has it. -/
def line (s : Lookup) (port : Nat) (mac : Mac) (got : Option Text) : Text :=
  row port mac.text (s.rssiOf.lookup mac).join got true

/-- An answer comes in, from a peer that has yet to give one. -/
def answered (port : Nat) (stream : Bool) (s : Lookup) (a : Mac × Option Text) : Option Lookup :=
  if a.1 ∈ s.running then
    some { s with
      running := s.running.erase a.1
      pending := s.pending - 1
      results := s.results ++ [a]
      out := if stream then s.out ++ (s.line port a.1 a.2 ++ ['\n']) else s.out }
  else none

/-- One turn of the lookup's loop. -/
def turn (port : Nat) (stream : Bool) (s : Lookup) (t : Turn) : Option Lookup := do
  let s ← t.got.foldlM (answered port stream) s
  match t.rescan with
  | some now => some (s.rescan now)
  | none     => some s

/-- The lookup, turn by turn, until everybody has answered. -/
def peerNames (port : Nat) (stream : Bool) (s : Lookup) : List Turn → Option Lookup
  | []      => if s.pending = 0 then some s else none
  | t :: ts => if s.pending = 0 then none else do peerNames port stream (← s.turn port stream t) ts

/-- A lookup of the peers heard, as it starts. -/
def start (heard : Peers) : Lookup :=
  heard.macs.foldl ask ⟨[], [], 0, [], heard.entries, []⟩

end Lookup

def noDevices : Text :=
  "no devices found: nothing nearby is advertising. ".toList ++
    "A window has to be open for the peer watcher to fill this.".toList

/-- What is listed for the peers heard, when their names were looked up in those turns. -/
def list (port : Nat) (names stream : Bool) (heard : Peers) (turns : List Turn) : Option Text :=
  if heard.entries = [] ∨ !names then
    -- nobody is asked
    if turns ≠ [] then none
    else if heard.entries = [] then some (noDevices ++ ['\n'])
    else some (unlines (heard.entries.map fun e => row port e.1.text e.2 none false))
  else do
    let s ← (Lookup.start heard).peerNames port stream turns
    if stream then some s.out
    else
      -- the last answer of a peer is the one that counts
      let named (mac : Mac) := (s.results.reverse.lookup mac).join
      let order := heard.macs ++ (s.results.map Prod.fst).filter (· ∉ heard.macs)
      some (unlines (order.map fun mac => s.line port mac (named mac)))

/-! ### What a lookup has come to -/

namespace Lookup

variable {port : Nat} {stream : Bool} {s s' : Lookup}

/-- Nobody was asked twice, and those asked are those that answered and those still to answer. -/
structure Asking (s : Lookup) : Prop where
  nodup : s.asked.Nodup
  perm : (s.results.map Prod.fst ++ s.running).Perm s.asked
  pending : s.pending = s.running.length

theorem Asking.ask (h : s.Asking) (mac : Mac) : (s.ask mac).Asking := by
  unfold Lookup.ask
  split_ifs with hmem
  · exact h
  · refine ⟨?_, ?_, ?_⟩
    · show (s.asked ++ [mac]).Nodup
      rw [← List.concat_eq_append, List.nodup_concat]
      exact ⟨hmem, h.nodup⟩
    · show (s.results.map Prod.fst ++ (s.running ++ [mac])).Perm (s.asked ++ [mac])
      rw [← List.append_assoc]
      exact h.perm.append_right _
    · show s.pending + 1 = (s.running ++ [mac]).length
      rw [h.pending, List.length_append, List.length_singleton]

theorem Asking.foldl (h : s.Asking) (macs : List Mac) : (macs.foldl Lookup.ask s).Asking := by
  induction macs generalizing s with
  | nil => exact h
  | cons mac macs ih => exact ih (h.ask mac)

/-- Asking changes neither the answers nor the readings nor what was printed. -/
theorem foldl_ask (macs : List Mac) (s : Lookup) :
    (macs.foldl ask s).results = s.results ∧ (macs.foldl ask s).rssiOf = s.rssiOf ∧
      (macs.foldl ask s).out = s.out := by
  induction macs generalizing s with
  | nil => exact ⟨rfl, rfl, rfl⟩
  | cons mac macs ih =>
    rw [List.foldl_cons]
    obtain ⟨hresults, hrssi, hout⟩ := ih (s.ask mac)
    rw [hresults, hrssi, hout]
    unfold ask
    split_ifs <;> exact ⟨rfl, rfl, rfl⟩

/-- Whoever is named has been asked. -/
theorem mem_asked_foldl {macs : List Mac} {mac : Mac} :
    mac ∈ (macs.foldl ask s).asked ↔ mac ∈ s.asked ∨ mac ∈ macs := by
  induction macs generalizing s with
  | nil => simp
  | cons m macs ih =>
    have hask : mac ∈ (s.ask m).asked ↔ mac ∈ s.asked ∨ mac = m := by
      unfold ask
      split_ifs with hm
      · constructor
        · exact .inl
        · rintro (h | rfl)
          · exact h
          · exact hm
      · simp
    rw [List.foldl_cons, ih, hask, List.mem_cons, or_assoc]

/-- The first reading of a peer is the one that is kept. -/
private theorem lookup_foldl_orInsert (now rssiOf : List (Mac × Option Int)) (mac : Mac) :
    (now.foldl orInsert rssiOf).lookup mac = (rssiOf ++ now).lookup mac := by
  induction now generalizing rssiOf with
  | nil => rw [List.foldl_nil, List.append_nil]
  | cons e now ih =>
    rw [List.foldl_cons, ih]
    unfold orInsert
    split_ifs with hold
    · rw [List.lookup_append, List.lookup_append, List.lookup_cons]
      by_cases he : mac = e.1
      · obtain ⟨r, hr⟩ := Option.isSome_iff_exists.mp (he ▸ hold)
        rw [hr]
        rfl
      · rw [beq_eq_false_iff_ne.mpr he]
    · rw [List.append_assoc]
      rfl

/-- A lookup that has had those readings, first to last, and those answers. -/
structure Going (port : Nat) (stream : Bool) (rs : List (Mac × Option Int))
    (as : List (Mac × Option Text)) (s : Lookup) : Prop where
  asking : s.Asking
  asked : ∀ mac, mac ∈ s.asked ↔ mac ∈ rs.map Prod.fst
  rssi : ∀ mac, s.rssiOf.lookup mac = rs.lookup mac
  results : s.results = as
  out : s.out = if stream then unlines (as.map fun a => s.line port a.1 a.2) else []

/-- A reading that is there stays. -/
private theorem lookup_append_of_mem {rs now : List (Mac × Option Int)} {mac : Mac}
    (h : mac ∈ rs.map Prod.fst) : (rs ++ now).lookup mac = rs.lookup mac := by
  rw [List.lookup_append]
  cases hr : rs.lookup mac with
  | some r => rfl
  | none =>
    obtain ⟨e, he, rfl⟩ := List.mem_map.mp h
    simpa using List.lookup_eq_none_iff.mp hr e he

variable {rs : List (Mac × Option Int)} {as : List (Mac × Option Text)}

/-- Everybody who answered has been asked. -/
theorem Going.mem_asked (h : Going port stream rs as s) {a : Mac × Option Text} (ha : a ∈ as) :
    a.1 ∈ s.asked := by
  apply h.asking.perm.subset
  rw [h.results]
  exact List.mem_append_left _ (List.mem_map_of_mem ha)

theorem going_start (port : Nat) (stream : Bool) (heard : Peers) :
    Going port stream heard.entries [] (start heard) := by
  have hempty : Asking ⟨[], [], 0, [], heard.entries, []⟩ := ⟨List.nodup_nil, .refl _, rfl⟩
  obtain ⟨hresults, hrssi, hout⟩ := foldl_ask heard.macs ⟨[], [], 0, [], heard.entries, []⟩
  refine ⟨hempty.foldl _, fun mac => ?_, fun mac => ?_, hresults, ?_⟩
  · show mac ∈ (heard.macs.foldl ask _).asked ↔ mac ∈ heard.macs
    rw [mem_asked_foldl]
    simp
  · show (heard.macs.foldl ask _).rssiOf.lookup mac = _
    rw [hrssi]
  · show (heard.macs.foldl ask _).out = _
    rw [hout]
    split_ifs <;> rfl

/-- **Step lemma: an answer.** -/
theorem Going.answered (h : Going port stream rs as s) {a : Mac × Option Text}
    (ha : s.answered port stream a = some s') : Going port stream rs (as ++ [a]) s' := by
  unfold Lookup.answered at ha
  by_cases hmem : a.1 ∈ s.running
  swap
  · rw [if_neg hmem] at ha
    cases ha
  rw [if_pos hmem] at ha
  obtain rfl := Option.some.inj ha
  refine ⟨⟨h.asking.nodup, ?_, ?_⟩, h.asked, h.rssi, ?_, ?_⟩
  · show ((s.results ++ [a]).map Prod.fst ++ s.running.erase a.1).Perm s.asked
    rw [List.map_append, List.append_assoc]
    exact ((List.perm_cons_erase hmem).symm.append_left _).trans h.asking.perm
  · show s.pending - 1 = (s.running.erase a.1).length
    rw [List.length_erase_of_mem hmem, h.asking.pending]
  · show s.results ++ [a] = as ++ [a]
    rw [h.results]
  · show (if stream then s.out ++ (s.line port a.1 a.2 ++ ['\n']) else s.out) =
      if stream then unlines ((as ++ [a]).map fun a => s.line port a.1 a.2) else []
    rw [h.out]
    split_ifs
    · simp [unlines]
    · rfl

theorem Going.answers (h : Going port stream rs as s) {got : List (Mac × Option Text)}
    (hgot : got.foldlM (Lookup.answered port stream) s = some s') :
    Going port stream rs (as ++ got) s' := by
  induction got generalizing as s with
  | nil =>
    obtain rfl := Option.some.inj hgot
    rwa [List.append_nil]
  | cons a got ih =>
    rw [List.foldlM_cons, Option.bind_eq_bind, Option.bind_eq_some_iff] at hgot
    obtain ⟨s₁, ha, hgot⟩ := hgot
    rw [List.append_cons]
    exact ih (h.answered ha) hgot

/-- **Step lemma: the table read again.**  It adds its newcomers, and changes nothing that was
    printed. -/
theorem Going.rescan (h : Going port stream rs as s) (now : Peers) :
    Going port stream (rs ++ now.entries) as (s.rescan now) := by
  obtain ⟨hresults, hrssi, hout⟩ :=
    foldl_ask now.macs { s with rssiOf := now.entries.foldl orInsert s.rssiOf }
  have hlookup (mac : Mac) : (s.rescan now).rssiOf.lookup mac = (rs ++ now.entries).lookup mac := by
    show (now.macs.foldl ask _).rssiOf.lookup mac = _
    rw [hrssi, lookup_foldl_orInsert, List.lookup_append, h.rssi, ← List.lookup_append]
  have hasking : Asking { s with rssiOf := now.entries.foldl orInsert s.rssiOf } :=
    ⟨h.asking.nodup, h.asking.perm, h.asking.pending⟩
  refine ⟨hasking.foldl now.macs, fun mac => ?_, hlookup, hresults.trans h.results, ?_⟩
  · show mac ∈ (now.macs.foldl ask _).asked ↔ _
    rw [mem_asked_foldl, List.map_append, List.mem_append, ← h.asked]
    rfl
  · show (now.macs.foldl ask _).out = _
    rw [hout]
    show s.out = _
    rw [h.out]
    have hline (a : Mac × Option Text) (ha : a ∈ as) :
        s.line port a.1 a.2 = (s.rescan now).line port a.1 a.2 := by
      unfold line
      rw [hlookup, lookup_append_of_mem ((h.asked _).mp (h.mem_asked ha)), h.rssi]
    rw [List.map_congr_left hline]

end Lookup

/-- The readings that a turn adds. -/
def Turn.readings (t : Turn) : List (Mac × Option Int) :=
  match t.rescan with
  | some now => now.entries
  | none     => []

/-- The readings of a listing, first to last. -/
def readings (heard : Peers) (turns : List Turn) : List (Mac × Option Int) :=
  heard.entries ++ turns.flatMap Turn.readings

/-- The answers of a listing, first to last. -/
def answers (turns : List Turn) : List (Mac × Option Text) := turns.flatMap Turn.got

namespace Lookup

variable {port : Nat} {stream : Bool} {s s' : Lookup} {rs : List (Mac × Option Int)}
  {as : List (Mac × Option Text)}

theorem Going.turn (h : Going port stream rs as s) {t : Turn}
    (ht : s.turn port stream t = some s') :
    Going port stream (rs ++ t.readings) (as ++ t.got) s' := by
  unfold Lookup.turn at ht
  rw [Option.bind_eq_bind, Option.bind_eq_some_iff] at ht
  obtain ⟨s₁, hgot, ht⟩ := ht
  have h₁ := h.answers hgot
  unfold Turn.readings
  cases hr : t.rescan with
  | none =>
    rw [hr] at ht
    obtain rfl := Option.some.inj ht
    rwa [List.append_nil]
  | some now =>
    rw [hr] at ht
    obtain rfl := Option.some.inj ht
    exact h₁.rescan now

/-- **Run lemma.**  A lookup that has come to its end has had the readings and the answers of all
    its turns, and nobody is still to answer. -/
theorem Going.peerNames (h : Going port stream rs as s) {turns : List Turn}
    (hs : s.peerNames port stream turns = some s') :
    Going port stream (rs ++ turns.flatMap Turn.readings) (as ++ turns.flatMap Turn.got) s' ∧
      s'.pending = 0 := by
  induction turns generalizing rs as s with
  | nil =>
    unfold Lookup.peerNames at hs
    split_ifs at hs with hpending
    obtain rfl := Option.some.inj hs
    simp only [List.flatMap_nil, List.append_nil]
    exact ⟨h, hpending⟩
  | cons t turns ih =>
    unfold Lookup.peerNames at hs
    split_ifs at hs with hpending
    rw [Option.bind_eq_bind, Option.bind_eq_some_iff] at hs
    obtain ⟨s₁, ht, hs⟩ := hs
    simp only [List.flatMap_cons, ← List.append_assoc]
    exact ih (h.turn ht) hs

/-- Everybody asked has answered, once, in the end. -/
theorem Going.perm (h : Going port stream rs as s) (hpending : s.pending = 0) :
    (as.map Prod.fst).Perm s.asked := by
  have hrunning : s.running = [] := by
    rw [← List.length_eq_zero_iff, ← h.asking.pending]
    exact hpending
  have hperm := h.asking.perm
  rwa [hrunning, List.append_nil, h.results] at hperm

end Lookup

/-! ### What is listed -/

/-- A peer in a listing: its first reading, and its answer. -/
structure Peer where
  mac : Mac
  rssi : Option Int
  answer : Option Text

/-- Its line. -/
def Peer.line (port : Nat) (p : Peer) : Text := row port p.mac.text p.rssi p.answer true

/-- Its row. -/
def Peer.row (p : Peer) : Cli.Row := ⟨p.mac.text, rssiText p.rssi, shown p.answer⟩

/-- Those peers are listed: everybody heard, once, with the first reading and the answer. -/
structure Listed (rs : List (Mac × Option Int)) (as : List (Mac × Option Text))
    (peers : List Peer) : Prop where
  nodup : (peers.map Peer.mac).Nodup
  mem : ∀ mac, mac ∈ peers.map Peer.mac ↔ mac ∈ rs.map Prod.fst
  own : ∀ p ∈ peers, rs.lookup p.mac = some p.rssi ∧ (p.mac, p.answer) ∈ as

theorem lookup_isSome {β : Type} {l : List (Mac × β)} {mac : Mac} (h : mac ∈ l.map Prod.fst) :
    ∃ v, l.lookup mac = some v := by
  cases hl : l.lookup mac with
  | some v => exact ⟨v, rfl⟩
  | none =>
    obtain ⟨e, he, rfl⟩ := List.mem_map.mp h
    simpa using List.lookup_eq_none_iff.mp hl e he

/-- In a list without a key twice, the last entry of a key is its first one. -/
private theorem lookup_reverse {β : Type} {l : List (Mac × β)} (hl : (l.map Prod.fst).Nodup)
    (mac : Mac) :
    l.reverse.lookup mac = l.lookup mac := by
  have hrev : (l.reverse.map Prod.fst).Nodup := by
    rw [List.map_reverse]
    exact List.nodup_reverse.mpr hl
  by_cases hmac : mac ∈ l.map Prod.fst
  · obtain ⟨e, he, rfl⟩ := List.mem_map.mp hmac
    rw [lookup_of_mem hl he, lookup_of_mem hrev (List.mem_reverse.mpr he)]
  · have hnone {l' : List (Mac × β)} (h : l' ⊆ l) : l'.lookup mac = none := by
      rw [List.lookup_eq_none_iff]
      intro e he
      rw [bne_iff_ne]
      rintro rfl
      exact hmac (List.mem_map_of_mem (h he))
    rw [hnone (List.Subset.refl l), hnone (List.reverse_subset.mpr (List.Subset.refl l))]

/-- The peers with those addresses, as a lookup that is at its end has them. -/
def peersOf (s : Lookup) (macs : List Mac) : List Peer :=
  macs.map fun mac => ⟨mac, (s.rssiOf.lookup mac).join, (s.results.lookup mac).join⟩

variable {port : Nat} {stream : Bool} {s : Lookup} {rs : List (Mac × Option Int)}
  {as : List (Mac × Option Text)}

theorem listed_peersOf (h : s.Going port stream rs as) (hpending : s.pending = 0)
    {macs : List Mac} (hnodup : macs.Nodup) (hmem : ∀ mac, mac ∈ macs ↔ mac ∈ as.map Prod.fst) :
    Listed rs as (peersOf s macs) := by
  have hasked (mac : Mac) : mac ∈ macs ↔ mac ∈ rs.map Prod.fst := by
    rw [hmem, (h.perm hpending).mem_iff, h.asked]
  have hmacs : (peersOf s macs).map Peer.mac = macs := by
    unfold peersOf
    rw [List.map_map]
    exact List.map_id macs
  refine ⟨by rwa [hmacs], fun mac => by rw [hmacs, hasked], fun p hp => ?_⟩
  obtain ⟨mac, hmac, rfl⟩ := List.mem_map.mp hp
  obtain ⟨r, hr⟩ := lookup_isSome ((hasked mac).mp hmac)
  obtain ⟨a, ha⟩ := lookup_isSome ((hmem mac).mp hmac)
  constructor
  · show rs.lookup mac = some (s.rssiOf.lookup mac).join
    rw [h.rssi, hr]
    rfl
  · show (mac, (s.results.lookup mac).join) ∈ as
    rw [h.results, ha]
    obtain ⟨l₁, l₂, hl, -⟩ := List.lookup_eq_some_iff.mp ha
    rw [hl]
    exact List.mem_append_right _ List.mem_cons_self

/-- **What is printed in the end** are the lines of the peers listed, in some order. -/
theorem exists_lines {heard : Peers} {turns : List Turn} {out : Text} (hheard : heard.entries ≠ [])
    (h : list port true stream heard turns = some out) :
    ((answers turns).map Prod.fst).Nodup ∧
      (answers turns).map Prod.fst ⊆ (readings heard turns).map Prod.fst ∧
      ∃ peers, Listed (readings heard turns) (answers turns) peers ∧
        out = unlines (peers.map (Peer.line port)) := by
  unfold list at h
  rw [if_neg (by simp [hheard]), Option.bind_eq_bind, Option.bind_eq_some_iff] at h
  obtain ⟨s, hs, h⟩ := h
  -- at the end of the lookup every peer that was asked has answered
  obtain ⟨hgoing, hpending⟩ := (Lookup.going_start port stream heard).peerNames hs
  rw [List.nil_append] at hgoing
  replace hgoing : s.Going port stream (readings heard turns) (answers turns) := hgoing
  have hperm := hgoing.perm hpending
  have hnodup : ((answers turns).map Prod.fst).Nodup := hperm.nodup_iff.mpr hgoing.asking.nodup
  refine ⟨hnodup, fun mac hmac => (hgoing.asked mac).mp (hperm.subset hmac), ?_⟩
  have hline (mac : Mac) (got : Option Text) : s.line port mac got =
      row port mac.text (s.rssiOf.lookup mac).join got true := rfl
  split_ifs at h
  · -- with names the rows come as the answers do
    obtain rfl := Option.some.inj h
    refine ⟨peersOf s ((answers turns).map Prod.fst),
      listed_peersOf hgoing hpending hnodup fun _ => Iff.rfl, ?_⟩
    rw [hgoing.out, if_pos ‹_›]
    unfold peersOf
    rw [List.map_map, List.map_map]
    congr 1
    refine List.map_congr_left fun a ha => ?_
    show _ = row port a.1.text (s.rssiOf.lookup a.1).join (s.results.lookup a.1).join true
    rw [hgoing.results, lookup_of_mem hnodup ha]
    rfl
  · -- without, they are those of the peers that were heard, and then of new ones
    obtain rfl := Option.some.inj h
    have hheard (mac : Mac) (hmac : mac ∈ heard.macs) : mac ∈ (answers turns).map Prod.fst := by
      rw [hperm.mem_iff, hgoing.asked]
      unfold readings
      rw [List.map_append]
      exact List.mem_append_left _ hmac
    refine ⟨peersOf s (heard.macs ++ (s.results.map Prod.fst).filter (· ∉ heard.macs)),
      listed_peersOf hgoing hpending ?_ fun mac => ?_, ?_⟩
    · rw [List.nodup_append, hgoing.results]
      refine ⟨heard.nodup, hnodup.filter _, ?_⟩
      rintro mac hmac _ hnew rfl
      exact absurd hmac (by simpa using (List.mem_filter.mp hnew).2)
    · rw [List.mem_append, List.mem_filter, hgoing.results]
      constructor
      · rintro (hmac | hnew)
        · exact hheard mac hmac
        · exact hnew.1
      · intro hmac
        by_cases hold : mac ∈ heard.macs
        · exact .inl hold
        · exact .inr ⟨hmac, by simpa using hold⟩
    · unfold peersOf
      rw [List.map_map]
      congr 1
      refine List.map_congr_left fun mac _ => ?_
      show s.line port mac (s.results.reverse.lookup mac).join = _
      rw [lookup_reverse (by rwa [hgoing.results])]
      rfl

/-- A peer's row as it is read back. -/
def Peer.readBack (p : Peer) : Cli.Row :=
  ⟨p.mac.text, rssiText p.rssi, (stripCr (shown p.answer)).dropWhile Cli.isSpace⟩

/-- What is listed is read back peer by peer, if nobody is shown with a line feed. -/
private theorem exists_readBack {heard : Peers} {turns : List Turn} {out : Text}
    (h : list port true stream heard turns = some out) :
    ((answers turns).map Prod.fst).Nodup ∧
      (answers turns).map Prod.fst ⊆ (readings heard turns).map Prod.fst ∧
      ∃ peers, Listed (readings heard turns) (answers turns) peers ∧
        ((∀ p ∈ peers, '\n' ∉ shown p.answer) → Cli.rows out = peers.map Peer.readBack) := by
  by_cases hheard : heard.entries = []
  · unfold list at h
    rw [if_pos (.inl hheard), if_pos hheard] at h
    split_ifs at h with hturns
    rw [not_not] at hturns
    obtain rfl := Option.some.inj h
    subst hturns
    unfold readings
    rw [hheard]
    have hnone : Listed [] [] [] := ⟨List.nodup_nil, fun _ => Iff.rfl, by simp⟩
    refine ⟨List.nodup_nil, List.Subset.refl _, [], hnone, fun _ => ?_⟩
    decide +kernel
  · obtain ⟨hnodup, hasked, peers, hlisted, rfl⟩ := exists_lines hheard h
    refine ⟨hnodup, hasked, peers, hlisted, fun hline => ?_⟩
    have hlines : ∀ l ∈ peers.map (Peer.line port), '\n' ∉ l := by
      intro l hl
      obtain ⟨p, hp, rfl⟩ := List.mem_map.mp hl
      exact newline_not_mem_row (hline p hp)
    unfold Cli.rows
    rw [strLines_unlines hlines, List.map_map, List.filterMap_map]
    have hread : Cli.parseRow ∘ stripCr ∘ Peer.line port = some ∘ Peer.readBack := by
      ext1 p
      exact parseRow_row port p.mac p.rssi p.answer
    rw [hread, List.filterMap_eq_map]

/-! ### Names that are read back -/

/-- A name that a listing can carry: it is one line, neither starts with white space nor ends with
    a carriage return, and is not what stands for a peer that did not answer. -/
structure Carried (name : Text) : Prop where
  line : '\n' ∉ name
  head : ∀ c, name.head? = some c → Cli.isSpace c = false
  last : name.getLast? ≠ some '\r'
  answered : name ≠ "(no response)".toList

/-- A name is carried if and only if it is read back as it is shown, and not as no answer. -/
theorem carried_iff (name : Text) :
    Carried name ↔ '\n' ∉ shown (some name) ∧
      (stripCr (shown (some name))).dropWhile Cli.isSpace = shown (some name) ∧
        shown (some name) ≠ "(no response)".toList := by
  cases name with
  | nil =>
    have hempty : Carried [] := ⟨by simp, by simp, by simp, by decide⟩
    exact ⟨fun _ => ⟨by decide, by decide, by decide⟩, fun _ => hempty⟩
  | cons c cs =>
    show _ ↔ '\n' ∉ c :: cs ∧ (stripCr (c :: cs)).dropWhile Cli.isSpace = c :: cs ∧ c :: cs ≠ _
    rw [dropWhile_stripCr_iff (by simp)]
    constructor
    · intro h
      exact ⟨h.line, ⟨h.head, h.last⟩, h.answered⟩
    · rintro ⟨hline, ⟨hhead, hlast⟩, hanswered⟩
      exact ⟨hline, hhead, hlast, hanswered⟩

/-- Peers listed for the same readings and answers agree on every one of them. -/
theorem Listed.unique {rs : List (Mac × Option Int)} {as : List (Mac × Option Text)}
    (has : (as.map Prod.fst).Nodup) {peers peers' : List Peer} (h : Listed rs as peers)
    (h' : Listed rs as peers') {p p' : Peer} (hp : p ∈ peers) (hp' : p' ∈ peers')
    (hmac : p.mac = p'.mac) : p = p' := by
  obtain ⟨hrssi, hanswer⟩ := h.own p hp
  obtain ⟨hrssi', hanswer'⟩ := h'.own p' hp'
  have hlook := lookup_of_mem has hanswer
  have hlook' := lookup_of_mem has hanswer'
  rw [hmac] at hrssi hlook
  have hr : p.rssi = p'.rssi := Option.some.inj (hrssi.symm.trans hrssi')
  have ha : p.answer = p'.answer := Option.some.inj (hlook.symm.trans hlook')
  cases p
  cases p'
  simp_all

/-- **The rows read from a listing are the rows of the peers listed**, and nobody who answered is
    taken for somebody who did not, if and only if every name that a peer answered is one that a
    listing can carry. -/
theorem rows_list_iff {heard : Peers} {turns : List Turn} {out : Text}
    (h : list port true stream heard turns = some out) :
    (∃ peers, Listed (readings heard turns) (answers turns) peers ∧
      Cli.rows out = peers.map Peer.row ∧
        ∀ p ∈ peers, p.row.name = "(no response)".toList → p.answer = none) ↔
      ∀ mac name, (mac, some name) ∈ answers turns → Carried name := by
  obtain ⟨hnodup, hasked, peers, hlisted, hread⟩ := exists_readBack h
  constructor
  · rintro ⟨peers', hlisted', hrows, hmark⟩
    have hpeer (mac : Mac) (got : Option Text) (hgot : (mac, got) ∈ answers turns) :
        ∃ p ∈ peers', p.mac = mac ∧ p.answer = got := by
      have hmac := (hlisted'.mem mac).mpr (hasked (List.mem_map_of_mem hgot))
      obtain ⟨p, hp, rfl⟩ := List.mem_map.mp hmac
      have hlook := lookup_of_mem hnodup (hlisted'.own p hp).2
      exact ⟨p, hp, rfl, Option.some.inj (hlook.symm.trans (lookup_of_mem hnodup hgot))⟩
    -- what is shown stands in a row, and no row holds a line feed
    have hline (mac : Mac) (got : Option Text) (hgot : (mac, got) ∈ answers turns) :
        '\n' ∉ shown got := by
      obtain ⟨p, hp, -, rfl⟩ := hpeer mac got hgot
      have hrow : p.row ∈ Cli.rows out := by
        rw [hrows]
        exact List.mem_map_of_mem hp
      exact Cli.newline_not_mem_name hrow
    -- so there is one row for a peer, as it was shown and as it is read back
    have hback := hread fun p hp => hline p.mac p.answer (hlisted.own p hp).2
    intro mac name hname
    obtain ⟨p, hp, rfl, hanswer⟩ := hpeer mac (some name) hname
    have hrow : p.row ∈ peers.map Peer.readBack := by
      rw [← hback, hrows]
      exact List.mem_map_of_mem hp
    obtain ⟨q, hq, hqrow⟩ := List.mem_map.mp hrow
    have hmac : q.mac = p.mac := by
      have htext : q.mac.text = p.mac.text := congrArg Cli.Row.mac hqrow
      cases hqm : q.mac
      cases hpm : p.mac
      simp_all
    obtain rfl := hlisted.unique hnodup hlisted' hq hp hmac
    have hsame : (stripCr (shown q.answer)).dropWhile Cli.isSpace = shown q.answer :=
      congrArg Cli.Row.name hqrow
    rw [hanswer] at hsame
    refine (carried_iff name).mpr ⟨hline _ _ hname, hsame, fun hno => ?_⟩
    have hnone := hmark q hp (by
      show shown q.answer = _
      rw [hanswer, hno])
    rw [hanswer] at hnone
    cases hnone
  · intro hcarried
    have hshown (p : Peer) (hp : p ∈ peers) : '\n' ∉ shown p.answer ∧
        (stripCr (shown p.answer)).dropWhile Cli.isSpace = shown p.answer ∧
          (shown p.answer = "(no response)".toList → p.answer = none) := by
      have hmem := (hlisted.own p hp).2
      cases hanswer : p.answer with
      | none => exact ⟨by decide, by decide, fun _ => rfl⟩
      | some name =>
        rw [hanswer] at hmem
        obtain ⟨hline, hsame, hmark⟩ := (carried_iff name).mp (hcarried _ _ hmem)
        exact ⟨hline, hsame, fun hno => absurd hno hmark⟩
    refine ⟨peers, hlisted, ?_, fun p hp => (hshown p hp).2.2⟩
    rw [hread fun p hp => (hshown p hp).1]
    refine List.map_congr_left fun p hp => ?_
    unfold Peer.readBack Peer.row
    rw [(hshown p hp).2.1]

/-- A peer that answers a name, and one that comes later and does not answer. -/
theorem rows_list_named : ∃ heard turns out,
    list 8770 true true heard turns = some out ∧ (answers turns).length = 2 ∧
      ∃ peers, Listed (readings heard turns) (answers turns) peers ∧
        Cli.rows out = peers.map Peer.row ∧
          ∀ p ∈ peers, p.row.name = "(no response)".toList → p.answer = none := by
  let studio : Mac := ⟨"e2:9d:03:6c:58:23", by decide⟩
  let phone : Mac := ⟨"b2:c4:98:5e:e6:be", by decide⟩
  let heard : Peers := ⟨[(studio, some (-47))], by decide⟩
  let turns : List Turn := [⟨[], some ⟨[(phone, none)], by decide⟩⟩,
    ⟨[(studio, some "Studio Mac")], none⟩, ⟨[(phone, none)], none⟩]
  have hdone : (list 8770 true true heard turns).isSome := by decide +kernel
  obtain ⟨out, hlist⟩ := Option.isSome_iff_exists.mp hdone
  refine ⟨heard, turns, out, hlist, rfl, (rows_list_iff hlist).mpr fun mac name hname => ?_⟩
  obtain ⟨-, rfl⟩ : mac = studio ∧ name = "Studio Mac".toList := by
    simpa [answers, turns] using hname
  refine ⟨by decide, fun c hc => ?_, by decide, by decide⟩
  obtain rfl : 'S' = c := Option.some.inj hc
  rfl

/-- A peer whose name holds a line feed is read as two peers. -/
theorem row_forged : ∃ heard turns out,
    list 8770 true false heard turns = some out ∧
      Cli.rows out = [⟨"e2:9d:03:6c:58:23".toList, "-47".toList, "Phone".toList⟩,
        ⟨"02:00:00:00:00:01".toList, "-20".toList, "Studio Mac".toList⟩] ∧
      ¬ ∃ peers, Listed (readings heard turns) (answers turns) peers ∧
        Cli.rows out = peers.map Peer.row := by
  let phone : Mac := ⟨"e2:9d:03:6c:58:23", by decide⟩
  let heard : Peers := ⟨[(phone, some (-47))], by decide⟩
  let turns : List Turn :=
    [⟨[(phone, some "Phone\n02:00:00:00:00:01  -20 dBm  [::1]:1  Studio Mac")], none⟩]
  have hread : (list 8770 true false heard turns).map Cli.rows =
      some [⟨"e2:9d:03:6c:58:23".toList, "-47".toList, "Phone".toList⟩,
        ⟨"02:00:00:00:00:01".toList, "-20".toList, "Studio Mac".toList⟩] := by
    decide +kernel
  obtain ⟨out, hlist, hrows⟩ := Option.map_eq_some_iff.mp hread
  refine ⟨heard, turns, out, hlist, hrows, ?_⟩
  rintro ⟨peers, hlisted, hpeers⟩
  rw [hrows] at hpeers
  -- the second row would be that of a peer that was heard
  obtain ⟨p, hp, hrow⟩ : ∃ p ∈ peers, p.row =
      ⟨"02:00:00:00:00:01".toList, "-20".toList, "Studio Mac".toList⟩ := by
    rw [← List.mem_map, ← hpeers]
    simp
  have hmac : p.mac = phone := by
    simpa [readings, heard, turns, Turn.readings] using
      (hlisted.mem p.mac).mp (List.mem_map_of_mem hp)
  have htext : phone.text = "02:00:00:00:00:01".toList := by
    rw [← hmac]
    exact congrArg Cli.Row.mac hrow
  exact absurd htext (by decide)

end Omdrop.Send
