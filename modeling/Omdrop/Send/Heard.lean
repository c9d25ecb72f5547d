import Omdrop.Send.Peers

namespace Omdrop.Send

open Omdrop.Text

/-!
# Who is heard

The peers heard are read from the radio helper's table and the watcher's registrations.  No
address stands twice among them: `Peers` carries that.
-/

/-- The peers heard, each with its signal if there was a reading. -/
structure Peers where
  entries : List (Mac × Option Int)
  nodup : (entries.map Prod.fst).Nodup

/-- Their addresses. -/
def Peers.macs (heard : Peers) : List Mac := heard.entries.map Prod.fst

/-! ### The table -/

/-- What follows white space, `rssi=` and more white space behind an address. -/
def rssiTail (rest : Text) : Option Text :=
  let after := trimStart rest
  if after.length = rest.length then none
  else ("rssi=".toList.isPrefixOf? after).map trimStart

/-- A reading: an integer or a question mark. -/
def readSignal (v : Text) : Option (Option Int) :=
  if v.head? = some '?' then some none
  else
    -- every dash in front is passed over, and the first of them counts
    let digits := (v.dropWhile (· == '-')).takeWhile Char.isDigit
    if digits = [] then none
    else
      (ofDecimal digits).map fun value =>
        let n : Int := min value (2 ^ 63 - 1)
        some (if v.head? = some '-' then -n else n)

/-- The reading that follows an address. -/
def rssiAfter (rest : Text) : Option (Option Int) := (rssiTail rest).bind readSignal

/-- The first address of a line that has a reading behind it, with that reading. -/
def findMacRssi : Text → Option (Mac × Option Int)
  | []     => none
  | c :: t =>
    if h : Cli.isMac ((c :: t).take 17) = true then
      match rssiAfter ((c :: t).drop 17) with
      | some rssi => some (⟨(c :: t).take 17, h⟩, rssi)
      | none      => findMacRssi t
    else findMacRssi t

/-- The peer's reading replaced, or the peer added behind the others. -/
def Peers.record (found : Peers) (mac : Mac) (rssi : Option Int) : Peers :=
  if h : mac ∈ found.macs then
    ⟨found.entries.map fun e => if e.1 = mac then (e.1, rssi) else e, by
      rw [List.map_map]
      have hkeys : (Prod.fst ∘ fun e : Mac × Option Int => if e.1 = mac then (e.1, rssi) else e) =
          Prod.fst := by
        ext e
        simp only [Function.comp_apply]
        split_ifs <;> rfl
      rw [hkeys]
      exact found.nodup⟩
  else
    ⟨found.entries ++ [(mac, rssi)], by
      rw [List.map_append, List.nodup_append]
      refine ⟨found.nodup, List.nodup_singleton _, ?_⟩
      rintro m hm _ hmac rfl
      exact h ((by simpa using hmac : m = mac) ▸ hm)⟩

/-- The radio helper's table: an address stands where it came first, with its last reading. -/
def parsePeerTable (text : Text) : Peers :=
  (strLines text).foldl (fun found line =>
    match findMacRssi line with
    | some (mac, rssi) => found.record mac rssi
    | none             => found) ⟨[], List.nodup_nil⟩

/-! ### The registrations -/

/-- The addresses that the neighbour table has. -/
def parseNeigh : Text → List Mac
  | []     => []
  | c :: t =>
    match h : "lladdr".toList.isPrefixOf? (c :: t) with
    | none       => parseNeigh t
    | some after =>
      have : after.length ≤ t.length := by
        have hlen := congrArg List.length (Cli.append_of_isPrefixOf h)
        have hsix : "lladdr".toList.length = 6 := rfl
        rw [List.length_append, List.length_cons, hsix] at hlen
        omega
      let trimmed := trimStart after
      if hmac : trimmed.length < after.length ∧ Cli.isMac (trimmed.take 17) = true then
        ⟨trimmed.take 17, hmac.2⟩ :: parseNeigh after
      else parseNeigh after
termination_by t => t.length

/-- Does the first of two peers stand before the second?  The strongest first, and a peer without
    a reading last. -/
def notWeaker (a b : Mac × Option Int) : Bool :=
  match a.2, b.2 with
  | some r, some q => q ≤ r
  | none, some _   => false
  | _, none        => true

/-- The peer added behind the others, without a reading, if it is not among them. -/
def Peers.register (found : Peers) (mac : Mac) : Peers :=
  if mac ∈ found.macs then found else found.record mac none

/-- The table and the registrations, without this machine's own address, the strongest first. -/
def mergePeers (found : Peers) (registered : List Mac) (own : Option Text) : Peers :=
  let all := registered.foldl Peers.register found
  ⟨(all.entries.filter fun e => some e.1.text != own).mergeSort notWeaker,
    ((List.mergeSort_perm _ _).map Prod.fst).nodup_iff.mpr
      (all.nodup.sublist (List.filter_sublist.map Prod.fst))⟩

end Omdrop.Send
