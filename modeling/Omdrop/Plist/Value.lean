import Omdrop.Machine.Nested
import Omdrop.Text.Utf8

namespace Omdrop.Plist

open Omdrop.Text Omdrop.Nested

/-!
# Property lists

Values, the events they are read from, and `build`, which makes a value of a sequence of events
by recursion over the tree that the events are.
-/

/-- A property list.  A dictionary keeps its entries in the order of their keys' first coming;
    dates are nanoseconds from the epoch, reals the bits of a double. -/
inductive Value
  | array (items : List Value)
  | dictionary (dict : List (Text × Value))
  | boolean (b : Bool)
  | data (d : List UInt8)
  | date (d : Int)
  | integer (i : Int)
  | real (r : UInt64)
  | string (s : Text)
  | uid (u : Nat)

/-- The entries of a dictionary. -/
abbrev Dictionary := List (Text × Value)

/-- Induction over a value, with what holds of the items and the entries in it. -/
@[elab_as_elim] theorem Value.induct {P : Value → Prop}
    (array : ∀ items, (∀ v ∈ items, P v) → P (.array items))
    (dictionary : ∀ dict : Dictionary, (∀ e ∈ dict, P e.2) → P (.dictionary dict))
    (other : ∀ v, (∀ items, v ≠ .array items) → (∀ dict, v ≠ .dictionary dict) → P v) (v : Value) :
    P v :=
  @Value.rec P (fun items => ∀ v ∈ items, P v) (fun dict => ∀ e ∈ dict, P e.2) (fun e => P e.2)
    array dictionary
    (fun b => other _ (by simp) (by simp)) (fun d => other _ (by simp) (by simp))
    (fun d => other _ (by simp) (by simp)) (fun i => other _ (by simp) (by simp))
    (fun r => other _ (by simp) (by simp)) (fun s => other _ (by simp) (by simp))
    (fun u => other _ (by simp) (by simp)) (by simp)
    (fun _ _ hv hitems => List.forall_mem_cons.mpr ⟨hv, hitems⟩) (by simp)
    (fun _ _ he hdict => List.forall_mem_cons.mpr ⟨he, hdict⟩) (fun _ _ hv => hv) v

namespace Dictionary

/-- Put a value under a key: in the place of the one that is there, or at the end. -/
def insert (k : Text) (v : Value) : Dictionary → Dictionary
  | []               => [(k, v)]
  | (k', v') :: dict => if k' = k then (k, v) :: dict else (k', v') :: insert k v dict

private theorem insert_of_notMem {k : Text} {v : Value} {dict : Dictionary}
    (h : k ∉ dict.map Prod.fst) : insert k v dict = dict ++ [(k, v)] := by
  induction dict with
  | nil => rfl
  | cons entry dict ih =>
    obtain ⟨k', v'⟩ := entry
    rw [List.map_cons, List.mem_cons, not_or] at h
    rw [insert, if_neg (Ne.symm h.1), ih h.2]
    rfl

theorem lookup_insert (k key : Text) (v : Value) (dict : Dictionary) :
    (insert k v dict).lookup key = if key = k then some v else dict.lookup key := by
  induction dict with
  | nil =>
    by_cases hkey : key = k
    · simp [insert, hkey]
    · simp [insert, List.lookup_cons, hkey, beq_eq_false_iff_ne.mpr hkey]
  | cons entry dict ih =>
    obtain ⟨k', v'⟩ := entry
    by_cases hk : k' = k
    · subst hk
      rw [insert, if_pos rfl]
      by_cases hkey : key = k'
      · simp [hkey]
      · simp [List.lookup_cons, hkey, beq_eq_false_iff_ne.mpr hkey]
    · rw [insert, if_neg hk, List.lookup_cons, List.lookup_cons, ih]
      by_cases hkey : key = k'
      · simp [hkey, hk]
      · simp [beq_eq_false_iff_ne.mpr hkey]

end Dictionary

/-- An event of the reader.  `startArray` and `startDictionary` may say how much is to come. -/
inductive Event
  | startArray (len : Option Nat)
  | startDictionary (len : Option Nat)
  | endCollection
  | boolean (b : Bool)
  | data (d : List UInt8)
  | date (d : Int)
  | integer (i : Int)
  | real (r : UInt64)
  | string (s : Text)
  | uid (u : Nat)
  | unknown
  deriving DecidableEq, Repr

/-- A collection that is being read. -/
inductive Frame
  | array (items : List Value)
  | dict (dict : Dictionary) (key : Option Text)

/-- The two kinds of collections. -/
inductive Collection
  | array
  | dictionary
  deriving DecidableEq, Repr

/-- An event as a token: collections are opened and closed, everything else is a leaf. -/
def Event.token : Event → Token Collection Event
  | .startArray _      => .enter .array
  | .startDictionary _ => .enter .dictionary
  | .endCollection     => .leave
  | e                  => .leaf e

/-- The value that an event is by itself. -/
def Event.value : Event → Option Value
  | .boolean b => some (.boolean b)
  | .data d    => some (.data d)
  | .date d    => some (.date d)
  | .integer i => some (.integer i)
  | .real r    => some (.real r)
  | .string s  => some (.string s)
  | .uid u     => some (.uid u)
  | _          => none

/-- A collection that begins. -/
def Frame.empty : Collection → Frame
  | .array      => .array []
  | .dictionary => .dict [] none

/-- Put a value into a collection: keys of a dictionary are texts, and every other value goes
    under the key before it. -/
def Frame.put : Frame → Value → Option Frame
  | .array items, v         => some (.array (items ++ [v]))
  | .dict d none, .string k => some (.dict d (some k))
  | .dict _ none, _         => none
  | .dict d (some k), v     => some (.dict (d.insert k v) none)

/-- The value of a collection that ends. -/
def Frame.value : Frame → Option Value
  | .array items     => some (.array items)
  | .dict d none     => some (.dictionary d)
  | .dict _ (some _) => none

/-- How values are made of events. -/
def builder : Builder Collection Event Frame Value :=
  ⟨Event.value, Frame.empty, Frame.put, Frame.value⟩

/-- **The recursive tree builder.**  The value that a sequence of events is, when it is one complete
    value. -/
def build (events : List Event) : Option Value :=
  (readNest (events.map Event.token)).bind (Nest.build builder)

/-! ### Nothing is lost on the way -/

/-- The trees of a dictionary's entries: a key, and what stands under it. -/
def entryNests (entries : List (Text × Nest Collection Event)) : List (Nest Collection Event) :=
  entries.flatMap fun entry => [.leaf (.string entry.1), entry.2]

/-- A dictionary with some entries put into it, one after the other. -/
def Dictionary.collect (dict : Dictionary) (entries : List (Text × Value)) : Dictionary :=
  entries.foldl (fun dict entry => dict.insert entry.1 entry.2) dict

/-- What a tree stands for: leaves for themselves, arrays for the values of their items in order,
    and dictionaries for the values of their entries, each put under its key in turn. -/
inductive Denotes : Nest Collection Event → Value → Prop
  | leaf {e v} : e.value = some v → Denotes (.leaf e) v
  | array {items values} : List.Forall₂ Denotes items values →
      Denotes (.node .array items) (.array values)
  | dictionary {entries values} :
      List.Forall₂ (fun entry v => Denotes entry.2 v) entries values →
      Denotes (.node .dictionary (entryNests entries))
        (.dictionary (Dictionary.collect [] ((entries.map Prod.fst).zip values)))

/-- What the builder makes of items, after some that are there. -/
private theorem putAll_array {ts : List (Nest Collection Event)} {items : List Value} {v : Value}
    (ih : ∀ t ∈ ts, ∀ v, t.build builder = some v → Denotes t v)
    (h : (putAll builder (.array items) ts).bind Frame.value = some v) :
    ∃ values, v = .array (items ++ values) ∧ List.Forall₂ Denotes ts values := by
  induction ts generalizing items with
  | nil =>
    cases h
    exact ⟨[], by simp, .nil⟩
  | cons t ts ihts =>
    rw [List.forall_mem_cons] at ih
    rw [putAll, Option.bind_assoc] at h
    obtain ⟨w, hw, h⟩ := Option.bind_eq_some_iff.mp h
    obtain ⟨values, rfl, hall⟩ := ihts ih.2 h
    exact ⟨w :: values, by simp, .cons (ih.1 w hw) hall⟩

/-- Only a text is a text. -/
private theorem build_string {t : Nest Collection Event} {k : Text}
    (h : t.build builder = some (.string k)) : t = .leaf (.string k) := by
  cases t with
  | leaf e =>
    rw [Nest.build] at h
    cases e <;> cases h
    rfl
  | node c children =>
    rw [Nest.build] at h
    obtain ⟨f, _, h⟩ := Option.bind_eq_some_iff.mp h
    rcases f with items | ⟨d, - | k⟩ <;> cases h

/-- What the builder makes of entries, after some that are there and perhaps a key. -/
private theorem putAll_dict {ts : List (Nest Collection Event)} {d : Dictionary} {key : Option Text}
    {v : Value} (ih : ∀ t ∈ ts, ∀ v, t.build builder = some v → Denotes t v)
    (h : (putAll builder (.dict d key) ts).bind Frame.value = some v) :
    ∃ (t' : List (Nest Collection Event)) (entries : List (Text × Nest Collection Event))
      (values : List Value),
      ts = t' ++ entryNests entries ∧ t'.length = key.toList.length ∧
      v = .dictionary (d.collect ((key.toList ++ entries.map Prod.fst).zip values)) ∧
      List.Forall₂ Denotes (t' ++ entries.map Prod.snd) values := by
  induction ts generalizing d key with
  | nil =>
    cases key with
    | none =>
      cases h
      exact ⟨[], [], [], rfl, rfl, rfl, .nil⟩
    | some k => cases h
  | cons t ts ihts =>
    rw [List.forall_mem_cons] at ih
    rw [putAll, Option.bind_assoc] at h
    obtain ⟨w, hw, h⟩ := Option.bind_eq_some_iff.mp h
    cases key with
    | none =>
      -- the tree is a key, and the one after it its value
      have hput : ∃ k, w = .string k := by
        cases w with
        | string k => exact ⟨k, rfl⟩
        | _ => cases h
      obtain ⟨k, rfl⟩ := hput
      obtain ⟨t', entries, values, rfl, hlen, rfl, hall⟩ := ihts ih.2 h
      obtain ⟨value, rfl⟩ := List.length_eq_one_iff.mp hlen
      refine ⟨[], (k, value) :: entries, values, ?_, rfl, rfl, hall⟩
      rw [build_string hw]
      rfl
    | some k =>
      obtain ⟨t', entries, values, rfl, hlen, rfl, hall⟩ := ihts ih.2 h
      obtain rfl := List.length_eq_zero_iff.mp hlen
      exact ⟨[t], entries, w :: values, rfl, rfl, rfl, .cons (ih.1 w hw) hall⟩

/-- **The builder makes of a tree what the tree stands for.** -/
theorem denotes_of_build {t : Nest Collection Event} {v : Value}
    (h : t.build builder = some v) : Denotes t v := by
  have key : (∀ t : Nest Collection Event, ∀ v, t.build builder = some v → Denotes t v) ∧
      ∀ ts : List (Nest Collection Event), ∀ t ∈ ts, ∀ v, t.build builder = some v →
        Denotes t v := by
    apply Nest.induct
    · intro e v h
      rw [Nest.build] at h
      exact .leaf h
    · intro c children ih v h
      rw [Nest.build] at h
      cases c with
      | array =>
        obtain ⟨values, rfl, hall⟩ := putAll_array ih h
        exact .array hall
      | dictionary =>
        obtain ⟨t', entries, values, rfl, hlen, rfl, hall⟩ := putAll_dict ih h
        obtain rfl := List.length_eq_zero_iff.mp hlen
        exact .dictionary (List.forall₂_map_left_iff.mp hall)
    · simp
    · intro t ts iht ihts
      exact List.forall_mem_cons.mpr ⟨iht, ihts⟩
  exact key.1 t v h

/-! ### Values as trees -/

mutual

/-- The tree of a value. -/
def Value.nest : Value → Nest Collection Event
  | .array items     => .node .array (itemNests items)
  | .dictionary dict => .node .dictionary (dictNests dict)
  | .boolean b       => .leaf (.boolean b)
  | .data d          => .leaf (.data d)
  | .date d          => .leaf (.date d)
  | .integer i       => .leaf (.integer i)
  | .real r          => .leaf (.real r)
  | .string s        => .leaf (.string s)
  | .uid u           => .leaf (.uid u)

/-- The trees of some items. -/
def itemNests : List Value → List (Nest Collection Event)
  | []         => []
  | v :: items => v.nest :: itemNests items

/-- The trees of a dictionary's entries. -/
def dictNests : List (Text × Value) → List (Nest Collection Event)
  | []             => []
  | (k, v) :: dict => .leaf (.string k) :: v.nest :: dictNests dict

end

/-- No dictionary of the tree has an entry under a key that it had one under before. -/
inductive KeysOnce : Nest Collection Event → Prop
  | leaf e : KeysOnce (.leaf e)
  | array {items} : (∀ t ∈ items, KeysOnce t) → KeysOnce (.node .array items)
  | dictionary {entries : List (Text × Nest Collection Event)} : (entries.map Prod.fst).Nodup →
      (∀ entry ∈ entries, KeysOnce entry.2) → KeysOnce (.node .dictionary (entryNests entries))

private theorem entryNests_injective : Function.Injective entryNests := by
  intro entries entries' h
  induction entries generalizing entries' with
  | nil =>
    cases entries' with
    | nil => rfl
    | cons entry' entries' => cases h
  | cons entry entries ih =>
    cases entries' with
    | nil => cases h
    | cons entry' entries' =>
      obtain ⟨k, t⟩ := entry
      obtain ⟨k', t'⟩ := entry'
      have h : Nest.leaf (.string k) :: t :: entryNests entries =
          .leaf (.string k') :: t' :: entryNests entries' := h
      simp only [List.cons.injEq, Nest.leaf.injEq, Event.string.injEq] at h
      rw [h.1, h.2.1, ih h.2.2]

/-- Entries under new keys go to the end. -/
theorem Dictionary.collect_of_nodup {d entries : Dictionary}
    (h : ((d ++ entries).map Prod.fst).Nodup) : d.collect entries = d ++ entries := by
  induction entries generalizing d with
  | nil => simp [collect]
  | cons entry entries ih =>
    have hnew : entry.1 ∉ d.map Prod.fst := by
      rw [List.map_append, List.map_cons, List.nodup_append] at h
      exact fun hmem => h.2.2 _ hmem _ List.mem_cons_self rfl
    show (d.insert entry.1 entry.2).collect entries = _
    rw [insert_of_notMem hnew, ih (by simpa using h)]
    simp

private theorem itemNests_eq {items : List (Nest Collection Event)} {values : List Value}
    (hall : List.Forall₂ Denotes items values)
    (h : ∀ t ∈ items, ∀ v, Denotes t v → v.nest = t) : itemNests values = items := by
  induction hall with
  | nil => rfl
  | @cons t v items values hv _ ih =>
    rw [List.forall_mem_cons] at h
    show v.nest :: itemNests values = _
    rw [h.1 v hv, ih h.2]

private theorem dictNests_eq {entries : List (Text × Nest Collection Event)} {values : List Value}
    (hall : List.Forall₂ (fun entry v => Denotes entry.2 v) entries values)
    (h : ∀ entry ∈ entries, ∀ v, Denotes entry.2 v → v.nest = entry.2) :
    dictNests ((entries.map Prod.fst).zip values) = entryNests entries := by
  induction hall with
  | nil => rfl
  | @cons entry v entries values hv _ ih =>
    rw [List.forall_mem_cons] at h
    show .leaf (.string entry.1) :: v.nest :: dictNests ((entries.map Prod.fst).zip values) =
      .leaf (.string entry.1) :: entry.2 :: entryNests entries
    rw [h.1 v hv, ih h.2]

/-- **Nothing is dropped, repeated or moved.**  Where no dictionary repeats a key, a tree is the
    tree of the value that it stands for. -/
theorem nest_of_denotes {t : Nest Collection Event} {v : Value} (h : Denotes t v)
    (honce : KeysOnce t) : v.nest = t := by
  have key : (∀ t : Nest Collection Event, ∀ v, Denotes t v → KeysOnce t → v.nest = t) ∧
      ∀ ts : List (Nest Collection Event), ∀ t ∈ ts, ∀ v, Denotes t v → KeysOnce t →
        v.nest = t := by
    apply Nest.induct
    · intro e v h _
      cases h with
      | leaf hv => cases e <;> cases hv <;> rfl
    · intro c children ih v h honce
      cases h with
      | @array items values hall =>
        cases honce with
        | array honce =>
          show Nest.node .array (itemNests values) = _
          rw [itemNests_eq hall fun t ht v hv => ih t ht v hv (honce t ht)]
      | @dictionary entries values hall =>
        have hkeys : (entries.map Prod.fst).Nodup ∧ ∀ entry ∈ entries, KeysOnce entry.2 := by
          generalize hchildren : entryNests entries = children at honce
          cases honce with
          | dictionary hnodup honce =>
            rw [entryNests_injective hchildren]
            exact ⟨hnodup, honce⟩
        have hdict : Dictionary.collect [] ((entries.map Prod.fst).zip values) =
            (entries.map Prod.fst).zip values := by
          apply Dictionary.collect_of_nodup
          rw [List.nil_append, List.map_fst_zip (by simp [hall.length_eq])]
          exact hkeys.1
        show Nest.node .dictionary (dictNests (Dictionary.collect [] _)) = _
        rw [hdict, dictNests_eq hall fun entry hmem v hv => ?_]
        have hchild : entry.2 ∈ entryNests entries :=
          List.mem_flatMap.mpr ⟨entry, hmem, by simp⟩
        exact ih _ hchild v hv (hkeys.2 entry hmem)
    · simp
    · intro t ts iht ihts
      exact List.forall_mem_cons.mpr ⟨iht, ihts⟩
  exact key.1 t v h honce

end Omdrop.Plist
