import Mathlib.Logic.Function.Basic
import Omdrop.Machine.Run
import Omdrop.Text.Basic

namespace Omdrop.Identity.SelfSigned

open Omdrop.Text

/-!
# The self-signed pair

`createWith` places two files under names that others may want too, one link after the other, and
takes back what it placed when a link fails.  `createWith_safe` is about any number of calls that
do so at once without the lock.  `migrateLegacy` places two files as well but takes nothing back:
`migrateLegacy_iff` says when that matters.
-/

/-! ### Creating the pair -/

/-- The two names of the pair. -/
inductive Slot
  | key
  | cert
  deriving DecidableEq

/-- Who placed a file: it was there before, or one of the calls did. -/
inductive Owner
  | before
  | call (k : Nat)
  deriving DecidableEq

/-- What a link fails with. -/
inductive LinkError
  | alreadyExists
  | other (errno : Text)
  deriving DecidableEq

/-- Why the pair was not created. -/
inductive CreateError
  | halfPair
  | missing
  | openssl (said : Text)
  | link (errno : Text)
  | io
  deriving DecidableEq

/-- What stands under the two names. -/
abbrev Names : Type := Slot → Option Owner

/-- Where a call is: before it has looked at the directory, between its looks at the two names,
    making files of its own, linking them, taking back what it linked (first looking whether it is
    its own, then removing it), looking again, or back with an answer. -/
inductive Phase
  | enter (root : Bool)
  | lookCert
  | lookKey (cert : Bool)
  | make
  | linking (todo made : List Slot)
  | rollBack (made : List Slot) (e : LinkError)
  | remove (dst : Slot) (made : List Slot) (e : LinkError)
  | lookCertAgain
  | lookKeyAgain (cert : Bool)
  | done (result : Except CreateError Bool)

/-- What fails at a step: the preparations, if the step is one of them, or the link. -/
structure Faults where
  setUp : Option CreateError
  link : Option LinkError

/-- The next step of a call. -/
def advance (k : Nat) (faults : Faults) (names : Names) : Phase → Phase × Names
  | .enter root             =>
    if root then (.done (.error .missing), names)
    else match faults.setUp with
      | some e => (.done (.error e), names)
      | none   => (.lookCert, names)
  | .lookCert               => (.lookKey (names .cert).isSome, names)
  | .lookKey cert           =>
    match cert, (names .key).isSome with
    | true, true   => (.done (.ok false), names)
    | false, false => (.make, names)
    | _, _         => (.done (.error .halfPair), names)
  | .make                   =>
    match faults.setUp with
    | some e => (.done (.error e), names)
    | none   => (.linking [.key, .cert] [], names)
  | .linking [] _           => (.done (.ok true), names)
  | .linking (dst :: todo) made =>
    match faults.link, names dst with
    | some e, _    => (.rollBack made e, names)
    | none, some _ => (.rollBack made .alreadyExists, names)
    | none, none   => (.linking todo (made ++ [dst]), Function.update names dst (some (.call k)))
  | .rollBack [] e          =>
    match e with
    | .other errno   => (.done (.error (.link errno)), names)
    | .alreadyExists => (.lookCertAgain, names)
  | .rollBack (dst :: made) e =>
    if names dst = some (.call k) then (.remove dst made e, names) else (.rollBack made e, names)
  | .remove dst made e      => (.rollBack made e, Function.update names dst none)
  | .lookCertAgain          => (.lookKeyAgain (names .cert).isSome, names)
  | .lookKeyAgain cert      =>
    match cert, (names .key).isSome with
    | true, true   => (.done (.ok false), names)
    | false, false => (.done (.error .missing), names)
    | _, _         => (.done (.error .halfPair), names)
  | .done result            => (.done result, names)

/-- The names, and the calls. -/
structure State where
  names : Names
  calls : List Phase

/-- What can happen next: there is one more call, or a call makes its next step. -/
inductive Action
  | call (root : Bool)
  | advance (k : Nat) (faults : Faults)

def State.step (s : State) : Action → State
  | .call root        => { s with calls := s.calls ++ [.enter root] }
  | .advance k faults =>
    match s.calls[k]? with
    | none   => s
    | some p =>
      let (p, names) := SelfSigned.advance k faults s.names p
      ⟨names, s.calls.set k p⟩

/-- The calls as a machine. -/
def machine : Machine State Action Unit := ⟨fun s a => (s.step a, ())⟩

/-- Before any call, with files under some of the names. -/
def State.init (present : Slot → Bool) : State :=
  ⟨fun dst => if present dst then some .before else none, []⟩

/-- All calls are back. -/
def State.AllDone (s : State) : Prop := ∀ p ∈ s.calls, ∃ r, p = .done r

/-! ### What a call has placed -/

/-- The names under which a call has placed files that it has not taken back. -/
def Phase.placed : Phase → List Slot
  | .linking _ made      => made
  | .rollBack made _     => made
  | .remove dst made _   => dst :: made
  | .done (.ok true)     => [.key, .cert]
  | _                    => []

/-- The key is linked first, and taken back if the certificate cannot be linked. -/
inductive Phase.Ordered : Phase → Prop
  | enter (root : Bool) : Ordered (.enter root)
  | lookCert : Ordered .lookCert
  | lookKey (cert : Bool) : Ordered (.lookKey cert)
  | make : Ordered .make
  | first : Ordered (.linking [.key, .cert] [])
  | second : Ordered (.linking [.cert] [.key])
  | last : Ordered (.linking [] [.key, .cert])
  | rollBack (e : LinkError) : Ordered (.rollBack [.key] e)
  | remove (e : LinkError) : Ordered (.remove .key [] e)
  | empty (e : LinkError) : Ordered (.rollBack [] e)
  | lookCertAgain : Ordered .lookCertAgain
  | lookKeyAgain (cert : Bool) : Ordered (.lookKeyAgain cert)
  | done (result : Except CreateError Bool) : Ordered (.done result)

/-- The file under a name is a call's if and only if the call has placed it there. -/
def State.Owned (s : State) : Prop :=
  ∀ dst k, s.names dst = some (.call k) ↔ ∃ p, s.calls[k]? = some p ∧ dst ∈ p.placed

/-- What a step of a call does to the names, and to what the call has placed: nothing, or it places
    a file under a free name, or it takes a file of its own back. -/
inductive Effect (k : Nat) (names : Names) (placed : List Slot) : Names → List Slot → Prop
  | same : Effect k names placed names placed
  | link {dst : Slot} {placed' : List Slot} (hfree : names dst = none)
      (hplaced : ∀ x, x ∈ placed' ↔ x = dst ∨ x ∈ placed) :
      Effect k names placed (Function.update names dst (some (.call k))) placed'
  | remove {dst : Slot} {placed' : List Slot} (howned : names dst = some (.call k))
      (hplaced : ∀ x, x ∈ placed ↔ x = dst ∨ x ∈ placed') (hgone : dst ∉ placed') :
      Effect k names placed (Function.update names dst none) placed'

section

variable {k : Nat} {faults : Faults} {names : Names} {p : Phase}

/-- **What a step does.**  A call whose files are where it placed them links onto free names only,
    removes its own files only, and goes on in order. -/
theorem advance_effect (hp : p.Ordered) (hown : ∀ dst ∈ p.placed, names dst = some (.call k)) :
    (advance k faults names p).1.Ordered ∧
      Effect k names p.placed (advance k faults names p).2 (advance k faults names p).1.placed := by
  cases hp with
  | enter root =>
    cases root with
    | true => exact ⟨.done _, .same⟩
    | false =>
      cases h : faults.setUp with
      | none => simp only [advance, h]; exact ⟨.lookCert, .same⟩
      | some e => simp only [advance, h]; exact ⟨.done _, .same⟩
  | lookCert => exact ⟨.lookKey _, .same⟩
  -- a pair is made only where both files are missing
  | lookKey cert =>
    cases cert <;> cases h : (names .key).isSome <;> simp only [advance, h]
    · exact ⟨.make, .same⟩
    · exact ⟨.done _, .same⟩
    · exact ⟨.done _, .same⟩
    · exact ⟨.done _, .same⟩
  | make =>
    cases h : faults.setUp with
    | none => simp only [advance, h]; exact ⟨.first, .same⟩
    | some e => simp only [advance, h]; exact ⟨.done _, .same⟩
  -- the key gets its name, unless it is taken
  | first =>
    cases h : faults.link with
    | some e => simp only [advance, h]; exact ⟨.empty _, .same⟩
    | none =>
      cases hkey : names .key with
      | some o => simp only [advance, h, hkey]; exact ⟨.empty _, .same⟩
      | none =>
        simp only [advance, h, hkey]
        exact ⟨.second, .link hkey (by simp [Phase.placed])⟩
  -- the certificate follows, and the key is taken back where it cannot
  | second =>
    cases h : faults.link with
    | some e => simp only [advance, h]; exact ⟨.rollBack _, .same⟩
    | none =>
      cases hcert : names .cert with
      | some o => simp only [advance, h, hcert]; exact ⟨.rollBack _, .same⟩
      | none =>
        simp only [advance, h, hcert]
        exact ⟨.last, .link hcert (by simp [Phase.placed, or_comm])⟩
  | last => exact ⟨.done _, .same⟩
  -- the name that is taken back is this call's own
  | rollBack e =>
    have hkey := hown .key List.mem_cons_self
    simp only [advance, hkey, if_true]
    exact ⟨.remove _, .same⟩
  | remove e =>
    have hkey := hown .key List.mem_cons_self
    exact ⟨.empty _, .remove hkey (by simp [Phase.placed, advance])
      (by simp [Phase.placed, advance])⟩
  -- a name that was taken is looked at again
  | empty e =>
    cases e with
    | alreadyExists => exact ⟨.lookCertAgain, .same⟩
    | other errno => exact ⟨.done _, .same⟩
  | lookCertAgain => exact ⟨.lookKeyAgain _, .same⟩
  | lookKeyAgain cert =>
    cases cert <;> cases h : (names .key).isSome <;> simp only [advance, h] <;>
      exact ⟨.done _, .same⟩
  | done result => exact ⟨.done _, .same⟩

variable {names' : Names} {placed placed' : List Slot}

/-- No file is replaced, and none is removed but a call's own. -/
theorem Effect.keeps (h : Effect k names placed names' placed') {x : Slot} {o : Owner}
    (hx : names x = some o) : names' x = some o ∨ o = .call k ∧ names' x = none := by
  cases h with
  | same => exact .inl hx
  | @link dst _ hfree _ =>
    have hne : x ≠ dst := fun h => by
      rw [h, hfree] at hx
      cases hx
    exact .inl (by rw [Function.update_of_ne hne, hx])
  | @remove dst _ howned _ _ =>
    by_cases hne : x = dst
    · subst hne
      exact .inr ⟨Option.some.inj (hx.symm.trans howned), Function.update_self _ _ _⟩
    · exact .inl (by rw [Function.update_of_ne hne, hx])

/-- What is not the call's is what it was. -/
theorem Effect.other (h : Effect k names placed names' placed') {x : Slot} {o : Owner}
    (ho : o ≠ .call k) : names' x = some o ↔ names x = some o := by
  refine ⟨fun hx => ?_, fun hx => (h.keeps hx).resolve_right fun h => ho h.1⟩
  cases h with
  | same => exact hx
  | @link dst _ _ _ =>
    by_cases hne : x = dst
    · subst hne
      rw [Function.update_self] at hx
      exact absurd (Option.some.inj hx).symm ho
    · rwa [Function.update_of_ne hne] at hx
  | @remove dst _ _ _ _ =>
    by_cases hne : x = dst
    · subst hne
      rw [Function.update_self] at hx
      cases hx
    · rwa [Function.update_of_ne hne] at hx

/-- The call's files are where it has placed them. -/
theorem Effect.own (h : Effect k names placed names' placed')
    (hown : ∀ x, names x = some (.call k) ↔ x ∈ placed) (x : Slot) :
    names' x = some (.call k) ↔ x ∈ placed' := by
  cases h with
  | same => exact hown x
  | @link dst _ _ hplaced =>
    rw [hplaced]
    by_cases hne : x = dst
    · subst hne
      rw [Function.update_self]
      exact iff_of_true rfl (.inl rfl)
    · rw [Function.update_of_ne hne, hown]
      exact (or_iff_right hne).symm
  | @remove dst _ _ hplaced hgone =>
    by_cases hne : x = dst
    · subst hne
      rw [Function.update_self]
      exact iff_of_false (by simp) hgone
    · rw [Function.update_of_ne hne, hown, hplaced]
      exact or_iff_right hne

end

/-! ### Every run -/

/-- What holds in every state that is reached: the calls are in order, the files of a call are where
    it has placed them, and what was there before is still. -/
structure State.Sound (present : Slot → Bool) (s : State) : Prop where
  ordered : ∀ p ∈ s.calls, p.Ordered
  owned : s.Owned
  before : ∀ x, s.names x = some .before ↔ present x = true

private theorem sound_init (present : Slot → Bool) : (State.init present).Sound present where
  ordered := by simp [State.init]
  owned := by
    intro x k
    refine iff_of_false ?_ (by simp [State.init])
    unfold State.init
    dsimp only
    split_ifs <;> simp
  before := by
    intro x
    unfold State.init
    dsimp only
    split_ifs with h <;> simp [h]

/-- One more call has placed nothing. -/
theorem State.Sound.call {present : Slot → Bool} {s : State} (h : s.Sound present) (root : Bool) :
    (s.step (.call root)).Sound present where
  ordered := by
    intro p hp
    rcases List.mem_append.mp hp with hp | hp
    · exact h.ordered p hp
    · rw [List.mem_singleton.mp hp]
      exact .enter root
  owned := by
    intro x k
    rw [show (s.step (.call root)).names = s.names from rfl, h.owned]
    constructor
    · rintro ⟨p, hp, hx⟩
      exact ⟨p, by rw [← hp]; exact List.getElem?_append_left (List.getElem?_eq_some_iff.mp hp).1,
        hx⟩
    · rintro ⟨p, hp, hx⟩
      rcases Nat.lt_or_ge k s.calls.length with hlt | hge
      · exact ⟨p, by rw [← hp]; exact (List.getElem?_append_left hlt).symm, hx⟩
      · have hmem := List.mem_of_getElem? ((List.getElem?_append_right hge).symm.trans hp)
        rw [List.mem_singleton.mp hmem] at hx
        cases hx
  before := h.before

/-- The names after a step of a call, and what it has placed then. -/
theorem State.Sound.effect {present : Slot → Bool} {s : State} (h : s.Sound present) {k : Nat}
    {p : Phase} (hk : s.calls[k]? = some p) (faults : Faults) :
    (advance k faults s.names p).1.Ordered ∧
      Effect k s.names p.placed (advance k faults s.names p).2
        (advance k faults s.names p).1.placed :=
  advance_effect (h.ordered p (List.mem_of_getElem? hk)) fun _ hx =>
    (h.owned _ k).mpr ⟨p, hk, hx⟩

theorem State.step_advance {s : State} {k : Nat} {p : Phase} (hk : s.calls[k]? = some p)
    (faults : Faults) : s.step (.advance k faults) =
      ⟨(advance k faults s.names p).2, s.calls.set k (advance k faults s.names p).1⟩ := by
  rw [State.step, hk]

/-- **Every step keeps that.** -/
theorem State.Sound.step {present : Slot → Bool} {s : State} (h : s.Sound present) (a : Action) :
    (s.step a).Sound present := by
  cases a with
  | call root => exact h.call root
  | advance k faults =>
    cases hk : s.calls[k]? with
    | none =>
      rw [State.step, hk]
      exact h
    | some p =>
      obtain ⟨hordered, heffect⟩ := h.effect hk faults
      have hlt := (List.getElem?_eq_some_iff.mp hk).1
      rw [State.step_advance hk]
      refine ⟨fun q hq => ?_, fun x j => ?_, fun x => ?_⟩
      · rcases List.mem_or_eq_of_mem_set hq with hq | rfl
        · exact h.ordered q hq
        · exact hordered
      · by_cases hj : j = k
        · subst hj
          have hown (x : Slot) : s.names x = some (.call j) ↔ x ∈ p.placed := by
            rw [h.owned, hk]
            simp
          show (advance j faults s.names p).2 x = _ ↔ _
          rw [heffect.own hown, List.getElem?_set_self hlt]
          simp
        · show (advance k faults s.names p).2 x = _ ↔ _
          rw [heffect.other (by simp [hj]), h.owned, List.getElem?_set_ne (Ne.symm hj)]
      · show (advance k faults s.names p).2 x = _ ↔ _
        rw [heffect.other (by simp), h.before]

theorem sound_run (present : Slot → Bool) (as : List Action) :
    (machine.run (.init present) as).Sound present :=
  Machine.Keeps.run (fun _ a hs => hs.step a) (sound_init present) as

/-- A call that is back has placed both files or none. -/
theorem placed_done (r : Except CreateError Bool) :
    (r = .ok true ∧ (Phase.done r).placed = [.key, .cert]) ∨
      (r ≠ .ok true ∧ (Phase.done r).placed = []) := by
  rcases r with e | _ | _
  · exact .inr ⟨by simp, rfl⟩
  · exact .inr ⟨by simp, rfl⟩
  · exact .inl ⟨rfl, rfl⟩

/-- When all calls are back, they have placed both files or none. -/
theorem State.Sound.paired {present : Slot → Bool} {s : State} (h : s.Sound present)
    (hdone : s.AllDone) (x y : Slot) {k : Nat} (hx : s.names x = some (.call k)) :
    s.names y = some (.call k) := by
  obtain ⟨p, hk, hmem⟩ := (h.owned x k).mp hx
  obtain ⟨r, rfl⟩ := hdone p (List.mem_of_getElem? hk)
  rw [h.owned]
  refine ⟨_, hk, ?_⟩
  rcases placed_done r with ⟨-, hr⟩ | ⟨-, hr⟩
  · rw [hr]
    cases y <;> decide
  · rw [hr] at hmem
    cases hmem

/-- **Calls that compete.**  After every run of any number of calls, without the lock, whatever
    fails and whatever was there before: the next step replaces no file, and removes one only if it
    is of the call that makes the step; when there were both files or none and all calls are back,
    there are both or none; and a call that is back says that it made the pair if and only if both
    files are its own. -/
theorem createWith_safe (present : Slot → Bool) (as : List Action) :
    let s := machine.run (.init present) as
    (∀ a x o, s.names x = some o → (s.step a).names x = some o ∨
      ∃ k faults, a = .advance k faults ∧ o = .call k ∧ (s.step a).names x = none) ∧
    (present .key = present .cert → s.AllDone →
      (s.names .key).isSome = (s.names .cert).isSome) ∧
    ∀ k r, s.calls[k]? = some (.done r) → (r = .ok true ↔
      s.names .key = some (.call k) ∧ s.names .cert = some (.call k)) := by
  intro s
  have hs : s.Sound present := sound_run present as
  refine ⟨fun a x o hx => ?_, fun hpresent hdone => ?_, fun k r hk => ?_⟩
  · cases a with
    | call root => exact .inl hx
    | advance k faults =>
      cases hk : s.calls[k]? with
      | none =>
        refine .inl ?_
        rw [State.step, hk]
        exact hx
      | some p =>
        rw [State.step_advance hk]
        rcases (hs.effect hk faults).2.keeps hx with hx | ⟨ho, hx⟩
        · exact .inl hx
        · exact .inr ⟨k, faults, rfl, ho, hx⟩
  · -- what is under one name is under the other, be it from before or of a call
    have hsome (x y : Slot) (hxy : present x = present y) (h : (s.names x).isSome) :
        (s.names y).isSome := by
      obtain ⟨o, ho⟩ := Option.isSome_iff_exists.mp h
      cases o with
      | before =>
        rw [(hs.before y).mpr (hxy ▸ (hs.before x).mp ho)]
        rfl
      | call k =>
        rw [hs.paired hdone x y ho]
        rfl
    exact Bool.eq_iff_iff.mpr ⟨hsome _ _ hpresent, hsome _ _ hpresent.symm⟩
  · rw [hs.owned, hs.owned, hk]
    rcases placed_done r with ⟨rfl, hr⟩ | ⟨hne, hr⟩
    · refine iff_of_true rfl ⟨⟨_, rfl, ?_⟩, ⟨_, rfl, ?_⟩⟩ <;> rw [hr] <;> decide
    · refine iff_of_false hne ?_
      rintro ⟨⟨p, hp, hmem⟩, -⟩
      cases hp
      rw [hr] at hmem
      cases hmem

/-! ### Renaming a legacy pair -/

/-- The files of the directory: a pair under the legacy names, the self-signed pair, and whether
    there is a validation record. -/
structure Keys where
  cert : Option (List UInt8)
  key : Option (List UInt8)
  selfCert : Option (List UInt8)
  selfKey : Option (List UInt8)
  record : Bool
  deriving DecidableEq

/-- What the migration does with files. -/
inductive Op
  | statCert
  | statKey
  | lock
  | statRecord
  | statSelfCert
  | statSelfKey
  | readCert
  | readKey
  | verify
  | linkKey
  | linkCert
  | removeKey
  | removeCert
  deriving DecidableEq

/-- What is asked of a pair: does the key match, and is the certificate signed by its own key and
    not by Apple? -/
structure Checks where
  keyMatches : List UInt8 → List UInt8 → Bool
  isSelfSigned : List UInt8 → Bool

/-- The largest file that is read. -/
def maxFile : Nat := 2 ^ 20

section

variable (c : Checks) (fails : Op → Bool)

/-- A file is seen if there is one and the look does not fail. -/
def seen (op : Op) (file : Option (List UInt8)) : Bool := file.isSome && !fails op

def readOpt (op : Op) (file : Option (List UInt8)) : Except Op (Option (List UInt8)) :=
  match file with
  | none    => .ok none
  | some bs => if fails op || maxFile < bs.length then .error op else .ok (some bs)

/-- A file under one more name, which must be free. -/
def hardLink (op : Op) (src dst : Option (List UInt8)) : Except Op (Option (List UInt8)) :=
  if fails op || src.isNone || dst.isSome then .error op else .ok src

/-- The pair gets its new names, and then loses the legacy ones. -/
def rename (d : Keys) : Except Op Text × Keys :=
  match hardLink fails .linkKey d.key d.selfKey with
  | .error e    => (.error e, d)
  | .ok selfKey =>
    let d := { d with selfKey }
    match hardLink fails .linkCert d.cert d.selfCert with
    | .error e     => (.error e, d)
    | .ok selfCert =>
      let d := { d with selfCert }
      if fails .removeKey then (.error .removeKey, d)
      else
        let d := { d with key := none }
        if fails .removeCert then (.error .removeCert, d)
        else (.ok "renamed".toList, { d with cert := none })

/-- A self-signed pair under the legacy names is renamed, when it is provably safe. -/
def migrateLegacy (d : Keys) : Except Op Text × Keys :=
  if !(seen fails .statCert d.cert && seen fails .statKey d.key) then
    (.ok "nothing-to-rename".toList, d)
  else if fails .lock then (.error .lock, d)
  else if d.record && !fails .statRecord then (.ok "has-record".toList, d)
  else if seen fails .statSelfCert d.selfCert || seen fails .statSelfKey d.selfKey then
    (.ok "destination-exists".toList, d)
  else match readOpt fails .readCert d.cert, readOpt fails .readKey d.key with
    | .error e, _         => (.error e, d)
    | .ok _, .error e     => (.error e, d)
    | .ok cert, .ok key   =>
      if !c.keyMatches (cert.getD []) (key.getD []) then (.ok "key-mismatch".toList, d)
      else if fails .verify then (.error .verify, d)
      else if !c.isSelfSigned (cert.getD []) then (.ok "not-self-signed".toList, d)
      else rename fails d

/-- Nothing stops the migration before the links. -/
structure Ahead (d : Keys) (cert key : List UInt8) : Prop where
  seen : fails .statCert = false ∧ fails .statKey = false
  locked : fails .lock = false
  record : d.record = true → fails .statRecord = true
  read : fails .readCert = false ∧ fails .readKey = false
  small : cert.length ≤ maxFile ∧ key.length ≤ maxFile
  safe : c.keyMatches cert key = true ∧ fails .verify = false ∧ c.isSelfSigned cert = true

variable {c fails} {d : Keys} {cert key : List UInt8}

theorem readOpt_of_small {op : Op} {bs : List UInt8} (hop : fails op = false)
    (hbs : bs.length ≤ maxFile) : readOpt fails op (some bs) = .ok (some bs) := by
  unfold readOpt
  simp [hop, hbs]

theorem readOpt_eq_ok {op : Op} {bs : List UInt8} {file : Option (List UInt8)}
    (h : readOpt fails op (some bs) = .ok file) :
    fails op = false ∧ bs.length ≤ maxFile ∧ file = some bs := by
  unfold readOpt at h
  dsimp only at h
  split_ifs at h with hop
  cases h
  simp only [Bool.or_eq_true, decide_eq_true_eq, not_or, Bool.not_eq_true, not_lt] at hop
  exact ⟨hop.1, hop.2, rfl⟩

/-- The migration gets to its links. -/
private theorem migrateLegacy_ahead (hcert : d.cert = some cert) (hkey : d.key = some key)
    (hselfCert : d.selfCert = none) (hselfKey : d.selfKey = none) (h : Ahead c fails d cert key) :
    migrateLegacy c fails d = rename fails d := by
  obtain ⟨hseen, hlock, hrecord, ⟨hreadCert, hreadKey⟩, ⟨hsmallCert, hsmallKey⟩, hmatch, hverify,
    hself⟩ := h
  have hrec : (d.record && !fails .statRecord) = false := by
    cases hr : d.record with
    | false => rfl
    | true => rw [hrecord hr]; rfl
  unfold migrateLegacy seen
  rw [hcert, hkey, hselfCert, hselfKey, readOpt_of_small hreadCert hsmallCert,
    readOpt_of_small hreadKey hsmallKey]
  simp [hseen, hlock, hrec, hmatch, hverify, hself]

/-- Otherwise it changes nothing. -/
private theorem migrateLegacy_not_ahead (hcert : d.cert = some cert) (hkey : d.key = some key)
    (h : ¬ Ahead c fails d cert key) : (migrateLegacy c fails d).2 = d := by
  unfold migrateLegacy
  by_cases hseen : (!(seen fails .statCert d.cert && seen fails .statKey d.key)) = true
  · rw [if_pos hseen]
  rw [if_neg hseen]
  by_cases hlock : fails .lock = true
  · rw [if_pos hlock]
  rw [if_neg hlock]
  by_cases hrecord : (d.record && !fails .statRecord) = true
  · rw [if_pos hrecord]
  rw [if_neg hrecord]
  by_cases hdest : (seen fails .statSelfCert d.selfCert || seen fails .statSelfKey d.selfKey) = true
  · rw [if_pos hdest]
  · rw [if_neg hdest, hcert, hkey]
    split
    · rfl
    · rfl
    · rename_i cert' key' hreadCert hreadKey
      obtain ⟨hcertOk, hcertSmall, rfl⟩ := readOpt_eq_ok hreadCert
      obtain ⟨hkeyOk, hkeySmall, rfl⟩ := readOpt_eq_ok hreadKey
      split_ifs with hmatch hverify hself
      · rfl
      · rfl
      · rfl
      · refine absurd ⟨?_, ?_, ?_, ⟨hcertOk, hkeyOk⟩, ⟨hcertSmall, hkeySmall⟩, ?_⟩ h
        · unfold seen at hseen
          rw [hcert, hkey] at hseen
          simpa using hseen
        · simpa using hlock
        · simpa using hrecord
        · simp only [Bool.not_eq_true, Bool.not_eq_false', Option.getD_some] at hmatch hverify hself
          exact ⟨by simpa using hmatch, hverify, by simpa using hself⟩

/-- What the links leave. -/
private theorem rename_pair (hcert : d.cert = some cert) (hkey : d.key = some key)
    (hselfCert : d.selfCert = none) (hselfKey : d.selfKey = none) :
    (rename fails d).2.selfKey = (if fails .linkKey then none else some key) ∧
      (rename fails d).2.selfCert =
        (if fails .linkKey || fails .linkCert then none else some cert) := by
  unfold rename hardLink
  rw [hcert, hkey, hselfCert, hselfKey]
  cases h₁ : fails .linkKey <;> cases h₂ : fails .linkCert <;> cases h₃ : fails .removeKey <;>
    cases h₄ : fails .removeCert <;> simp [hselfCert, hselfKey]

/-- **When the migration is atomic.**  A legacy pair is there and no self-signed one.  Whatever
    fails, afterwards there is no file of the self-signed pair or the legacy pair under its names,
    unless the migration gets to its links, the key is linked and the link of the certificate
    fails. -/
theorem migrateLegacy_iff (hcert : d.cert = some cert) (hkey : d.key = some key)
    (hselfCert : d.selfCert = none) (hselfKey : d.selfKey = none) :
    ((migrateLegacy c fails d).2.selfCert = none ∧ (migrateLegacy c fails d).2.selfKey = none ∨
        (migrateLegacy c fails d).2.selfCert = some cert ∧
          (migrateLegacy c fails d).2.selfKey = some key) ↔
      ¬ (Ahead c fails d cert key ∧ fails .linkKey = false ∧ fails .linkCert = true) := by
  by_cases h : Ahead c fails d cert key
  · obtain ⟨hk, hc⟩ := @rename_pair fails d cert key hcert hkey hselfCert hselfKey
    rw [migrateLegacy_ahead hcert hkey hselfCert hselfKey h, hk, hc]
    cases h₁ : fails .linkKey <;> cases h₂ : fails .linkCert <;> simp [h]
  · rw [migrateLegacy_not_ahead hcert hkey h, hselfCert, hselfKey]
    simp [h]

end

/-- A pair under the legacy names. -/
def legacyPair : Keys := ⟨some [1], some [2], none, none, false⟩

/-- Nothing fails: the pair has its new names. -/
theorem migrateLegacy_whole :
    (migrateLegacy ⟨fun _ _ => true, fun _ => true⟩ (fun _ => false) legacyPair).2.selfCert = none ∧
      (migrateLegacy ⟨fun _ _ => true, fun _ => true⟩ (fun _ => false) legacyPair).2.selfKey = none ∨
    (migrateLegacy ⟨fun _ _ => true, fun _ => true⟩ (fun _ => false) legacyPair).2.selfCert =
        some [1] ∧
      (migrateLegacy ⟨fun _ _ => true, fun _ => true⟩ (fun _ => false) legacyPair).2.selfKey =
        some [2] :=
  (migrateLegacy_iff rfl rfl rfl rfl).mpr fun h => absurd h.2.2 (by decide)

/-- The link of the certificate fails: half a pair is left, and a call that creates the pair does
    not repair it. -/
theorem migrateLegacy_half :
    migrateLegacy ⟨fun _ _ => true, fun _ => true⟩ (fun op => op = .linkCert) legacyPair =
        (.error .linkCert, { legacyPair with selfKey := some [2] }) ∧
      (machine.run (.init fun x => x = .key)
        [.call false, .advance 0 ⟨none, none⟩, .advance 0 ⟨none, none⟩,
          .advance 0 ⟨none, none⟩]).calls[0]? = some (.done (.error .halfPair)) :=
  ⟨rfl, rfl⟩

end Omdrop.Identity.SelfSigned
