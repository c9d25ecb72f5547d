import Omdrop.Plist.Value

namespace Omdrop.Plist

open Omdrop.Text Omdrop.Nested

/-!
# Property lists from untrusted peers

`parse` builds a value from the event stream itself, with the collections that are open on a
stack, and gives up when there are too many events, when they nest too deep, when what they
decode to is too large, or at a date no calendar shows.

* `parse_iff` — it succeeds exactly on events that are one complete value and stay `Within` the
  limits, with the value that the recursive builder makes of them;
* `parse_reads` — it never asks for more than `maxEvents + 1` events.
-/

/-- Values and collection ends one property list may hold. -/
@[irreducible] def maxEvents : Nat := 200000

/-- Collections inside collections. -/
def maxDepth : Nat := 32

/-- What a value other than data or a string counts. -/
def valueOverhead : Nat := 16

/-- The byte budget never goes below this. -/
def minByteBudget : Nat := 4 * 2 ^ 20

/-- The largest `usize`. -/
def usizeMax : Nat := 2 ^ 64 - 1

/-- How many decoded bytes a property list of `inputLen` bytes may produce. -/
def byteBudget (inputLen : Nat) : Nat := max (min (inputLen * 4) usizeMax) minByteBudget

/-- Why a property list is refused. -/
inductive PlistError
  | invalid (m : Text)
  | tooComplex
  deriving DecidableEq, Repr

/-- The first nanosecond of the year 1, before the epoch. -/
def dateMinBeforeEpoch : Int := 62135596800 * 10 ^ 9

/-- The end of the year 9999, after the epoch. -/
def dateEndAfterEpoch : Int := 253402300800 * 10 ^ 9

/-- Does a date lie in the years 1 to 9999? -/
def dateOk (d : Int) : Bool :=
  if 0 ≤ d then d < dateEndAfterEpoch else -d ≤ dateMinBeforeEpoch

/-- A date that can be formatted. -/
def inRange (d : Int) : Except PlistError Int :=
  if dateOk d then .ok d else .error (.invalid "date outside years 0001-9999")

/-- What an event counts against the byte budget. -/
def Event.weight : Event → Nat
  | .data d   => d.length
  | .string s => (utf8 s).length
  | _         => valueOverhead

/-- A parse under way: the collections that are open, innermost first, the root value when it is
    there, and how much was decoded. -/
structure Parsing where
  stack : List Frame
  root : Option Value
  decoded : Nat

/-- Where a parse starts. -/
def Parsing.start : Parsing := ⟨[], none, 0⟩

/-- Put a complete value where it belongs. -/
def Parsing.attach (p : Parsing) (value : Value) : Except PlistError Parsing :=
  match p.stack with
  | [] =>
    if p.root.isNone then .ok { p with root := some value }
    else .error (.invalid "more than one root value")
  | .array items :: stack => .ok { p with stack := .array (items ++ [value]) :: stack }
  | .dict d none :: stack =>
    match value with
    | .string k => .ok { p with stack := .dict d (some k) :: stack }
    | _         => .error (.invalid "dictionary key is not a string")
  | .dict d (some k) :: stack => .ok { p with stack := .dict (d.insert k value) none :: stack }

/-- Open a collection. -/
def Parsing.push (p : Parsing) (frame : Frame) : Except PlistError Parsing :=
  if maxDepth ≤ p.stack.length then .error .tooComplex else .ok { p with stack := frame :: p.stack }

/-- Take one event. -/
def Parsing.step (budget : Nat) (p : Parsing) (event : Event) : Except PlistError Parsing :=
  let p := { p with decoded := min (p.decoded + event.weight) usizeMax }
  if budget < p.decoded then .error .tooComplex else
  match event with
  | .startArray _      => p.push (.array [])
  | .startDictionary _ => p.push (.dict [] none)
  | .endCollection     =>
    match p.stack with
    | .array items :: stack => { p with stack }.attach (.array items)
    | .dict d none :: stack => { p with stack }.attach (.dictionary d)
    | _                     => .error (.invalid "unbalanced collection")
  | .boolean b         => p.attach (.boolean b)
  | .data d            => p.attach (.data d)
  | .date d            => (inRange d).bind fun d => p.attach (.date d)
  | .integer i         => p.attach (.integer i)
  | .real r            => p.attach (.real r)
  | .string s          => p.attach (.string s)
  | .uid u             => p.attach (.uid u)
  | .unknown           => .error (.invalid "unknown plist event")

/-- The value at the end of the events. -/
def Parsing.finish (p : Parsing) : Except PlistError Value :=
  match p.root, p.stack with
  | some value, [] => .ok value
  | _, _           => .error (.invalid "truncated property list")

/-- A source of events: how it starts on some bytes, and what it answers. -/
structure EventReader where
  State : Type
  new : List UInt8 → State
  next : State → Option (Except Text Event × State)

variable (R : EventReader)

/-- Take events until there are no more, `left` of them at most; answers how many were read and
    what came of it. -/
def parseFrom (budget left : Nat) (r : R.State) (p : Parsing) : Nat × Except PlistError Value :=
  match R.next r with
  | none => (0, p.finish)
  | some (event, r') =>
    match left with
    | 0 => (1, .error .tooComplex)
    | left + 1 =>
      match event with
      | .error m  => (1, .error (.invalid m))
      | .ok event =>
        match p.step budget event with
        | .error e => (1, .error e)
        | .ok p'   =>
          let (n, res) := parseFrom budget left r' p'
          (n + 1, res)

/-- Read a property list: how many events were read, and the value. -/
def parseCounted (data : List UInt8) : Nat × Except PlistError Value :=
  parseFrom R (byteBudget data.length) maxEvents (R.new data) .start

/-- Parse an XML or binary property list. -/
def parse (data : List UInt8) : Except PlistError Value := (parseCounted R data).2

/-! ### What is accepted -/

/-- From `r` on the reader answers exactly these events, and then ends. -/
inductive EventReader.Gives : R.State → List Event → Prop
  | nil {r} : R.next r = none → EventReader.Gives r []
  | cons {r r' e es} : R.next r = some (.ok e, r') → EventReader.Gives r' es →
      EventReader.Gives r (e :: es)

/-- Does the event open a collection? -/
def Event.isStart : Event → Bool
  | .startArray _      => true
  | .startDictionary _ => true
  | _                  => false

/-- Does the event close a collection? -/
def Event.isEnd : Event → Bool
  | .endCollection => true
  | _              => false

/-- How many collections some events open. -/
def opened (events : List Event) : Nat := events.countP Event.isStart

/-- How many collections some events close. -/
def closed (events : List Event) : Nat := events.countP Event.isEnd

/-- What some events count against the byte budget, as far as a `usize` can tell. -/
def decodedBytes (events : List Event) : Nat := min (events.map Event.weight).sum usizeMax

/-- The limits of a property list of `inputLen` bytes. -/
structure Within (inputLen : Nat) (events : List Event) : Prop where
  count : events.length ≤ maxEvents
  depth : ∀ front, front <+: events → opened front ≤ closed front + maxDepth
  bytes : decodedBytes events ≤ byteBudget inputLen
  dates : ∀ d, .date d ∈ events → dateOk d = true

/-- A reader gives one sequence of events at most. -/
theorem EventReader.Gives.unique {R : EventReader} {r : R.State} {es es' : List Event}
    (h : R.Gives r es) (h' : R.Gives r es') : es = es' := by
  induction h generalizing es' with
  | nil hend =>
    cases h' with
    | nil => rfl
    | cons hnext _ =>
      rw [hend] at hnext
      cases hnext
  | cons hnext _ ih =>
    cases h' with
    | nil hend =>
      rw [hend] at hnext
      cases hnext
    | cons hnext' hes =>
      rw [hnext] at hnext'
      cases hnext'
      rw [ih hes]

/-! ### One event -/

variable {R} {budget : Nat} {p p' : Parsing} {e : Event} {es : List Event}

/-- What is open and what is there, without the account of the bytes. -/
def Parsing.state (p : Parsing) : State Frame Value := ⟨p.stack, p.root⟩

/-- The limits that are looked at with an event. -/
structure Fits (budget : Nat) (p : Parsing) (e : Event) : Prop where
  bytes : min (p.decoded + e.weight) usizeMax ≤ budget
  depth : e.isStart = true → p.stack.length < maxDepth
  date : ∀ d, e = .date d → dateOk d = true

theorem attach_iff {v : Value} :
    p.attach v = .ok p' ↔ p.state.place builder v = some p'.state ∧ p'.decoded = p.decoded := by
  obtain ⟨stack, root, decoded⟩ := p
  obtain ⟨stack', root', decoded'⟩ := p'
  unfold Parsing.attach State.place Parsing.state
  rcases stack with - | ⟨⟨items⟩ | ⟨d, - | k⟩, stack⟩
  · cases root with
    | none =>
      simp
      tauto
    | some r => simp
  · simp [builder, Frame.put]
    tauto
  · cases v with
    | string k =>
      simp [builder, Frame.put]
      tauto
    | _ => simp [builder, Frame.put]
  · simp [builder, Frame.put]
    tauto

/-- **What one event does.**  It is taken when the limits allow it and the builder takes it. -/
theorem step_iff :
    p.step budget e = .ok p' ↔
      Fits budget p e ∧ p.state.step builder e.token = some p'.state ∧
        p'.decoded = min (p.decoded + e.weight) usizeMax := by
  unfold Parsing.step
  -- `q` is the parse with the event's bytes on its account
  generalize hq : { p with decoded := min (p.decoded + e.weight) usizeMax } = q
  have hstate : p.state = q.state := by
    rw [← hq]
    rfl
  have hdecoded : min (p.decoded + e.weight) usizeMax = q.decoded := by rw [← hq]
  have hlen : p.stack.length = q.stack.length := by rw [← hq]
  simp only [hstate, hdecoded]
  by_cases hbytes : budget < q.decoded
  · rw [if_pos hbytes]
    refine ⟨by simp, fun h => ?_⟩
    have := h.1.bytes
    omega
  rw [if_neg hbytes]
  have hfits (hdepth : e.isStart = true → q.stack.length < maxDepth)
      (hdate : ∀ d, e = .date d → dateOk d = true) : Fits budget p e :=
    ⟨by omega, by rwa [hlen], hdate⟩
  -- an event that is a value by itself
  have hvalue (v : Value) (hv : e.value = some v) (hleaf : e.token = .leaf e)
      (hfits : Fits budget p e) :
      q.attach v = .ok p' ↔
        Fits budget p e ∧ q.state.step builder e.token = some p'.state ∧
          p'.decoded = q.decoded := by
    rw [attach_iff, hleaf]
    show _ ↔ _ ∧ (e.value).bind (q.state.place builder) = _ ∧ _
    rw [hv]
    exact (and_iff_right hfits).symm
  -- an event that opens a collection
  have hopen (frame : Frame) (k : Collection) (hframe : Frame.empty k = frame)
      (htoken : e.token = .enter k) (hstart : e.isStart = true) (hdate : ∀ d, e ≠ .date d) :
      q.push frame = .ok p' ↔
        Fits budget p e ∧ q.state.step builder e.token = some p'.state ∧
          p'.decoded = q.decoded := by
    unfold Parsing.push
    rw [htoken]
    show _ ↔ _ ∧ some (⟨Frame.empty k :: q.stack, q.root⟩ : State Frame Value) = _ ∧ _
    rw [hframe]
    obtain ⟨stack', root', decoded'⟩ := p'
    split
    · rename_i hdeep
      refine ⟨by simp, fun h => ?_⟩
      have := h.1.depth hstart
      omega
    · rename_i hshallow
      have hfits := hfits (fun _ => by omega) fun d hd => absurd hd (hdate d)
      simp [Parsing.state, hfits]
      tauto
  cases e with
  | startArray len => exact hopen _ .array rfl rfl rfl (by simp)
  | startDictionary len => exact hopen _ .dictionary rfl rfl rfl (by simp)
  | endCollection =>
    have hok := hfits (by simp [Event.isStart]) (by simp)
    obtain ⟨stack, root, decoded⟩ := q
    rcases stack with - | ⟨⟨items⟩ | ⟨d, - | k⟩, stack⟩
    · simp [Event.token, State.step, Parsing.state]
    · exact attach_iff.trans (and_iff_right hok).symm
    · exact attach_iff.trans (and_iff_right hok).symm
    · simp [Event.token, State.step, Parsing.state, builder, Frame.value]
  | boolean b => exact hvalue _ rfl rfl (hfits (by simp [Event.isStart]) (by simp))
  | data d => exact hvalue _ rfl rfl (hfits (by simp [Event.isStart]) (by simp))
  | date d =>
    by_cases hd : dateOk d
    · have hfits := hfits (by simp [Event.isStart]) (by simpa using hd)
      show (inRange d).bind _ = _ ↔ _
      rw [inRange, if_pos hd]
      exact hvalue _ rfl rfl hfits
    · show (inRange d).bind _ = _ ↔ _
      rw [inRange, if_neg hd]
      constructor
      · intro h
        cases h
      · intro h
        exact absurd (h.1.date d rfl) hd
  | integer i => exact hvalue _ rfl rfl (hfits (by simp [Event.isStart]) (by simp))
  | real r => exact hvalue _ rfl rfl (hfits (by simp [Event.isStart]) (by simp))
  | string t => exact hvalue _ rfl rfl (hfits (by simp [Event.isStart]) (by simp))
  | uid u => exact hvalue _ rfl rfl (hfits (by simp [Event.isStart]) (by simp))
  | unknown => simp [Event.token, State.step, builder, Event.value]

/-! ### A whole parse -/

/-- What the limits leave for the events that are still to come. -/
structure Allowed (budget : Nat) (p : Parsing) (es : List Event) : Prop where
  depth : ∀ front, front <+: es → p.stack.length + opened front ≤ closed front + maxDepth
  bytes : min (p.decoded + (es.map Event.weight).sum) usizeMax ≤ budget
  dates : ∀ d, .date d ∈ es → dateOk d = true

/-- A step opens and closes what its event does. -/
theorem length_step (h : p.state.step builder e.token = some p'.state) :
    p'.stack.length + closed [e] = p.stack.length + opened [e] := by
  obtain ⟨stack, root, decoded⟩ := p
  obtain ⟨stack', root', decoded'⟩ := p'
  have hplace {s : State Frame Value} {v : Value}
      (h : s.place builder v = some ⟨stack', root'⟩) : stack'.length = s.stack.length := by
    unfold State.place at h
    split at h
    · split at h
      · cases h
        simp [*]
      · cases h
    · rename_i hs
      obtain ⟨f, _, h⟩ := Option.map_eq_some_iff.mp h
      cases h
      rw [hs]
      rfl
  cases e with
  | startArray len =>
    cases h
    rfl
  | startDictionary len =>
    cases h
    rfl
  | endCollection =>
    cases stack with
    | nil => cases h
    | cons f stack =>
      obtain ⟨v, _, h⟩ := Option.bind_eq_some_iff.mp h
      have := hplace h
      simp [closed, opened, Event.isEnd, Event.isStart, this]
  | _ =>
    simp only [Event.token, State.step] at h
    obtain ⟨v, _, h⟩ := Option.bind_eq_some_iff.mp h
    exact hplace h

/-- **Limits, one event at a time.** -/
theorem allowed_cons (hdeep : p.stack.length ≤ maxDepth)
    (h : p.state.step builder e.token = some p'.state)
    (hd : p'.decoded = min (p.decoded + e.weight) usizeMax) :
    Allowed budget p (e :: es) ↔ Fits budget p e ∧ Allowed budget p' es := by
  have hlen := length_step h
  have hfront (front : List Event) : opened (e :: front) = opened [e] + opened front ∧
      closed (e :: front) = closed [e] + closed front := by
    rw [← List.singleton_append]
    exact ⟨List.countP_append, List.countP_append⟩
  constructor
  · intro ha
    have hbytes := ha.bytes
    rw [List.map_cons, List.sum_cons] at hbytes
    refine ⟨⟨by omega, fun hstart => ?_, fun d hd => ha.dates d (by simp [hd])⟩,
      ⟨fun front hfr => ?_, by rw [hd]; omega, fun d hd => ha.dates d (by simp [hd])⟩⟩
    · have hdepth := ha.depth [e] (by simp)
      have hone : opened [e] = 1 := by simp [opened, hstart]
      have hzero : closed [e] = 0 := by
        cases e <;> first | rfl | cases hstart
      omega
    · have hdepth := ha.depth (e :: front) (List.prefix_cons_inj e |>.mpr hfr)
      rw [(hfront front).1, (hfront front).2] at hdepth
      omega
  · rintro ⟨hf, ha⟩
    have hbytes := ha.bytes
    rw [hd] at hbytes
    refine ⟨fun front hfr => ?_, ?_, fun d hmem => ?_⟩
    · cases front with
      | nil => simpa [opened, closed] using hdeep
      | cons e' front =>
        obtain ⟨rfl, hfr'⟩ := List.cons_prefix_cons.mp hfr
        have hdepth := ha.depth front hfr'
        rw [(hfront front).1, (hfront front).2]
        omega
    · rw [List.map_cons, List.sum_cons]
      have := hf.bytes
      omega
    · rcases List.mem_cons.mp hmem with rfl | hmem
      · exact hf.date d rfl
      · exact ha.dates d hmem

private theorem finish_iff {v : Value} : p.finish = .ok v ↔ p.state = ⟨[], some v⟩ := by
  obtain ⟨stack, root, decoded⟩ := p
  unfold Parsing.finish Parsing.state
  cases root <;> cases stack <;> simp

section Turns

variable {left : Nat} {r r' : R.State}

theorem parseFrom_none (h : R.next r = none) : parseFrom R budget left r p = (0, p.finish) := by
  unfold parseFrom
  rw [h]

theorem parseFrom_zero {event : Except Text Event} (h : R.next r = some (event, r')) :
    parseFrom R budget 0 r p = (1, .error .tooComplex) := by
  unfold parseFrom
  rw [h]

theorem parseFrom_invalid {m : Text} (h : R.next r = some (.error m, r')) :
    parseFrom R budget (left + 1) r p = (1, .error (.invalid m)) := by
  unfold parseFrom
  rw [h]

theorem parseFrom_refused {m : PlistError} (h : R.next r = some (.ok e, r'))
    (hstep : p.step budget e = .error m) :
    parseFrom R budget (left + 1) r p = (1, .error m) := by
  unfold parseFrom
  rw [h]
  show (match p.step budget e with | .error e => _ | .ok p' => _) = _
  rw [hstep]

theorem parseFrom_taken (h : R.next r = some (.ok e, r')) (hstep : p.step budget e = .ok p') :
    parseFrom R budget (left + 1) r p =
      ((parseFrom R budget left r' p').1 + 1, (parseFrom R budget left r' p').2) := by
  rw [parseFrom, h]
  show (match p.step budget e with | .error e => _ | .ok p' => _) = _
  rw [hstep]

/-- What a reader gives, by what it answers first. -/
private theorem gives_cons_iff (h : R.next r = some (.ok e, r')) {es : List Event} :
    R.Gives r es ↔ ∃ es', es = e :: es' ∧ R.Gives r' es' := by
  constructor
  · intro hes
    cases hes with
    | nil hend =>
      rw [h] at hend
      cases hend
    | cons hnext hes =>
      rw [h] at hnext
      cases hnext
      exact ⟨_, rfl, hes⟩
  · rintro ⟨es', rfl, hes⟩
    exact .cons h hes

end Turns

/-- At the end of the events. -/
theorem finish_iff_gives {left : Nat} {r : R.State} {v : Value} (h : R.next r = none)
    (hdeep : p.stack.length ≤ maxDepth) (hdecoded : p.decoded ≤ budget) :
    p.finish = .ok v ↔
      ∃ es, R.Gives r es ∧ es.length ≤ left ∧ Allowed budget p es ∧
        p.state.run builder (es.map Event.token) = some ⟨[], some v⟩ := by
  rw [finish_iff]
  constructor
  · intro hstate
    refine ⟨[], .nil h, Nat.zero_le _, ⟨fun front hfr => ?_, ?_, by simp⟩, congrArg some hstate⟩
    · rw [List.prefix_nil.mp hfr]
      simpa [opened, closed] using hdeep
    · rw [List.map_nil, List.sum_nil]
      omega
  · rintro ⟨es, hgives, _, _, hrun⟩
    obtain rfl := hgives.unique (.nil h)
    exact Option.some.inj hrun

/-- **A parse succeeds on what the limits allow and the builder takes to its end.** -/
theorem parseFrom_iff {left : Nat} {r : R.State} {v : Value} (hdeep : p.stack.length ≤ maxDepth)
    (hdecoded : p.decoded ≤ budget) :
    (parseFrom R budget left r p).2 = .ok v ↔
      ∃ es, R.Gives r es ∧ es.length ≤ left ∧ Allowed budget p es ∧
        p.state.run builder (es.map Event.token) = some ⟨[], some v⟩ := by
  induction left generalizing r p with
  | zero =>
    cases hnext : R.next r with
    | none =>
      rw [parseFrom_none hnext]
      exact finish_iff_gives hnext hdeep hdecoded
    | some answer =>
      rw [parseFrom_zero hnext]
      refine ⟨by simp, ?_⟩
      rintro ⟨es, hgives, hlen, _⟩
      cases hgives with
      | nil hend =>
        rw [hnext] at hend
        cases hend
      | cons _ _ => simp at hlen
  | succ left ih =>
    cases hnext : R.next r with
    | none =>
      rw [parseFrom_none hnext]
      exact finish_iff_gives hnext hdeep hdecoded
    | some answer =>
      obtain ⟨m | e, r'⟩ := answer
      · rw [parseFrom_invalid hnext]
        refine ⟨by simp, ?_⟩
        rintro ⟨es, hgives, _⟩
        cases hgives with
        | nil hend =>
          rw [hnext] at hend
          cases hend
        | cons hnext' _ =>
          rw [hnext] at hnext'
          cases hnext'
      · simp only [gives_cons_iff hnext]
        cases hstep : p.step budget e with
        | error m =>
          rw [parseFrom_refused hnext hstep]
          refine ⟨by simp, ?_⟩
          rintro ⟨_, ⟨es, rfl, hes⟩, _, hallowed, hrun⟩
          rw [List.map_cons, State.run_cons] at hrun
          obtain ⟨s, hs, _⟩ := Option.bind_eq_some_iff.mp hrun
          -- the limits and the builder both take the event, so the step does
          let p' : Parsing := ⟨s.stack, s.root, min (p.decoded + e.weight) usizeMax⟩
          have hs' : p.state.step builder e.token = some p'.state := hs
          have hok := step_iff.mpr ⟨((allowed_cons hdeep hs' rfl).mp hallowed).1, hs', rfl⟩
          rw [hstep] at hok
          cases hok
        | ok p' =>
          rw [parseFrom_taken hnext hstep]
          obtain ⟨hfits, hs, hd⟩ := step_iff.mp hstep
          have hlen := length_step hs
          have hdeep' : p'.stack.length ≤ maxDepth := by
            have hdepth := hfits.depth
            cases he : e.isStart with
            | true =>
              have := hdepth he
              have hone : opened [e] ≤ 1 := List.countP_le_length
              omega
            | false =>
              have hzero : opened [e] = 0 := by simp [opened, he]
              omega
          have hdecoded' : p'.decoded ≤ budget := hd ▸ hfits.bytes
          rw [ih hdeep' hdecoded']
          constructor
          · rintro ⟨es, hes, hcount, hallowed, hrun⟩
            refine ⟨e :: es, ⟨es, rfl, hes⟩, by simpa using hcount,
              (allowed_cons hdeep hs hd).mpr ⟨hfits, hallowed⟩, ?_⟩
            rw [List.map_cons, State.run_cons, hs]
            exact hrun
          · rintro ⟨_, ⟨es, rfl, hes⟩, hcount, hallowed, hrun⟩
            rw [List.map_cons, State.run_cons, hs] at hrun
            exact ⟨es, hes, by simpa using hcount, ((allowed_cons hdeep hs hd).mp hallowed).2, hrun⟩

/-- At most one event more than may be taken is read. -/
private theorem parseFrom_reads (budget left : Nat) (r : R.State) (p : Parsing) :
    (parseFrom R budget left r p).1 ≤ left + 1 := by
  induction left generalizing r p with
  | zero =>
    cases hnext : R.next r with
    | none =>
      rw [parseFrom_none hnext]
      exact Nat.zero_le _
    | some answer =>
      rw [parseFrom_zero hnext]
  | succ left ih =>
    cases hnext : R.next r with
    | none =>
      rw [parseFrom_none hnext]
      exact Nat.zero_le _
    | some answer =>
      obtain ⟨m | e, r'⟩ := answer
      · rw [parseFrom_invalid hnext]
        omega
      · cases hstep : p.step budget e with
        | error m =>
          rw [parseFrom_refused hnext hstep]
          omega
        | ok p' =>
          rw [parseFrom_taken hnext hstep]
          exact Nat.succ_le_succ (ih r' p')

/-- **What is accepted, and as what.** -/
theorem parse_iff {data : List UInt8} {v : Value} :
    parse R data = .ok v ↔
      ∃ es, R.Gives (R.new data) es ∧ Within data.length es ∧ build es = some v := by
  have hstart (es : List Event) :
      Allowed (byteBudget data.length) .start es ∧ es.length ≤ maxEvents ↔
        Within data.length es := by
    constructor
    · rintro ⟨ha, hcount⟩
      refine ⟨hcount, fun front hfr => ?_, ?_, ha.dates⟩
      · simpa [Parsing.start] using ha.depth front hfr
      · simpa [Parsing.start, decodedBytes] using ha.bytes
    · intro hw
      refine ⟨⟨fun front hfr => ?_, ?_, hw.dates⟩, hw.count⟩
      · simpa [Parsing.start] using hw.depth front hfr
      · simpa [Parsing.start, decodedBytes] using hw.bytes
  unfold parse parseCounted
  rw [parseFrom_iff (Nat.zero_le _) (Nat.zero_le _)]
  constructor
  · rintro ⟨es, hes, hcount, hallowed, hrun⟩
    exact ⟨es, hes, (hstart es).mp ⟨hallowed, hcount⟩, run_iff.mp hrun⟩
  · rintro ⟨es, hes, hwithin, hbuild⟩
    obtain ⟨hallowed, hcount⟩ := (hstart es).mpr hwithin
    exact ⟨es, hes, hcount, hallowed, run_iff.mpr hbuild⟩

/-- **Parsing is the recursive builder, within limits.**  A property list is accepted exactly when
    its events are one complete value within the limits, as the value that the recursive builder
    makes of them, and no more than one event above the limit is read.  The value holds everything
    that the events say, each thing in its place, unless a dictionary repeats a key. -/
theorem parse_eq_build (R : EventReader) (data : List UInt8) :
    (∀ v, parse R data = .ok v ↔
      ∃ es, R.Gives (R.new data) es ∧ Within data.length es ∧ build es = some v) ∧
    (parseCounted R data).1 ≤ maxEvents + 1 ∧
    (∀ v, parse R data = .ok v → ∃ es t, R.Gives (R.new data) es ∧
      t.tokens = es.map Event.token ∧ Denotes t v ∧ (KeysOnce t → v.nest = t)) := by
  refine ⟨fun v => parse_iff, parseFrom_reads _ _ _ _, fun v h => ?_⟩
  obtain ⟨es, hes, _, hbuild⟩ := parse_iff.mp h
  obtain ⟨t, hread, hvalue⟩ := Option.bind_eq_some_iff.mp hbuild
  have hdenotes := denotes_of_build hvalue
  exact ⟨es, t, hes, readNest_iff.mp hread, hdenotes, nest_of_denotes hdenotes⟩

/-- A reader of events that are there. -/
def EventReader.ofEvents (es : List Event) : EventReader where
  State := List Event
  new _ := es
  next
    | []      => none
    | e :: es => some (.ok e, es)

/-- A dictionary that has two entries under one key. -/
def repeatedKey : List Event :=
  [.startDictionary none, .string "a", .integer 1, .string "a", .integer 2, .endCollection]

/-- The second entry takes the first one's place, and nothing is left of that. -/
theorem repeated_key_drops :
    parse (.ofEvents repeatedKey) [] = .ok (.dictionary [("a".toList, .integer 2)]) ∧
      Event.integer 1 ∈ repeatedKey ∧
      Token.leaf (.integer 1) ∉ (Value.dictionary [("a".toList, .integer 2)]).nest.tokens := by
  refine ⟨?_, by decide, by decide⟩
  unfold parse parseCounted maxEvents
  rfl

end Omdrop.Plist
