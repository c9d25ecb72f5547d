import Omdrop.Stream.BufReader

namespace Omdrop.Stream

/-!
# Streaming decoders

A streaming decoder is shown some input and given some room; it takes part of the one, fills
part of the other, and says when its stream has ended.  `Decodes d Rest` is what it means for
it to be right, as a simulation: `Rest s i o` says that, in the state `s`, the input `i` takes
the stream to its end and brings the output `o`.
-/

/-- What one call of a decoder did. -/
structure Fed (σ : Type) where
  state : σ
  consumed : Nat
  produced : List UInt8
  ended : Bool

/-- A streaming decoder. -/
structure StreamDecoder where
  State : Type
  init : State
  feed : State → List UInt8 → Nat → Except String (Fed State)
  consumed_le : ∀ {s input room f}, feed s input room = .ok f → f.consumed ≤ input.length
  length_produced : ∀ {s input room f}, feed s input room = .ok f → f.produced.length ≤ room

namespace StreamDecoder

/-- `Rest` is what the decoder still expects.  What it does is a step of that (`going`,
    `ended`); and shown the front of what it expects it neither fails nor stops short nor stands
    still (`goes`). -/
structure Decodes (d : StreamDecoder) (Rest : d.State → List UInt8 → List UInt8 → Prop) :
    Prop where
  going : ∀ {s input room f i o}, d.feed s input room = .ok f → f.ended = false →
    Rest f.state i o → Rest s (input.take f.consumed ++ i) (f.produced ++ o)
  ended : ∀ {s input room f}, d.feed s input room = .ok f → f.ended = true →
    Rest s (input.take f.consumed) f.produced
  goes : ∀ {s input room i o after}, Rest s i o → input <+: i ++ after →
    (input = [] → i = []) → 0 < room → ∃ f, d.feed s input room = .ok f ∧
      if f.ended then i = input.take f.consumed ∧ o = f.produced
      else (f.consumed ≠ 0 ∨ f.produced ≠ []) ∧ ∃ i' o', i = input.take f.consumed ++ i' ∧
        o = f.produced ++ o' ∧ Rest f.state i' o'

/-- The decoder is right about `Stream`: the inputs that are whole streams, with their
    outputs. -/
def Correct (d : StreamDecoder) (Stream : List UInt8 → List UInt8 → Prop) : Prop :=
  ∃ Rest, d.Decodes Rest ∧ ∀ i o, Stream i o ↔ Rest d.init i o

/-! ### Codes

Where the code words are known to a function, the least that a right decoder can do is to keep
its input until it is one of them. -/

/-- Where the decoder of a code stands: in a word, or with output left to deliver. -/
inductive CodeState
  | reading (word : List UInt8)
  | pending (output : List UInt8)

/-- The code words, and what they stand for. -/
abbrev Code := List UInt8 → Option (List UInt8)

/-- How much of the input ends the word, and what it stands for. -/
def scan (code : Code) (word : List UInt8) : List UInt8 → Option (Nat × List UInt8)
  | []      => none
  | b :: bs =>
    match code (word ++ [b]) with
    | some o => some (1, o)
    | none   => (scan code (word ++ [b]) bs).map fun (k, o) => (k + 1, o)

/-- As much output as there is room for. -/
def deliver (consumed : Nat) (output : List UInt8) (room : Nat) : Fed CodeState :=
  if output.length ≤ room then ⟨.pending [], consumed, output, true⟩
  else ⟨.pending (output.drop room), consumed, output.take room, false⟩

/-- One call. -/
def feedCode (code : Code) (s : CodeState) (input : List UInt8) (room : Nat) : Fed CodeState :=
  match s with
  | .pending output => deliver 0 output room
  | .reading word   =>
    match scan code word input with
    | some (k, output) => deliver k output room
    | none             => ⟨.reading (word ++ input), input.length, [], false⟩

theorem scan_some {code : Code} {word input output : List UInt8} {k : Nat}
    (h : scan code word input = some (k, output)) :
    0 < k ∧ k ≤ input.length ∧ code (word ++ input.take k) = some output ∧
      ∀ j, 0 < j → j < k → code (word ++ input.take j) = none := by
  induction input generalizing word k with
  | nil => simp [scan] at h
  | cons b bs ih =>
    simp only [scan] at h
    split at h
    · rename_i o ho
      cases h
      exact ⟨by omega, by simp, by simpa using ho, fun j h0 h1 => by omega⟩
    · rename_i hb
      obtain ⟨⟨k', o'⟩, hk, heq⟩ := Option.map_eq_some_iff.mp h
      cases heq
      obtain ⟨hpos, hle, hcode, hmin⟩ := ih hk
      refine ⟨by omega, by simpa using hle, by simpa using hcode, fun j h0 h1 => ?_⟩
      rcases j with _ | _ | j
      · omega
      · simpa using hb
      · simpa using hmin (j + 1) (by omega) (by omega)

theorem scan_none {code : Code} {word input : List UInt8} (h : scan code word input = none) :
    ∀ j, 0 < j → j ≤ input.length → code (word ++ input.take j) = none := by
  induction input generalizing word with
  | nil => intro j h0 h1; simp at h1; omega
  | cons b bs ih =>
    simp only [scan] at h
    split at h
    · simp at h
    · rename_i hb
      intro j h0 h1
      rcases j with _ | _ | j
      · omega
      · simpa using hb
      · simpa using ih (Option.map_eq_none_iff.mp h) (j + 1) (by omega) (by simpa using h1)

/-- The decoder of a code. -/
def ofCode (code : Code) : StreamDecoder where
  State := CodeState
  init := .reading []
  feed s input room := .ok (feedCode code s input room)
  consumed_le := by
    intro s input room f h
    cases h
    cases s with
    | pending output =>
      simp only [feedCode, deliver]
      split <;> exact Nat.zero_le _
    | reading word =>
      simp only [feedCode]
      split
      · rename_i k output hscan
        have := (scan_some hscan).2.1
        simp only [deliver]
        split <;> exact this
      · exact le_rfl
  length_produced := by
    intro s input room f h
    have hdeliver : ∀ k output, (deliver k output room).produced.length ≤ room := by
      intro k output
      unfold deliver
      split
      · assumption
      · exact List.length_take_le _ _
    cases h
    cases s with
    | pending output => exact hdeliver 0 output
    | reading word =>
      simp only [feedCode]
      split
      · exact hdeliver _ _
      · exact Nat.zero_le _

/-- `i` is the shortest that makes a code word of `word`, and stands for `o`. -/
def Word (code : Code) (word i o : List UInt8) : Prop :=
  i ≠ [] ∧ code (word ++ i) = some o ∧
    ∀ j, 0 < j → j < i.length → code (word ++ i.take j) = none

/-- What the decoder of a code expects. -/
def CodeRest (code : Code) : CodeState → List UInt8 → List UInt8 → Prop
  | .reading word, i, o   => Word code word i o
  | .pending output, i, o => i = [] ∧ o = output

/-- All of the output, or the front of it with the rest pending. -/
theorem deliver_cases (k : Nat) (output : List UInt8) (room : Nat) :
    (deliver k output room).consumed = k ∧
      if (deliver k output room).ended then (deliver k output room).produced = output
      else ∃ rest, output = (deliver k output room).produced ++ rest ∧
        (deliver k output room).state = .pending rest ∧
        (0 < room → (deliver k output room).produced ≠ []) := by
  unfold deliver
  by_cases h : output.length ≤ room
  · simp [h]
  · rw [if_neg h]
    refine ⟨rfl, ?_⟩
    rw [if_neg (by simp)]
    refine ⟨output.drop room, (List.take_append_drop _ _).symm, rfl, fun hroom h0 => ?_⟩
    rcases List.take_eq_nil_iff.mp h0 with h1 | h1
    · omega
    · simp [h1] at h

/-- What `scan` finds is a word. -/
theorem word_of_scan {code : Code} {word input output : List UInt8} {k : Nat}
    (h : scan code word input = some (k, output)) : Word code word (input.take k) output := by
  obtain ⟨hpos, hle, hcode, hmin⟩ := scan_some h
  refine ⟨?_, hcode, fun j h0 h1 => ?_⟩
  · rw [Ne, List.take_eq_nil_iff, not_or, ← List.length_eq_zero_iff]
    omega
  · rw [List.length_take, Nat.min_eq_left hle] at h1
    rw [List.take_take, Nat.min_eq_left h1.le]
    exact hmin j h0 h1

/-- `scan` finds the word that the input starts with. -/
private theorem scan_of_word {code : Code} {word i o input after : List UInt8}
    (h : Word code word i o)
    (hpre : input <+: i ++ after) :
    (scan code word input = some (i.length, o) ∧ i = input.take i.length) ∨
      scan code word input = none ∧ input.length < i.length ∧
        ∃ i', i = input ++ i' ∧ Word code (word ++ input) i' o := by
  obtain ⟨hne, hcode, hmin⟩ := h
  have hpos : 0 < i.length := List.length_pos_iff.mpr hne
  have htake : ∀ j ≤ input.length, j ≤ i.length → input.take j = i.take j := by
    intro j hj hji
    have := (List.prefix_iff_eq_take.mp hpre)
    rw [this, List.take_take, Nat.min_eq_left hj, List.take_append_of_le_length hji]
  cases hscan : scan code word input with
  | some found =>
    obtain ⟨k, output⟩ := found
    obtain ⟨h0, hle, hk, hkmin⟩ := scan_some hscan
    have hki : k = i.length := by
      rcases lt_trichotomy k i.length with hlt | heq | hgt
      · have := hmin k h0 hlt
        rw [← htake k hle hlt.le, hk] at this
        simp at this
      · exact heq
      · have := hkmin i.length hpos hgt
        rw [htake i.length (hgt.le.trans hle) le_rfl, List.take_length, hcode] at this
        simp at this
    subst hki
    have hi := htake i.length hle le_rfl
    rw [List.take_length] at hi
    rw [hi, hcode] at hk
    exact .inl ⟨by rw [Option.some.inj hk], hi.symm⟩
  | none =>
    have hlt : input.length < i.length := by
      by_contra hge
      have := scan_none hscan i.length hpos (not_lt.mp hge)
      rw [htake i.length (not_lt.mp hge) le_rfl, List.take_length, hcode] at this
      simp at this
    have hi : i = input ++ i.drop input.length := by
      have := htake input.length le_rfl hlt.le
      rw [List.take_length] at this
      conv_lhs => rw [← List.take_append_drop input.length i, ← this]
    refine .inr ⟨rfl, hlt, i.drop input.length, hi, ?_, ?_, fun j h0 h1 => ?_⟩
    · rw [Ne, List.drop_eq_nil_iff]
      omega
    · rwa [List.append_assoc, ← hi]
    · have := hmin (input.length + j) (by omega) (by rw [List.length_drop] at h1; omega)
      rwa [hi, List.take_length_add_append, ← List.append_assoc] at this

/-- Delivering what is expected is a step of it. -/
theorem deliver_goes (code : Code) {k room : Nat} {output input i : List UInt8} (hroom : 0 < room)
    (hi : i = input.take k) :
    if (deliver k output room).ended then
      i = input.take (deliver k output room).consumed ∧ output = (deliver k output room).produced
    else ((deliver k output room).consumed ≠ 0 ∨ (deliver k output room).produced ≠ []) ∧
      ∃ i' o', i = input.take (deliver k output room).consumed ++ i' ∧
        output = (deliver k output room).produced ++ o' ∧
        CodeRest code (deliver k output room).state i' o' := by
  obtain ⟨hk, hcase⟩ := deliver_cases k output room
  rw [hk]
  split at hcase
  · rename_i hend
    rw [if_pos hend]
    exact ⟨hi, hcase.symm⟩
  · rename_i hend
    obtain ⟨rest, hout, hstate, hprod⟩ := hcase
    rw [if_neg hend]
    exact ⟨.inr (hprod hroom), [], rest, by rw [hi, List.append_nil], hout,
      by rw [hstate]; exact ⟨rfl, rfl⟩⟩

/-- Shown the front of what it expects, the decoder of a code takes a step of it. -/
private theorem feedCode_goes {code : Code} {s : CodeState} {input i o after : List UInt8}
    {room : Nat}
    (hrest : CodeRest code s i o) (hpre : input <+: i ++ after) (hnil : input = [] → i = [])
    (hroom : 0 < room) :
    if (feedCode code s input room).ended then
      i = input.take (feedCode code s input room).consumed ∧
        o = (feedCode code s input room).produced
    else ((feedCode code s input room).consumed ≠ 0 ∨
        (feedCode code s input room).produced ≠ []) ∧
      ∃ i' o', i = input.take (feedCode code s input room).consumed ++ i' ∧
        o = (feedCode code s input room).produced ++ o' ∧
        CodeRest code (feedCode code s input room).state i' o' := by
  cases s with
  | pending output =>
    obtain ⟨rfl, rfl⟩ := hrest
    exact deliver_goes code hroom rfl
  | reading word =>
    rcases scan_of_word hrest hpre with ⟨hscan, hi⟩ | ⟨hscan, hlt, i', hi, hword⟩
    · have hf : feedCode code (.reading word) input room = deliver i.length o room := by
        simp only [feedCode, hscan]
      rw [hf]
      exact deliver_goes code hroom hi
    · have hf : feedCode code (.reading word) input room =
          ⟨.reading (word ++ input), input.length, [], false⟩ := by
        simp only [feedCode, hscan]
      rw [hf, if_neg Bool.false_ne_true]
      refine ⟨.inl fun h0 => ?_, i', o, by rw [List.take_length]; exact hi, rfl, hword⟩
      exact hrest.1 (hnil (List.length_eq_zero_iff.mp h0))

/-- The decoder of a code is right about its words. -/
theorem decodes_ofCode (code : Code) : (ofCode code).Decodes (CodeRest code) where
  -- a feed that does not end leaves the word, or the output, to be finished
  going := by
    intro s input room f i o h hend hrest
    cases h
    cases s with
    | pending output =>
      obtain ⟨hk, hcase⟩ := deliver_cases 0 output room
      simp only [feedCode] at hend hrest ⊢
      rw [if_neg (by simp [hend])] at hcase
      obtain ⟨rest, hout, hstate, _⟩ := hcase
      rw [hstate] at hrest
      obtain ⟨rfl, rfl⟩ := hrest
      exact ⟨by rw [hk]; rfl, hout.symm⟩
    | reading word =>
      simp only [feedCode] at hend hrest ⊢
      split at hrest
      · rename_i k output hscan
        obtain ⟨hk, hcase⟩ := deliver_cases k output room
        rw [hscan] at hend
        simp only at hend
        rw [if_neg (by simp [hend])] at hcase
        obtain ⟨rest, hout, hstate, _⟩ := hcase
        rw [hstate] at hrest
        obtain ⟨rfl, rfl⟩ := hrest
        simp only [hk, List.append_nil, ← hout]
        exact word_of_scan hscan
      · rename_i hscan
        obtain ⟨hne, hcode, hmin⟩ := hrest
        refine ⟨by simp [hne], by simpa using hcode, fun j h0 h1 => ?_⟩
        rw [List.take_length] at h1 ⊢
        by_cases hj : j ≤ input.length
        · rw [List.take_append_of_le_length hj]
          exact scan_none hscan j h0 hj
        · have := hmin (j - input.length) (by omega) (by rw [List.length_append] at h1; omega)
          rw [List.take_append, List.take_of_length_le (by omega)]
          rwa [List.append_assoc] at this
  -- a feed that ends has given the whole output of its word
  ended := by
    intro s input room f h hend
    cases h
    cases s with
    | pending output =>
      obtain ⟨hk, hcase⟩ := deliver_cases 0 output room
      simp only [feedCode] at hend ⊢
      rw [if_pos hend] at hcase
      exact ⟨by rw [hk]; rfl, hcase⟩
    | reading word =>
      simp only [feedCode] at hend ⊢
      split at hend
      · rename_i k output hscan
        obtain ⟨hk, hcase⟩ := deliver_cases k output room
        rw [if_pos hend] at hcase
        simp only [hk, hcase]
        exact word_of_scan hscan
      · simp at hend
  -- there is always room for a byte
  goes := by
    intro s input room i o after hrest hpre hnil hroom
    exact ⟨_, rfl, feedCode_goes hrest hpre hnil hroom⟩

/-- A word is decoded to what it stands for. -/
theorem correct_ofCode (code : Code) : (ofCode code).Correct (Word code []) :=
  ⟨CodeRest code, decodes_ofCode code, fun _ _ => Iff.rfl⟩

end StreamDecoder

end Omdrop.Stream
