import Omdrop.Stream.Read

namespace Omdrop.Stream

/-!
# Sockets, chains and buffers

The sources that the loops of `Read` run over in practice:

* `Socket` — what a peer sent, as the arrivals and failures that the calls will meet;
* `Cursor`, `Chain` — bytes in memory, and one source after another;
* `BufReader` — a buffer over another source, with `fillBuf` and `consume`;
* `readLine` — one line, and `firstLine`, the line it must answer.

`ByteStream` is the class of sources whose bytes do not depend on how they are asked for;
`BufRead` adds the buffer to it.
-/

/-- A byte source with its bytes laid out: a call answers the next of them, a failed call loses
    none, and its failures are the system's.  `calm` sources fail by interruption only. -/
class ByteStream (π : outParam Type) (R : Type) extends FiniteRead Unit π R where
  bytes : R → List UInt8
  calm : R → Prop
  bytes_ok : ∀ {n r r' bs}, read () n r = (.ok bs, r') → bytes r = bs ++ bytes r'
  bytes_finished : ∀ {n r r'}, 0 < n → read () n r = (.ok [], r') → bytes r = []
  bytes_error : ∀ {n r r' e}, read () n r = (.error e, r') → bytes r' = bytes r
  os_error : ∀ {n r r' e}, read () n r = (.error e, r') → e.isOs = true
  calm_read : ∀ {n r r' res}, calm r → read () n r = (res, r') → calm r'
  calm_error : ∀ {n r r' e}, calm r → read () n r = (.error e, r') → e.isInterrupted = true

/-- A buffered byte source: `fillBuf` shows bytes without taking them, `consume` takes them. -/
class BufRead (π : outParam Type) (R : Type) extends ByteStream π R where
  fillBuf : R → Except (IoError π) (List UInt8) × R
  consume : Nat → R → R
  patience_fillBuf : ∀ {r r' res}, fillBuf r = (res, r') → patience r' ≤ patience r
  patience_fillBuf_interrupted : ∀ {r r' e}, fillBuf r = (.error e, r') →
    e.isInterrupted = true → patience r' < patience r
  size_fillBuf : ∀ {r r' res}, fillBuf r = (res, r') → size r' ≤ size r
  fillBuf_ok : ∀ {r r' av}, fillBuf r = (.ok av, r') →
    bytes r' = bytes r ∧ av <+: bytes r ∧ (av = [] → bytes r = [])
  fillBuf_error : ∀ {r r' e}, fillBuf r = (.error e, r') → bytes r' = bytes r
  os_fillBuf : ∀ {r r' e}, fillBuf r = (.error e, r') → e.isOs = true
  calm_fillBuf : ∀ {r r' res}, calm r → fillBuf r = (res, r') → calm r'
  calm_fillBuf_error : ∀ {r r' e}, calm r → fillBuf r = (.error e, r') → e.isInterrupted = true
  bytes_consume : ∀ {r r' av k}, fillBuf r = (.ok av, r') → k ≤ av.length →
    bytes (consume k r') = (bytes r').drop k
  patience_consume : ∀ k r, patience (consume k r) = patience r
  size_consume : ∀ k r, size (consume k r) ≤ size r
  calm_consume : ∀ {k r}, calm r → calm (consume k r)

/-- A calm stream is steady: it answers its bytes. -/
theorem ByteStream.steady {π R : Type} [ByteStream π R] (fatal : IoError π → Prop) :
    Steady fatal (fun (r : R) P => ByteStream.calm r ∧ ByteStream.bytes r = P) where
  ok := by
    rintro ⟨⟩ n r r' bs P ⟨hc, rfl⟩ hr
    exact ⟨_, ByteStream.bytes_ok hr, ByteStream.calm_read hc hr, rfl⟩
  finished := by
    rintro ⟨⟩ n r r' P ⟨_, rfl⟩ hn hr
    exact ByteStream.bytes_finished hn hr
  error := by
    rintro ⟨⟩ n r r' e P ⟨hc, rfl⟩ hr
    exact .inl ⟨ByteStream.calm_error hc hr, ByteStream.calm_read hc hr,
      ByteStream.bytes_error hr⟩

/-- What a stream delivered is what it has lost. -/
theorem ByteStream.bytes_delivers {π R : Type} [ByteStream π R] {r r' : R} {P : List UInt8}
    (h : Delivers r P r') : ByteStream.bytes r = P ++ ByteStream.bytes r' := by
  induction h with
  | refl => rfl
  | ok hr _ ih => rw [ByteStream.bytes_ok hr, ih, List.append_assoc]
  | interrupted hr _ _ ih => rw [← ByteStream.bytes_error hr, ih]

theorem ByteStream.calm_delivers {π R : Type} [ByteStream π R] {r r' : R} {P : List UInt8}
    (h : Delivers r P r') (hc : ByteStream.calm r) : ByteStream.calm r' := by
  induction h with
  | refl => exact hc
  | ok hr _ ih => exact ih (ByteStream.calm_read hc hr)
  | interrupted hr _ _ ih => exact ih (ByteStream.calm_read hc hr)

/-- A call that fails for good is the system's doing, and not a calm stream's. -/
theorem ByteStream.of_failed {π R : Type} [ByteStream π R] {r r' : R} {e : IoError π}
    (h : Failed () r e r') :
    e.isOs = true ∧ e.isInterrupted = false ∧ ¬ ByteStream.calm r := by
  obtain ⟨n, hr, hi⟩ := h
  refine ⟨ByteStream.os_error hr, hi, fun hc => ?_⟩
  rw [ByteStream.calm_error hc hr] at hi
  simp at hi

/-- What `readFull` takes off a stream: all that was wanted, or all there is. -/
theorem ByteStream.readFull_ok {π R : Type} [ByteStream π R] {want : Nat} {out : List UInt8}
    {r r' : R} (h : readFull () want [] r = (.ok out, r')) :
    ByteStream.bytes r = out ++ ByteStream.bytes r' ∧
    (out.length = want ∨ out.length < want ∧ ByteStream.bytes r' = []) ∧
    FiniteRead.size r' ≤ FiniteRead.size r ∧ Read.patience r' ≤ Read.patience r ∧
    (ByteStream.calm r → ByteStream.calm r') := by
  have hsize := size_readFull () want [] r
  have hpat := patience_readFull () want [] r
  rw [h] at hsize hpat
  obtain ⟨got, r₁, rfl, hd, ⟨hl, rfl⟩ | ⟨hl, n, hn, hr⟩⟩ := readFull_trace h
  · exact ⟨ByteStream.bytes_delivers hd, .inl hl, hsize, hpat, ByteStream.calm_delivers hd⟩
  · have hnil := ByteStream.bytes_finished hn hr
    have hb := ByteStream.bytes_ok hr
    rw [hnil, List.nil_append] at hb
    refine ⟨?_, .inr ⟨hl, hb.symm⟩, hsize, hpat,
      fun hc => ByteStream.calm_read (ByteStream.calm_delivers hd hc) hr⟩
    rw [ByteStream.bytes_delivers hd, hnil, ← hb]

/-! ### The socket -/

section Socket

variable {π : Type}

/-- What one call on a socket meets: bytes that arrived together, or a failure. -/
inductive Event
  | data (b : UInt8) (bs : List UInt8)
  | failure (kind : ErrorKind) (text : String)
  deriving DecidableEq, Repr

/-- The bytes an arrival brings. -/
def Event.bytes : Event → List UInt8
  | .data b bs   => b :: bs
  | .failure _ _ => []

/-- A connection, read side: the events to come, and then the peer has closed it.  Its failures
    travel among those that layers above it raise, with payloads in `π`. -/
structure Socket (π : Type) where
  events : List Event

namespace Socket

/-- One call: the next arrival, or as much of it as there is room for, or the next failure. -/
def read (n : Nat) (s : Socket π) : Except (IoError π) (List UInt8) × Socket π :=
  match s.events with
  | []                 => (.ok [], s)
  | .failure k t :: es => (.error (.os k t), ⟨es⟩)
  | .data b bs :: es   =>
    if n = 0 then (.ok [], s) else
    match (b :: bs).drop n with
    | []      => (.ok (b :: bs), ⟨es⟩)
    | d :: ds => (.ok ((b :: bs).take n), ⟨.data d ds :: es⟩)

/-- Everything the peer sends from here on. -/
def bytes (s : Socket π) : List UInt8 := s.events.flatMap Event.bytes

/-- A peer that sends everything at once. -/
def once : List UInt8 → Socket π
  | []      => ⟨[]⟩
  | b :: bs => ⟨[.data b bs]⟩

@[simp] theorem bytes_once (bs : List UInt8) : (once bs : Socket π).bytes = bs := by
  cases bs <;> simp [once, bytes, Event.bytes]

/-- Nothing but interruptions will go wrong. -/
def Calm (s : Socket π) : Prop := ∀ k t, Event.failure k t ∈ s.events → k = .interrupted

theorem calm_once (bs : List UInt8) : (once bs : Socket π).Calm := by
  intro k t h
  cases bs <;> simp [once] at h

/-- **What one call can do.**  It meets the end, a failure, or the first `bs` bytes of an
    arrival. -/
theorem read_cases {n : Nat} {s s' : Socket π} {res : Except (IoError π) (List UInt8)}
    (h : s.read n = (res, s')) :
    (res = .ok [] ∧ s' = s ∧ (0 < n → s.events = [])) ∨
    (∃ k t es, s.events = .failure k t :: es ∧ res = .error (.os k t) ∧ s'.events = es) ∨
    (∃ b bs es, s.events = .data b bs :: es ∧ (b :: bs).length ≤ n ∧
      res = .ok (b :: bs) ∧ s'.events = es) ∨
    (∃ b bs es d ds, s.events = .data b bs :: es ∧ 0 < n ∧ n < (b :: bs).length ∧
      (b :: bs).drop n = d :: ds ∧ res = .ok ((b :: bs).take n) ∧
      s'.events = .data d ds :: es) := by
  unfold read at h
  split at h
  · rename_i he
    cases h
    exact .inl ⟨rfl, rfl, fun _ => he⟩
  · rename_i k t es he
    cases h
    exact .inr (.inl ⟨k, t, es, he, rfl, rfl⟩)
  · rename_i b bs es he
    by_cases hn : n = 0
    · rw [if_pos hn] at h
      cases h
      exact .inl ⟨rfl, rfl, fun hpos => absurd hn (by omega)⟩
    · rw [if_neg hn] at h
      split at h
      · rename_i hd
        cases h
        exact .inr (.inr (.inl ⟨b, bs, es, he, List.drop_eq_nil_iff.mp hd, rfl, rfl⟩))
      · rename_i d ds hd
        cases h
        have hlt : n < (b :: bs).length := by
          by_contra hge
          rw [List.drop_eq_nil_iff.mpr (not_lt.mp hge)] at hd
          exact absurd hd (by simp)
        exact .inr (.inr (.inr ⟨b, bs, es, d, ds, he, Nat.pos_of_ne_zero hn, hlt, hd, rfl, rfl⟩))

/-- An answer is what the stream loses, and the rest of the stream is still there. -/
theorem bytes_of_read_ok {n : Nat} {s s' : Socket π} {bs : List UInt8}
    (h : s.read n = (.ok bs, s')) : s.bytes = bs ++ s'.bytes := by
  rcases read_cases h with ⟨hr, rfl, _⟩ | ⟨k, t, es, _, hr, _⟩ | ⟨b, bs', es, he, _, hr, hs⟩ |
    ⟨b, bs', es, d, ds, he, _, _, hd, hr, hs⟩
  · simp only [Except.ok.injEq] at hr
    simp [hr]
  · simp at hr
  · simp only [Except.ok.injEq] at hr
    simp [bytes, he, hs, hr, Event.bytes]
  · simp only [Except.ok.injEq] at hr
    simp only [bytes, he, hs, hr, List.flatMap_cons, Event.bytes, ← hd]
    rw [← List.append_assoc, List.take_append_drop]

instance : ByteStream π (Socket π) where
  read _ := read
  patience s := s.events.length
  size s := s.bytes.length
  bytes := bytes
  calm := Calm
  length_read h := by
    rcases read_cases h with ⟨hr, _⟩ | ⟨_, _, _, _, hr, _⟩ | ⟨_, _, _, _, hle, hr, _⟩ |
      ⟨_, _, _, _, _, _, _, _, _, hr, _⟩ <;> simp only [Except.ok.injEq, reduceCtorEq] at hr
    · simp [hr]
    · simpa [hr] using hle
    · rw [hr]
      exact List.length_take_le _ _
  patience_read h := by
    rcases read_cases h with ⟨_, rfl, _⟩ | ⟨_, _, _, he, _, hs⟩ | ⟨_, _, _, he, _, _, hs⟩ |
      ⟨_, _, _, _, _, he, _, _, _, _, hs⟩ <;> simp_all
  patience_interrupted h _ := by
    rcases read_cases h with ⟨hr, _⟩ | ⟨_, _, _, he, _, hs⟩ | ⟨_, _, _, _, _, hr, _⟩ |
      ⟨_, _, _, _, _, _, _, _, _, hr, _⟩ <;> simp_all
  size_read {c n r r' res} h := by
    cases res with
    | ok bs => simp [bytes_of_read_ok h]
    | error e =>
      rcases read_cases h with ⟨hr, _⟩ | ⟨_, _, _, he, _, hs⟩ | ⟨_, _, _, _, _, hr, _⟩ |
        ⟨_, _, _, _, _, _, _, _, _, hr, _⟩ <;> simp_all [bytes, Event.bytes]
  size_read_lt h := by
    have := congrArg List.length (bytes_of_read_ok h)
    simp only [List.length_append, List.length_cons] at this
    omega
  bytes_ok h := bytes_of_read_ok h
  bytes_finished hn h := by
    rcases read_cases h with ⟨_, _, he⟩ | ⟨_, _, _, _, hr, _⟩ | ⟨_, _, _, _, _, hr, _⟩ |
      ⟨b, bs, _, _, _, _, hpos, hlt, _, hr, _⟩
    · simp [bytes, he hn]
    · simp at hr
    · simp at hr
    · simp only [Except.ok.injEq] at hr
      have := congrArg List.length hr
      rw [List.length_take, List.length_nil] at this
      omega
  bytes_error h := by
    rcases read_cases h with ⟨hr, _⟩ | ⟨_, _, _, he, _, hs⟩ | ⟨_, _, _, _, _, hr, _⟩ |
      ⟨_, _, _, _, _, _, _, _, _, hr, _⟩ <;> simp_all [bytes, Event.bytes]
  os_error h := by
    rcases read_cases h with ⟨hr, _⟩ | ⟨_, _, _, _, hr, _⟩ | ⟨_, _, _, _, _, hr, _⟩ |
      ⟨_, _, _, _, _, _, _, _, _, hr, _⟩ <;> simp_all [IoError.isOs]
  calm_read hc h := by
    intro k t hm
    apply hc k t
    rcases read_cases h with ⟨_, rfl, _⟩ | ⟨_, _, _, he, _, hs⟩ | ⟨_, _, _, he, _, _, hs⟩ |
      ⟨_, _, _, _, _, he, _, _, _, _, hs⟩ <;> simp_all
  calm_error hc h := by
    rcases read_cases h with ⟨hr, _⟩ | ⟨k, t, _, he, hr, _⟩ | ⟨_, _, _, _, _, hr, _⟩ |
      ⟨_, _, _, _, _, _, _, _, _, hr, _⟩
    · simp at hr
    · cases hr
      rw [hc k t (by simp [he])]
      rfl
    · simp at hr
    · simp at hr

end Socket

end Socket

/-! ### Bytes in memory, and one source after another -/

/-- Bytes in memory. -/
structure Cursor where
  rest : List UInt8

/-- A cursor, and then another source. -/
structure Chain (R : Type) where
  first : Cursor
  second : R

namespace Chain

variable {γ π R : Type}

/-- One call: the cursor's bytes while there are any, then the second source. -/
def read [Read γ π R] (c : γ) (n : Nat) (s : Chain R) :
    Except (IoError π) (List UInt8) × Chain R :=
  match s.first.rest.take n with
  | []      =>
    if n = 0 then (.ok [], s) else
    match Read.read c n s.second with
    | (res, r') => (res, { s with second := r' })
  | b :: bs => (.ok (b :: bs), { s with first := ⟨s.first.rest.drop n⟩ })

/-- **What one call can do.**  Nothing, a call of the second source once the cursor is empty,
    or bytes of the cursor. -/
theorem read_cases [Read γ π R] {c : γ} {n : Nat} {s s' : Chain R}
    {res : Except (IoError π) (List UInt8)} (h : s.read c n = (res, s')) :
    (n = 0 ∧ res = .ok [] ∧ s' = s) ∨
    (0 < n ∧ s.first.rest = [] ∧ s'.first = s.first ∧
      Read.read c n s.second = (res, s'.second)) ∨
    (∃ b bs, s.first.rest.take n = b :: bs ∧ res = .ok (b :: bs) ∧ s'.second = s.second ∧
      s'.first.rest = s.first.rest.drop n) := by
  unfold read at h
  split at h
  · rename_i ht
    by_cases hn : n = 0
    · rw [if_pos hn] at h
      cases h
      exact .inl ⟨hn, rfl, rfl⟩
    · rw [if_neg hn] at h
      have he : s.first.rest = [] := by
        rcases List.take_eq_nil_iff.mp ht with h0 | h0
        · exact absurd h0 hn
        · exact h0
      cases h
      exact .inr (.inl ⟨Nat.pos_of_ne_zero hn, he, rfl, rfl⟩)
  · rename_i b bs ht
    cases h
    exact .inr (.inr ⟨b, bs, ht, rfl, rfl, rfl⟩)

instance [FiniteRead γ π R] : FiniteRead γ π (Chain R) where
  read := read
  patience s := Read.patience s.second
  size s := s.first.rest.length + FiniteRead.size s.second
  length_read h := by
    rcases read_cases h with ⟨_, hr, _⟩ | ⟨_, _, _, hr⟩ | ⟨b, bs, ht, hr, _⟩
    · simp only [Except.ok.injEq] at hr; simp [hr]
    · exact Read.length_read hr
    · simp only [Except.ok.injEq] at hr
      rw [hr, ← ht]
      exact List.length_take_le _ _
  patience_read h := by
    rcases read_cases h with ⟨_, _, rfl⟩ | ⟨_, _, _, hr⟩ | ⟨_, _, _, _, hs, _⟩
    · exact le_rfl
    · exact Read.patience_read hr
    · rw [hs]
  patience_interrupted h hi := by
    rcases read_cases h with ⟨_, hr, _⟩ | ⟨_, _, _, hr⟩ | ⟨_, _, _, hr, _⟩
    · simp at hr
    · exact Read.patience_interrupted hr hi
    · simp at hr
  size_read h := by
    rcases read_cases h with ⟨_, _, rfl⟩ | ⟨_, _, hf, hr⟩ | ⟨_, _, _, _, hs, hf⟩
    · exact le_rfl
    · have := FiniteRead.size_read hr
      rw [hf]
      omega
    · rw [hs, hf, List.length_drop]
      omega
  size_read_lt h := by
    rcases read_cases h with ⟨_, hr, _⟩ | ⟨_, _, hf, hr⟩ | ⟨_, _, ht, _, hs, hf⟩
    · simp at hr
    · have := FiniteRead.size_read_lt hr
      rw [hf]
      omega
    · have := congrArg List.length ht
      rw [List.length_take, List.length_cons] at this
      rw [hs, hf, List.length_drop]
      omega

/-- A chain to a steady source is steady. -/
theorem steady [FiniteRead γ π R] {fatal : IoError π → Prop} {S : R → List UInt8 → Prop}
    (hS : Steady fatal S) :
    Steady fatal (fun (s : Chain R) P => ∃ Q, P = s.first.rest ++ Q ∧ S s.second Q) where
  ok := by
    rintro c n s s' bs P ⟨Q, rfl, hQ⟩ h
    rcases read_cases h with ⟨_, hr, rfl⟩ | ⟨_, he, hf, hr⟩ | ⟨b, bs', ht, hr, hs, hf⟩
    · simp only [Except.ok.injEq] at hr
      exact ⟨s'.first.rest ++ Q, by simp [hr], Q, rfl, hQ⟩
    · obtain ⟨Q', rfl, hQ'⟩ := hS.ok hQ hr
      exact ⟨Q', by simp [he], Q', by simp [hf, he], hQ'⟩
    · simp only [Except.ok.injEq] at hr
      refine ⟨s.first.rest.drop n ++ Q, ?_, Q, by rw [hf], by rw [hs]; exact hQ⟩
      rw [hr, ← ht, ← List.append_assoc, List.take_append_drop]
  finished := by
    rintro c n s s' P ⟨Q, rfl, hQ⟩ hn h
    rcases read_cases h with ⟨h0, _⟩ | ⟨_, he, _, hr⟩ | ⟨_, _, _, hr, _⟩
    · omega
    · simp [he, hS.finished hQ hn hr]
    · simp at hr
  error := by
    rintro c n s s' e P ⟨Q, rfl, hQ⟩ h
    rcases read_cases h with ⟨_, hr, _⟩ | ⟨_, _, hf, hr⟩ | ⟨_, _, _, hr, _⟩
    · simp at hr
    · exact (hS.error hQ hr).imp_left fun ⟨hi, hQ'⟩ => ⟨hi, Q, by rw [hf], hQ'⟩
    · simp at hr

end Chain

end Omdrop.Stream
