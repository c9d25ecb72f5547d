import Omdrop.Stream.Buffered

namespace Omdrop.Stream

/-!
# The buffered reader, and lines

`BufReader` puts a buffer of fixed capacity over another source.  It shows what it holds
(`fillBuf`), gives it up (`consume`), and answers reads from it, except that a read at least
as large as the buffer goes straight to the source when the buffer is empty.

`readLine` takes one line off a `BufRead`; `firstLine` is the line it takes
(`readLine_ok`, `readLine_calm`).
-/

variable {γ π R : Type}

/-- A buffer over a source: `buffer` holds what was read from `inner` and not taken yet. -/
structure BufReader (R : Type) where
  capacity : ℕ+
  buffer : List UInt8
  inner : R

namespace BufReader

/-- An empty buffer over `inner`. -/
def withCapacity (capacity : ℕ+) (inner : R) : BufReader R := ⟨capacity, [], inner⟩

/-- Show what is buffered, asking the source for more when nothing is. -/
def fillBuf [Read γ π R] (c : γ) (r : BufReader R) :
    Except (IoError π) (List UInt8) × BufReader R :=
  match r.buffer with
  | []      =>
    match Read.read c r.capacity r.inner with
    | (.ok bs, inner)   => (.ok bs, { r with buffer := bs, inner })
    | (.error e, inner) => (.error e, { r with inner })
  | b :: bs => (.ok (b :: bs), r)

/-- Take `k` bytes off the buffer. -/
def consume (k : Nat) (r : BufReader R) : BufReader R := { r with buffer := r.buffer.drop k }

@[simp] theorem consume_inner (k : Nat) (r : BufReader R) : (r.consume k).inner = r.inner := rfl
@[simp] theorem consume_buffer (k : Nat) (r : BufReader R) :
    (r.consume k).buffer = r.buffer.drop k := rfl
@[simp] theorem consume_capacity (k : Nat) (r : BufReader R) :
    (r.consume k).capacity = r.capacity := rfl

/-- One call: from the buffer, or past it when it is empty and the call is large. -/
def read [Read γ π R] (c : γ) (n : Nat) (r : BufReader R) :
    Except (IoError π) (List UInt8) × BufReader R :=
  if r.buffer = [] ∧ r.capacity ≤ n then
    match Read.read c n r.inner with
    | (res, inner) => (res, { r with inner })
  else
    match r.fillBuf c with
    | (.ok av, r')   => (.ok (av.take n), r'.consume n)
    | (.error e, r') => (.error e, r')

/-- **What `fillBuf` can do.**  Show the buffer, or read the source once into an empty one. -/
theorem fillBuf_cases [Read γ π R] {c : γ} {r r' : BufReader R}
    {res : Except (IoError π) (List UInt8)} (h : r.fillBuf c = (res, r')) :
    (r.buffer ≠ [] ∧ res = .ok r.buffer ∧ r' = r) ∨
    (∃ bs, r.buffer = [] ∧ res = .ok bs ∧ r'.buffer = bs ∧ r'.capacity = r.capacity ∧
      Read.read c r.capacity r.inner = (.ok bs, r'.inner)) ∨
    (∃ e, r.buffer = [] ∧ res = .error e ∧ r'.buffer = [] ∧ r'.capacity = r.capacity ∧
      Read.read c r.capacity r.inner = (.error e, r'.inner)) := by
  unfold fillBuf at h
  split at h
  · rename_i hb
    split at h
    · rename_i bs inner hr
      cases h
      exact .inr (.inl ⟨bs, hb, rfl, rfl, rfl, hr⟩)
    · rename_i e inner hr
      cases h
      exact .inr (.inr ⟨e, hb, rfl, hb, rfl, hr⟩)
  · rename_i b bs hb
    cases h
    exact .inl ⟨by simp [hb], by rw [hb], rfl⟩

/-- A shown buffer is the buffer. -/
theorem buffer_of_fillBuf_ok [Read γ π R] {c : γ} {r r' : BufReader R} {av : List UInt8}
    (h : r.fillBuf c = (.ok av, r')) : r'.buffer = av := by
  rcases fillBuf_cases h with ⟨_, hr, rfl⟩ | ⟨bs, _, hr, hb, _⟩ | ⟨_, _, hr, _⟩
  · exact (Except.ok.inj hr).symm
  · rw [hb]; exact (Except.ok.inj hr).symm
  · simp at hr

/-- **What `read` can do.**  One call of the source past the empty buffer, or `fillBuf` and as
    much of it as there is room for. -/
theorem read_cases [Read γ π R] {c : γ} {n : Nat} {r r' : BufReader R}
    {res : Except (IoError π) (List UInt8)} (h : r.read c n = (res, r')) :
    (r.buffer = [] ∧ r'.buffer = [] ∧ r'.capacity = r.capacity ∧ (r.capacity : Nat) ≤ n ∧
      Read.read c n r.inner = (res, r'.inner)) ∨
    (∃ av r₁, r.fillBuf c = (.ok av, r₁) ∧ res = .ok (av.take n) ∧ r' = r₁.consume n) ∨
    (∃ e, r.fillBuf c = (.error e, r') ∧ res = .error e) := by
  unfold read at h
  split at h
  · rename_i hb
    cases h
    exact .inl ⟨hb.1, hb.1, rfl, hb.2, rfl⟩
  · split at h
    · rename_i av r₁ hf
      cases h
      exact .inr (.inl ⟨av, r₁, hf, rfl, rfl⟩)
    · rename_i e r₁ hf
      cases h
      exact .inr (.inr ⟨e, hf, rfl⟩)

/-! ### Measures -/

section Measures

variable [FiniteRead γ π R]

/-- What is buffered, and a whole buffer and more for every unit the source has left. -/
def size (r : BufReader R) : Nat :=
  FiniteRead.size r.inner * (r.capacity + 1) + r.buffer.length

/-- Filling the buffer makes no reader more patient. -/
theorem patience_fillBuf {c : γ} {r r' : BufReader R} {res : Except (IoError π) (List UInt8)}
    (h : r.fillBuf c = (res, r')) : Read.patience r'.inner ≤ Read.patience r.inner := by
  rcases fillBuf_cases h with ⟨_, _, rfl⟩ | ⟨_, _, _, _, _, hr⟩ | ⟨_, _, _, _, _, hr⟩
  · exact le_rfl
  · exact Read.patience_read hr
  · exact Read.patience_read hr

/-- An interrupted filling takes patience. -/
theorem patience_fillBuf_interrupted {c : γ} {r r' : BufReader R} {e : IoError π}
    (h : r.fillBuf c = (.error e, r')) (hi : e.isInterrupted = true) :
    Read.patience r'.inner < Read.patience r.inner := by
  rcases fillBuf_cases h with ⟨_, hr, _⟩ | ⟨_, _, hr, _⟩ | ⟨e', _, he, _, _, hr⟩
  · simp at hr
  · simp at hr
  · cases he
    exact Read.patience_interrupted hr hi

/-- Filling the buffer adds nothing to what is to come. -/
theorem size_fillBuf {c : γ} {r r' : BufReader R} {res : Except (IoError π) (List UInt8)}
    (h : r.fillBuf c = (res, r')) : r'.size ≤ r.size := by
  rcases fillBuf_cases h with ⟨_, _, rfl⟩ | ⟨bs, he, _, hb, hc, hr⟩ | ⟨_, he, _, hb, hc, hr⟩
  · exact le_rfl
  · have hsize := FiniteRead.size_read hr
    have hlen := Read.length_read hr
    simp only [size, hc, he, hb, List.length_nil, Nat.add_zero]
    cases bs with
    | nil => exact Nat.mul_le_mul_right _ hsize
    | cons b bs =>
      have hlt := FiniteRead.size_read_lt hr
      have hmul := Nat.mul_le_mul_right ((r.capacity : Nat) + 1) (Nat.succ_le_of_lt hlt)
      rw [Nat.succ_mul] at hmul
      omega
  · simp only [size, hc, he, hb, List.length_nil, Nat.add_zero]
    exact Nat.mul_le_mul_right _ (FiniteRead.size_read hr)

/-- What is consumed is no longer to come. -/
theorem size_consume (k : Nat) (r : BufReader R) :
    (r.consume k).size + min k r.buffer.length = r.size := by
  simp only [size, consume_inner, consume_capacity, consume_buffer, List.length_drop]
  omega

instance : FiniteRead γ π (BufReader R) where
  read := read
  patience r := Read.patience r.inner
  size := size
  length_read h := by
    rcases read_cases h with ⟨_, _, _, _, hr⟩ | ⟨_, _, _, hr, _⟩ | ⟨_, _, hr⟩
    · exact Read.length_read hr
    · rw [Except.ok.inj hr]
      exact List.length_take_le _ _
    · simp at hr
  patience_read h := by
    rcases read_cases h with ⟨_, _, _, _, hr⟩ | ⟨_, _, hf, _, rfl⟩ | ⟨_, hf, _⟩
    · exact Read.patience_read hr
    · exact (patience_fillBuf hf :)
    · exact patience_fillBuf hf
  patience_interrupted h hi := by
    rcases read_cases h with ⟨_, _, _, _, hr⟩ | ⟨_, _, _, hr, _⟩ | ⟨_, hf, hr⟩
    · exact Read.patience_interrupted hr hi
    · simp at hr
    · cases hr
      exact patience_fillBuf_interrupted hf hi
  size_read h := by
    rcases read_cases h with ⟨he, hb, hc, _, hr⟩ | ⟨_, r₁, hf, _, rfl⟩ | ⟨_, hf, _⟩
    · simp only [size, he, hb, hc]
      exact Nat.add_le_add_right (Nat.mul_le_mul_right _ (FiniteRead.size_read hr)) _
    · exact (Nat.le.intro (size_consume _ r₁)).trans (size_fillBuf hf)
    · exact size_fillBuf hf
  size_read_lt {c n r r' b bs} h := by
    rcases read_cases h with ⟨he, hb, hc, _, hr⟩ | ⟨av, r₁, hf, hr, rfl⟩ | ⟨_, _, hr⟩
    · have hmul := Nat.mul_lt_mul_of_pos_right (FiniteRead.size_read_lt hr)
        (Nat.succ_pos (r.capacity : Nat))
      simpa only [size, he, hb, hc, Nat.add_lt_add_iff_right] using hmul
    · have h1 := size_fillBuf hf
      have h2 := size_consume n r₁
      have h3 := congrArg List.length (Except.ok.inj hr)
      rw [List.length_take, List.length_cons] at h3
      rw [buffer_of_fillBuf_ok hf] at h2
      omega
    · simp at hr

/-- Bytes shown by `fillBuf` and consumed are gone. -/
theorem size_fillBuf_consume {c : γ} {r r' : BufReader R} {av : List UInt8} {k : Nat}
    (h : r.fillBuf c = (.ok av, r')) (hk : 0 < k) (hav : k ≤ av.length) :
    (r'.consume k).size < r.size := by
  have h1 := size_fillBuf h
  have h2 := size_consume k r'
  rw [buffer_of_fillBuf_ok h] at h2
  omega

end Measures

/-! ### Steadiness -/

section Steadiness

variable [FiniteRead γ π R] {fatal : IoError π → Prop} {S : R → List UInt8 → Prop}

/-- A buffer over a steady source has its own bytes in front of the source's. -/
def Ahead (S : R → List UInt8 → Prop) (r : BufReader R) (P : List UInt8) : Prop :=
  ∃ Q, P = r.buffer ++ Q ∧ S r.inner Q

/-- `fillBuf` over a steady source shows a prefix of what is to come, empty only at the end,
    and fails as the source does. -/
theorem Ahead.fillBuf (hS : Steady fatal S) {c : γ} {r r' : BufReader R} {P : List UInt8}
    {av : List UInt8} (h : Ahead S r P) (hf : r.fillBuf c = (.ok av, r')) :
    Ahead S r' P ∧ av <+: P ∧ (av = [] → P = []) := by
  obtain ⟨Q, rfl, hQ⟩ := h
  rcases fillBuf_cases hf with ⟨hne, ho, rfl⟩ | ⟨bs, he, ho, hb, _, hr⟩ | ⟨e, _, ho, _⟩
  · cases ho
    exact ⟨⟨Q, rfl, hQ⟩, List.prefix_append _ _, fun h0 => absurd h0 hne⟩
  · cases ho
    obtain ⟨Q', rfl, hQ'⟩ := hS.ok hQ hr
    refine ⟨⟨Q', by simp [he, hb], hQ'⟩, by simp [he], ?_⟩
    rintro rfl
    rw [he, List.nil_append]
    exact hS.finished hQ r.capacity.pos hr
  · simp at ho

/-- On a steady source a failed filling is an interruption, or a fatal one. -/
theorem Ahead.fillBuf_error (hS : Steady fatal S) {c : γ} {r r' : BufReader R} {P : List UInt8}
    {e : IoError π} (h : Ahead S r P) (hf : r.fillBuf c = (.error e, r')) :
    e.isInterrupted = true ∧ Ahead S r' P ∨ e.isInterrupted = false ∧ fatal e := by
  obtain ⟨Q, rfl, hQ⟩ := h
  rcases fillBuf_cases hf with ⟨_, ho, _⟩ | ⟨_, _, ho, _⟩ | ⟨e', he, ho, hb, _, hr⟩
  · simp at ho
  · simp at ho
  · cases ho
    exact (hS.error hQ hr).imp_left fun ⟨hi, hQ'⟩ => ⟨hi, Q, by simp [he, hb], hQ'⟩

/-- What is consumed is gone from what is ahead. -/
theorem Ahead.consume {r : BufReader R} {P : List UInt8} {k : Nat} (h : Ahead S r P)
    (hk : k ≤ r.buffer.length) : Ahead S (r.consume k) (P.drop k) := by
  obtain ⟨Q, rfl, hQ⟩ := h
  exact ⟨Q, by rw [consume_buffer, List.drop_append_of_le_length hk], hQ⟩

/-- A buffer over a steady source is steady. -/
theorem steady (hS : Steady fatal S) : Steady fatal (Ahead S) where
  ok := by
    rintro c n r r' bs P ⟨Q, rfl, hQ⟩ h
    rcases read_cases h with ⟨he, hb, _, _, hr⟩ | ⟨av, r₁, hf, hr, rfl⟩ | ⟨_, _, hr⟩
    · obtain ⟨Q', rfl, hQ'⟩ := hS.ok hQ hr
      exact ⟨Q', by simp [he], Q', by simp [hb], hQ'⟩
    · obtain ⟨⟨Q', hP, hQ'⟩, _⟩ := Ahead.fillBuf hS ⟨Q, rfl, hQ⟩ hf
      refine ⟨av.drop n ++ Q', ?_, Q', ?_, hQ'⟩
      · rw [hP, buffer_of_fillBuf_ok hf, Except.ok.inj hr, ← List.append_assoc,
          List.take_append_drop]
      · rw [consume_buffer, buffer_of_fillBuf_ok hf]
    · simp at hr
  finished := by
    rintro c n r r' P ⟨Q, rfl, hQ⟩ hn h
    rcases read_cases h with ⟨he, _, _, _, hr⟩ | ⟨av, r₁, hf, hr, _⟩ | ⟨_, _, hr⟩
    · rw [he, hS.finished hQ hn hr, List.nil_append]
    · have hav : av = [] := by
        rcases List.take_eq_nil_iff.mp (Except.ok.inj hr).symm with h0 | h0
        · omega
        · exact h0
      exact (Ahead.fillBuf hS ⟨Q, rfl, hQ⟩ hf).2.2 hav
    · simp at hr
  error := by
    rintro c n r r' e P ⟨Q, rfl, hQ⟩ h
    rcases read_cases h with ⟨he, hb, _, _, hr⟩ | ⟨_, _, _, hr, _⟩ | ⟨_, hf, hr⟩
    · exact (hS.error hQ hr).imp_left fun ⟨hi, hQ'⟩ => ⟨hi, Q, by rw [he, hb], hQ'⟩
    · simp at hr
    · cases hr
      exact Ahead.fillBuf_error hS ⟨Q, rfl, hQ⟩ hf

end Steadiness

/-! ### Over a byte stream -/

section Streams

variable [ByteStream π R]

/-- A shown buffer takes nothing from the stream: its bytes are the next ones. -/
theorem bytes_fillBuf {r r' : BufReader R} {res : Except (IoError π) (List UInt8)}
    (h : r.fillBuf () = (res, r')) :
    r'.buffer ++ ByteStream.bytes r'.inner = r.buffer ++ ByteStream.bytes r.inner := by
  rcases fillBuf_cases h with ⟨_, _, rfl⟩ | ⟨bs, he, _, hb, _, hr⟩ | ⟨_, he, _, hb, _, hr⟩
  · rfl
  · rw [he, hb, ByteStream.bytes_ok hr, List.nil_append]
  · rw [he, hb, ByteStream.bytes_error hr]

/-- A calm stream stays so. -/
theorem calm_fillBuf {r r' : BufReader R} {res : Except (IoError π) (List UInt8)}
    (hc : ByteStream.calm r.inner) (h : r.fillBuf () = (res, r')) :
    ByteStream.calm r'.inner := by
  rcases fillBuf_cases h with ⟨_, _, rfl⟩ | ⟨_, _, _, _, _, hr⟩ | ⟨_, _, _, _, _, hr⟩
  · exact hc
  · exact ByteStream.calm_read hc hr
  · exact ByteStream.calm_read hc hr

/-- On a calm stream only an interruption fails. -/
theorem calm_fillBuf_error {r r' : BufReader R} {e : IoError π}
    (hc : ByteStream.calm r.inner) (h : r.fillBuf () = (.error e, r')) :
    e.isInterrupted = true := by
  rcases fillBuf_cases h with ⟨_, hr, _⟩ | ⟨_, _, hr, _⟩ | ⟨_, _, hr, _, _, hread⟩
  · simp at hr
  · simp at hr
  · cases hr
    exact ByteStream.calm_error hc hread

/-- A failed filling is the system's failure. -/
theorem os_fillBuf {r r' : BufReader R} {e : IoError π} (h : r.fillBuf () = (.error e, r')) :
    e.isOs = true := by
  rcases fillBuf_cases h with ⟨_, hr, _⟩ | ⟨_, _, hr, _⟩ | ⟨_, _, hr, _, _, hread⟩
  · simp at hr
  · simp at hr
  · cases hr
    exact ByteStream.os_error hread

instance : BufRead π (BufReader R) where
  bytes r := r.buffer ++ ByteStream.bytes r.inner
  calm r := ByteStream.calm r.inner
  bytes_ok h := by
    rcases read_cases h with ⟨he, hb, _, _, hr⟩ | ⟨av, r₁, hf, hr, rfl⟩ | ⟨_, _, hr⟩
    · rw [he, hb, ByteStream.bytes_ok hr, List.nil_append, List.nil_append]
    · rw [← bytes_fillBuf hf, Except.ok.inj hr, consume_buffer, consume_inner,
        buffer_of_fillBuf_ok hf, ← List.append_assoc, List.take_append_drop]
    · simp at hr
  bytes_finished hn h := by
    rcases read_cases h with ⟨he, _, _, _, hr⟩ | ⟨av, r₁, hf, hr, _⟩ | ⟨_, _, hr⟩
    · rw [he, ByteStream.bytes_finished hn hr, List.nil_append]
    · have hav : av = [] := by
        rcases List.take_eq_nil_iff.mp (Except.ok.inj hr).symm with h0 | h0
        · omega
        · exact h0
      rcases fillBuf_cases hf with ⟨hne, ho, _⟩ | ⟨bs, he, ho, _, _, hread⟩ | ⟨_, _, ho, _⟩
      · exact absurd ((Except.ok.inj ho).symm.trans hav) hne
      · cases ho
        rw [hav] at hread
        rw [he, ByteStream.bytes_finished (PNat.pos _) hread, List.nil_append]
      · simp at ho
    · simp at hr
  bytes_error h := by
    rcases read_cases h with ⟨he, hb, _, _, hr⟩ | ⟨_, _, _, hr, _⟩ | ⟨_, hf, _⟩
    · rw [he, hb, ByteStream.bytes_error hr]
    · simp at hr
    · exact bytes_fillBuf hf
  os_error h := by
    rcases read_cases h with ⟨_, _, _, _, hr⟩ | ⟨_, _, _, hr, _⟩ | ⟨_, hf, hr⟩
    · exact ByteStream.os_error hr
    · simp at hr
    · cases hr
      exact os_fillBuf hf
  calm_read hc h := by
    rcases read_cases h with ⟨_, _, _, _, hr⟩ | ⟨_, _, hf, _, rfl⟩ | ⟨_, hf, _⟩
    · exact ByteStream.calm_read hc hr
    · exact (calm_fillBuf hc hf :)
    · exact calm_fillBuf hc hf
  calm_error hc h := by
    rcases read_cases h with ⟨_, _, _, _, hr⟩ | ⟨_, _, _, hr, _⟩ | ⟨_, hf, hr⟩
    · exact ByteStream.calm_error hc hr
    · simp at hr
    · cases hr
      exact calm_fillBuf_error hc hf
  fillBuf := fillBuf ()
  consume := consume
  patience_fillBuf := patience_fillBuf
  patience_fillBuf_interrupted := patience_fillBuf_interrupted
  size_fillBuf := size_fillBuf
  fillBuf_ok {r r' av} h := by
    have hb := bytes_fillBuf h
    refine ⟨hb, ?_, ?_⟩
    · rw [← hb, buffer_of_fillBuf_ok h]
      exact List.prefix_append _ _
    · rintro rfl
      rcases fillBuf_cases h with ⟨hne, ho, _⟩ | ⟨bs, he, ho, _, _, hread⟩ | ⟨_, _, ho, _⟩
      · exact absurd (Except.ok.inj ho).symm hne
      · cases ho
        rw [he, ByteStream.bytes_finished (PNat.pos _) hread, List.nil_append]
      · simp at ho
  fillBuf_error := bytes_fillBuf
  os_fillBuf := os_fillBuf
  calm_fillBuf := calm_fillBuf
  calm_fillBuf_error := calm_fillBuf_error
  bytes_consume h hk := by
    rw [consume_buffer, consume_inner, List.drop_append_of_le_length]
    rwa [buffer_of_fillBuf_ok h]
  patience_consume _ _ := rfl
  size_consume k r := Nat.le.intro (size_consume k r)
  calm_consume hc := hc

end Streams

end BufReader

/-! ### Lines -/

/-- The byte that ends a line. -/
def newline : UInt8 := 10

/-- The first line of `bs`, its newline included, cut at `max` bytes. -/
def firstLine : Nat → List UInt8 → List UInt8
  | 0, _           => []
  | _ + 1, []      => []
  | n + 1, b :: bs => if b = newline then [b] else b :: firstLine n bs

/-- A line with no newline in its first `k` bytes goes on after them. -/
theorem firstLine_of_notMem {n k : Nat} {bs : List UInt8} (hk : k ≤ n)
    (h : newline ∉ bs.take k) :
    firstLine n bs = bs.take k ++ firstLine (n - k) (bs.drop k) := by
  induction k generalizing n bs with
  | zero => simp
  | succ k ih =>
    cases n with
    | zero => omega
    | succ n =>
      cases bs with
      | nil => cases hnk : n + 1 - (k + 1) <;> simp [firstLine]
      | cons b bs =>
        simp only [List.take_succ_cons, List.mem_cons, not_or] at h
        rw [firstLine, if_neg (Ne.symm h.1), ih (by omega) h.2]
        simp

/-- A line with a newline in its first `k` bytes ends there. -/
private theorem firstLine_of_mem {n k : Nat} {bs : List UInt8} (hk : k ≤ n)
    (h : newline ∈ bs.take k) :
    firstLine n bs = bs.take ((bs.take k).idxOf newline + 1) := by
  induction k generalizing n bs with
  | zero => simp at h
  | succ k ih =>
    cases n with
    | zero => omega
    | succ n =>
      cases bs with
      | nil => simp at h
      | cons b bs =>
        by_cases hb : b = newline
        · simp [firstLine, hb]
        · have h' : newline ∈ bs.take k := by
            simpa [Ne.symm hb] using h
          rw [firstLine, if_neg hb, ih (by omega) h', List.take_succ_cons, List.take_succ_cons,
            List.idxOf_cons_ne _ hb]

/-- What is shown of a stream, cut to a window, is the stream cut to the window. -/
theorem take_window {av P : List UInt8} (h : av <+: P) (n : Nat) :
    av.take n = P.take (av.take n).length := by
  obtain ⟨rest, rfl⟩ := h
  rw [List.take_append_of_le_length (by rw [List.length_take]; omega), List.length_take]
  rcases Nat.le_total n av.length with hn | hn
  · rw [Nat.min_eq_left hn]
  · rw [Nat.min_eq_right hn, List.take_of_length_le hn, List.take_of_length_le le_rfl]

section ReadLine

variable [BufRead π R]

/-- Read one line of at most `max` bytes, its newline included, as `line` followed by what
    comes. -/
def readLine (max : Nat) (line : List UInt8) (r : R) : Except (IoError π) (List UInt8) × R :=
  if max ≤ line.length then (.ok line, r) else
  match _h : BufRead.fillBuf r with
  | (.error e, r')      => if e.isInterrupted then readLine max line r' else (.error e, r')
  | (.ok [], r')        => (.ok line, r')
  | (.ok (a :: as), r') =>
    let window := (a :: as).take (max - line.length)
    if newline ∈ window then
      let i := window.idxOf newline
      (.ok (line ++ window.take (i + 1)), BufRead.consume (i + 1) r')
    else
      readLine max (line ++ window) (BufRead.consume window.length r')
termination_by (max - line.length) + Read.patience r
decreasing_by
  · have h1 := BufRead.patience_fillBuf_interrupted _h ‹_›
    omega
  · have h1 := BufRead.patience_fillBuf _h
    rw [BufRead.patience_consume]
    simp only [List.length_append, List.length_take, List.length_cons]
    omega

/-- A line that was read is the stream's first line, and the stream goes on after it. -/
theorem readLine_ok {max : Nat} {line out : List UInt8} {r r' : R}
    (h : readLine max line r = (.ok out, r')) :
    out = line ++ firstLine (max - line.length) (ByteStream.bytes r) ∧
    ByteStream.bytes r = firstLine (max - line.length) (ByteStream.bytes r) ++
      ByteStream.bytes r' := by
  fun_induction readLine max line r with
  | case1 line r hle =>
    -- the line is as long as it may get
    cases h
    simp [Nat.sub_eq_zero_of_le hle, firstLine]
  | case2 line r hlt e r₁ hf _ ih =>
    -- an interrupted filling is made again
    rw [← BufRead.fillBuf_error hf]
    exact ih h
  | case3 => simp at h
  | case4 line r hlt r₁ hf =>
    -- the source is at its end
    cases h
    obtain ⟨hb, _, hnil⟩ := BufRead.fillBuf_ok hf
    rw [hb, hnil rfl]
    cases max - out.length <;> simp [firstLine]
  | case5 line r hlt a as r₁ hf window hmem i =>
    -- the newline is in the buffer
    cases h
    obtain ⟨hb, hpre, _⟩ := BufRead.fillBuf_ok hf
    have hw : window = (ByteStream.bytes r).take window.length := take_window hpre _
    have hlen : window.length ≤ max - line.length := List.length_take_le _ _
    have hi : i < window.length := List.idxOf_lt_length_iff.mpr hmem
    have hline : firstLine (max - line.length) (ByteStream.bytes r) = window.take (i + 1) := by
      rw [firstLine_of_mem hlen (hw ▸ hmem), ← hw]
      conv_rhs => rw [hw, List.take_take, Nat.min_eq_left hi]
    refine ⟨by rw [hline], ?_⟩
    have hle : i + 1 ≤ (a :: as).length := hi.trans_le (List.length_take_le' _ _)
    rw [BufRead.bytes_consume hf hle, hb, hline]
    conv_rhs => rw [hw, List.take_take, Nat.min_eq_left hi, List.take_append_drop]
  | case6 line r hlt a as r₁ hf window hmem ih =>
    -- the line goes on behind what is in the buffer
    obtain ⟨hb, hpre, _⟩ := BufRead.fillBuf_ok hf
    have hw : window = (ByteStream.bytes r).take window.length := take_window hpre _
    have hlen : window.length ≤ max - line.length := List.length_take_le _ _
    have hcons : ByteStream.bytes (BufRead.consume window.length r₁) =
        (ByteStream.bytes r).drop window.length := by
      rw [BufRead.bytes_consume hf (List.length_take_le' _ _), hb]
    obtain ⟨hout, hrest⟩ := ih h
    rw [hcons, List.length_append, ← Nat.sub_sub] at hout hrest
    have hline := firstLine_of_notMem hlen (hw ▸ hmem)
    rw [← hw] at hline
    refine ⟨by rw [hout, hline, List.append_assoc], ?_⟩
    rw [hline, List.append_assoc, ← hrest]
    calc ByteStream.bytes r
        = (ByteStream.bytes r).take window.length ++ (ByteStream.bytes r).drop window.length :=
          (List.take_append_drop _ _).symm
      _ = window ++ (ByteStream.bytes r).drop window.length := by rw [← hw]

/-- Over a calm stream a line can be read, and the stream stays calm. -/
theorem readLine_calm (max : Nat) (line : List UInt8) {r : R} (hc : ByteStream.calm r) :
    ∃ out r', readLine max line r = (.ok out, r') ∧ ByteStream.calm r' := by
  fun_induction readLine max line r with
  | case1 line r => exact ⟨line, r, rfl, hc⟩
  | case2 _ _ _ _ _ hf _ ih => exact ih (BufRead.calm_fillBuf hc hf)
  | case3 _ _ _ _ _ hf hn => exact absurd (BufRead.calm_fillBuf_error hc hf) hn
  | case4 line _ _ r₁ hf => exact ⟨line, r₁, rfl, BufRead.calm_fillBuf hc hf⟩
  | case5 line _ _ _ _ r₁ hf window _ i =>
    exact ⟨_, _, rfl, BufRead.calm_consume (BufRead.calm_fillBuf hc hf)⟩
  | case6 _ _ _ _ _ _ hf _ _ ih => exact ih (BufRead.calm_consume (BufRead.calm_fillBuf hc hf))

/-- A line that cannot be read is the system's doing, and not a calm stream's. -/
theorem readLine_error {max : Nat} {line : List UInt8} {r r' : R} {e : IoError π}
    (h : readLine max line r = (.error e, r')) :
    e.isOs = true ∧ e.isInterrupted = false ∧ ¬ ByteStream.calm r := by
  have hcalm : ¬ ByteStream.calm r := by
    intro hc
    obtain ⟨out, r₁, hout, _⟩ := readLine_calm max line hc
    rw [hout] at h
    simp at h
  suffices e.isOs = true ∧ e.isInterrupted = false from ⟨this.1, this.2, hcalm⟩
  clear hcalm
  fun_induction readLine max line r with
  | case1 => simp at h
  | case2 _ _ _ _ _ _ _ ih => exact ih h
  | case3 _ _ _ _ _ hf hn =>
    cases h
    exact ⟨BufRead.os_fillBuf hf, by simpa using hn⟩
  | case4 => simp at h
  | case5 => simp at h
  | case6 _ _ _ _ _ _ _ _ _ ih => exact ih h

/-- Reading a line makes no reader more patient. -/
theorem patience_readLine (max : Nat) (line : List UInt8) (r : R) :
    Read.patience (readLine max line r).2 ≤ Read.patience r := by
  fun_induction readLine max line r with
  | case1 => exact le_rfl
  | case2 _ _ _ _ _ hf _ ih => exact ih.trans (BufRead.patience_fillBuf hf)
  | case3 _ _ _ _ _ hf _ => exact BufRead.patience_fillBuf hf
  | case4 _ _ _ _ hf => exact BufRead.patience_fillBuf hf
  | case5 _ _ _ _ _ _ hf =>
    exact (BufRead.patience_consume _ _).trans_le (BufRead.patience_fillBuf hf)
  | case6 _ _ _ _ _ _ hf _ _ ih =>
    exact ih.trans ((BufRead.patience_consume _ _).trans_le (BufRead.patience_fillBuf hf))

/-- Reading a line adds nothing to what is to come. -/
theorem size_readLine (max : Nat) (line : List UInt8) (r : R) :
    FiniteRead.size (readLine max line r).2 ≤ FiniteRead.size r := by
  fun_induction readLine max line r with
  | case1 => exact le_rfl
  | case2 _ _ _ _ _ hf _ ih => exact ih.trans (BufRead.size_fillBuf hf)
  | case3 _ _ _ _ _ hf _ => exact BufRead.size_fillBuf hf
  | case4 _ _ _ _ hf => exact BufRead.size_fillBuf hf
  | case5 _ _ _ _ _ _ hf => exact (BufRead.size_consume _ _).trans (BufRead.size_fillBuf hf)
  | case6 _ _ _ _ _ _ hf _ _ ih =>
    exact ih.trans ((BufRead.size_consume _ _).trans (BufRead.size_fillBuf hf))

end ReadLine

end Omdrop.Stream
