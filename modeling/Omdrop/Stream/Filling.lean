import Mathlib.Data.List.Basic
import Mathlib.Order.Lattice

namespace Omdrop.Stream

/-!
# Buffers filled until they suffice

A connection brings its bytes in pieces; a reader keeps what it has not used in a buffer, looks
whether that is enough for what it wants, and fills up when it is not.

* `fillUntil` — fill the buffer until `decide` comes to an answer about it, or it is too large, or
  nothing more comes;
* `fillUntil_cases` — for a `Stable` question, the outcome is decided by the bytes alone, whatever
  pieces they come in;
* `length_fillUntil_le` — how far the buffer may grow.
-/

/-- Bytes that arrive together, `size` of them at most. -/
abbrev Piece (size : Nat) := {bs : List UInt8 // bs ≠ [] ∧ bs.length ≤ size}

/-- A connection with its buffer: what was read and not used, the pieces that are to come, and the
    failure that every read after them meets, if it is one. -/
structure Incoming (ε : Type) (size : Nat) where
  rbuf : List UInt8
  reads : List (Piece size)
  ending : Option ε

/-- Why a buffer is not filled further. -/
inductive Stop (ε : Type)
  | tooLong
  | ended
  | failed (e : ε)

variable {ε α : Type} {size : Nat}

namespace Incoming

/-- The bytes that are still to come. -/
def unread (c : Incoming ε size) : List UInt8 := c.reads.flatMap (·.1)

/-- All bytes from here on. -/
def stream (c : Incoming ε size) : List UInt8 := c.rbuf ++ c.unread

/-- Use up the front of the buffer. -/
def drain (n : Nat) (c : Incoming ε size) : Incoming ε size := { c with rbuf := c.rbuf.drop n }

/-- Read once, to the end of the buffer; answers how much came. -/
def fill (c : Incoming ε size) : Except ε Nat × Incoming ε size :=
  match c.reads with
  | p :: reads => (.ok p.1.length, { c with rbuf := c.rbuf ++ p.1, reads })
  | []         =>
    match c.ending with
    | none   => (.ok 0, c)
    | some e => (.error e, c)

/-- Read once; a failure that `eof` takes for the end is one. -/
def fillOrEof (eof : ε → Bool) (c : Incoming ε size) : Except ε Nat × Incoming ε size :=
  match c.fill with
  | (.error e, c') => if eof e then (.ok 0, c') else (.error e, c')
  | (.ok n, c')    => (.ok n, c')

/-- The failure at the end of the bytes, when it is not taken for the end. -/
def failure (eof : ε → Bool) (c : Incoming ε size) : Option ε := c.ending.filter (! eof ·)

/-- What the end of the bytes comes to. -/
def stop (eof : ε → Bool) (c : Incoming ε size) : Stop ε :=
  match c.failure eof with
  | none   => .ended
  | some e => .failed e

variable {eof : ε → Bool} {c c' : Incoming ε size}

theorem fillOrEof_cons {p : Piece size} {reads : List (Piece size)} (h : c.reads = p :: reads) :
    c.fillOrEof eof = (.ok p.1.length, { c with rbuf := c.rbuf ++ p.1, reads }) := by
  unfold fillOrEof fill
  rw [h]

theorem fillOrEof_nil (h : c.reads = []) :
    c.fillOrEof eof = (match c.failure eof with
      | none   => .ok 0
      | some e => .error e, c) := by
  obtain ⟨rbuf, reads, ending⟩ := c
  obtain rfl : reads = [] := h
  unfold fillOrEof fill failure
  cases ending with
  | none => rfl
  | some e => cases he : eof e <;> simp [he, Option.filter]

/-- A read that brings something uses up a piece. -/
theorem reads_fillOrEof {n : Nat} (h : c.fillOrEof eof = (.ok (n + 1), c')) :
    c'.reads.length < c.reads.length := by
  cases hr : c.reads with
  | nil =>
    rw [fillOrEof_nil hr] at h
    cases hs : c.failure eof <;> rw [hs] at h <;> cases h
  | cons p reads =>
    rw [fillOrEof_cons hr, Prod.mk.injEq] at h
    rw [← h.2]
    exact Nat.lt_succ_self _

/-- Fill the buffer until `decide` answers; with more than `limit` bytes and no answer it is too
    long. -/
def fillUntil (eof : ε → Bool) (limit : Option Nat) (decide : List UInt8 → Option α)
    (c : Incoming ε size) : Except (Stop ε) α × Incoming ε size :=
  match decide c.rbuf with
  | some a => (.ok a, c)
  | none   =>
    if limit.any (· < c.rbuf.length) then (.error .tooLong, c) else
    match _h : c.fillOrEof eof with
    | (.error e, c')  => (.error (.failed e), c')
    | (.ok 0, c')     => (.error .ended, c')
    | (.ok (_ + 1), c') => fillUntil eof limit decide c'
termination_by c.reads.length
decreasing_by exact reads_fillOrEof _h

/-- An answer that more bytes do not change. -/
def Stable (decide : List UInt8 → Option α) : Prop :=
  ∀ P T a, decide P = some a → decide (P ++ T) = some a

variable {limit : Option Nat} {decide : List UInt8 → Option α}

theorem fillUntil_some {a : α} (h : decide c.rbuf = some a) :
    c.fillUntil eof limit decide = (.ok a, c) := by
  unfold fillUntil
  rw [h]

theorem fillUntil_tooLong (h : decide c.rbuf = none) (hl : limit.any (· < c.rbuf.length)) :
    c.fillUntil eof limit decide = (.error .tooLong, c) := by
  unfold fillUntil
  rw [h]
  exact if_pos hl

theorem fillUntil_nil (h : decide c.rbuf = none) (hl : ¬ limit.any (· < c.rbuf.length))
    (hr : c.reads = []) : c.fillUntil eof limit decide = (.error (c.stop eof), c) := by
  have hf := @fillOrEof_nil ε size eof c hr
  unfold fillUntil stop
  rw [h]
  show (if _ then _ else _) = _
  rw [if_neg hl]
  cases hs : c.failure eof <;> rw [hs] at hf <;> split <;> rename_i h' <;> rw [hf] at h' <;> cases h'
  · rfl
  · rfl

theorem fillUntil_cons {p : Piece size} {reads : List (Piece size)} (h : decide c.rbuf = none)
    (hl : ¬ limit.any (· < c.rbuf.length)) (hr : c.reads = p :: reads) :
    c.fillUntil eof limit decide =
      fillUntil eof limit decide { c with rbuf := c.rbuf ++ p.1, reads } := by
  have hf := @fillOrEof_cons ε size eof c p reads hr
  have hpos : 0 < p.1.length := List.length_pos_iff.mpr p.2.1
  rw [fillUntil, h]
  show (if _ then _ else _) = _
  rw [if_neg hl]
  split <;> rename_i h' <;> rw [hf, Prod.mk.injEq] at h'
  · cases h'.1
  · have hlen := h'.1
    rw [Except.ok.injEq] at hlen
    omega
  · rw [h'.2]

/-- Filling goes from one buffer to a larger one of the same stream. -/
theorem fillUntil_induct {Q : Incoming ε size → Prop} (limit : Option Nat)
    (decide : List UInt8 → Option α)
    (answer : ∀ c a, decide c.rbuf = some a → Q c)
    (tooLong : ∀ c, decide c.rbuf = none → limit.any (· < c.rbuf.length) → Q c)
    (ended : ∀ c, decide c.rbuf = none → ¬ limit.any (· < c.rbuf.length) → c.reads = [] → Q c)
    (filled : ∀ c p reads, decide c.rbuf = none → ¬ limit.any (· < c.rbuf.length) →
      c.reads = p :: reads → Q { c with rbuf := c.rbuf ++ p.1, reads } → Q c)
    (c : Incoming ε size) : Q c := by
  obtain ⟨rbuf, reads, ending⟩ := c
  induction reads generalizing rbuf with
  | nil =>
    cases h : decide rbuf with
    | some a => exact answer _ a h
    | none =>
      by_cases hl : limit.any (· < rbuf.length)
      · exact tooLong _ h hl
      · exact ended _ h hl rfl
  | cons p reads ih =>
    cases h : decide rbuf with
    | some a => exact answer _ a h
    | none =>
      by_cases hl : limit.any (· < rbuf.length)
      · exact tooLong _ h hl
      · exact filled _ p reads h hl rfl (ih _)

@[simp] theorem stream_nil {rbuf : List UInt8} {ending : Option ε} :
    stream (⟨rbuf, [], ending⟩ : Incoming ε size) = rbuf := List.append_nil rbuf

/-- Using up the front of the buffer uses up the front of the stream. -/
theorem stream_drain {n : Nat} (h : n ≤ c.rbuf.length) : (c.drain n).stream = c.stream.drop n := by
  show c.rbuf.drop n ++ c.unread = _
  rw [stream, List.drop_append_of_le_length h]

theorem take_rbuf {n : Nat} (h : n ≤ c.rbuf.length) : c.rbuf.take n = c.stream.take n := by
  rw [stream, List.take_append_of_le_length h]

theorem stream_fill {p : Piece size} {reads : List (Piece size)} (hr : c.reads = p :: reads) :
    stream { c with rbuf := c.rbuf ++ p.1, reads } = c.stream := by
  unfold stream unread
  rw [hr]
  simp

/-- **Filling uses nothing up.** -/
theorem fillUntil_keeps (c : Incoming ε size) :
    (c.fillUntil eof limit decide).2.stream = c.stream ∧
      (c.fillUntil eof limit decide).2.ending = c.ending := by
  induction c using fillUntil_induct limit decide with
  | answer c a h => rw [fillUntil_some h]; exact ⟨rfl, rfl⟩
  | tooLong c h hl => rw [fillUntil_tooLong h hl]; exact ⟨rfl, rfl⟩
  | ended c h hl hr => rw [fillUntil_nil h hl hr]; exact ⟨rfl, rfl⟩
  | filled c p reads h hl hr ih =>
    rw [fillUntil_cons h hl hr, ih.1, stream_fill hr]
    exact ⟨rfl, ih.2⟩

theorem stream_fillUntil {res : Except (Stop ε) α} {c c' : Incoming ε size}
    (h : c.fillUntil eof limit decide = (res, c')) : c'.stream = c.stream := by
  have hkeeps := (@fillUntil_keeps ε α size eof limit decide c).1
  rwa [h] at hkeeps

theorem length_rbuf_le (c : Incoming ε size) : c.rbuf.length ≤ c.stream.length := by
  rw [stream, List.length_append]
  exact Nat.le_add_right _ _

/-- An answer is about the buffer that it leaves. -/
theorem fillUntil_ok {a : α} {c c' : Incoming ε size}
    (h : c.fillUntil eof limit decide = (.ok a, c')) : decide c'.rbuf = some a := by
  induction c using fillUntil_induct limit decide with
  | answer c b hb =>
    rw [fillUntil_some hb] at h
    cases h
    exact hb
  | tooLong c hn hl =>
    rw [fillUntil_tooLong hn hl] at h
    cases h
  | ended c hn hl hr =>
    rw [fillUntil_nil hn hl hr] at h
    cases h
  | filled c p reads hn hl hr ih =>
    rw [fillUntil_cons hn hl hr] at h
    exact ih h

/-- **How far a buffer grows.**  When more than `most` bytes are always answered or too many, it
    grows to a piece more than that. -/
theorem length_fillUntil_le {most : Nat}
    (hmost : ∀ P, decide P = none → ¬ limit.any (· < P.length) → P.length ≤ most)
    (c : Incoming ε size) :
    (c.fillUntil eof limit decide).2.rbuf.length ≤ max c.rbuf.length (most + size) := by
  induction c using fillUntil_induct limit decide with
  | answer c a h => rw [fillUntil_some h]; exact Nat.le_max_left _ _
  | tooLong c h hl => rw [fillUntil_tooLong h hl]; exact Nat.le_max_left _ _
  | ended c h hl hr => rw [fillUntil_nil h hl hr]; exact Nat.le_max_left _ _
  | filled c p reads h hl hr ih =>
    rw [fillUntil_cons h hl hr]
    have hlen := hmost _ h hl
    have hp := p.2.2
    have hgrow : (c.rbuf ++ p.1).length ≤ most + size := by
      rw [List.length_append]
      omega
    refine le_trans ih ?_
    show max (c.rbuf ++ p.1).length (most + size) ≤ _
    omega

/-- **The bytes alone decide.**  To a stable question, with its answer within the limit when there
    is one, filling comes to the same whatever the pieces: to the answer about all bytes, or, when
    there is none, to as many bytes as are too many or to the end of them. -/
theorem fillUntil_cases (hstable : Stable decide)
    (hfits : ∀ a l, decide c.stream = some a → limit = some l →
      ∃ j ≤ l + 1, (decide (c.stream.take j)).isSome)
    {res : Except (Stop ε) α} {c' : Incoming ε size}
    (h : c.fillUntil eof limit decide = (res, c')) :
    (∃ a, decide c.stream = some a ∧ res = .ok a ∧ decide c'.rbuf = some a) ∨
    (decide c.stream = none ∧ limit.any (· < c.stream.length) ∧ res = .error .tooLong) ∨
    (decide c.stream = none ∧ ¬ limit.any (· < c.stream.length) ∧ res = .error (c.stop eof) ∧
      c'.rbuf = c.stream) := by
  induction c using fillUntil_induct limit decide with
  | answer c a ha =>
    rw [fillUntil_some ha] at h
    cases h
    exact .inl ⟨a, by rw [stream, hstable _ _ _ ha], rfl, ha⟩
  | tooLong c hn hl =>
    rw [fillUntil_tooLong hn hl] at h
    cases h
    obtain ⟨l, rfl, hlen⟩ := (Option.any_eq_true _ _).mp hl
    rw [decide_eq_true_eq] at hlen
    have hbuf := length_rbuf_le c'
    cases hs : decide c'.stream with
    | none =>
      refine .inr (.inl ⟨rfl, ?_, rfl⟩)
      rw [Option.any_some, decide_eq_true_eq]
      omega
    | some a =>
      -- the answer would have been there before the buffer was too long
      obtain ⟨j, hj, hsome⟩ := hfits a l hs rfl
      obtain ⟨b, hb⟩ := Option.isSome_iff_exists.mp hsome
      have hans := hstable _ (c'.rbuf.drop j) b hb
      rw [← take_rbuf (by omega), List.take_append_drop, hn] at hans
      cases hans
  | ended c hn hl hr =>
    have hstream : c.stream = c.rbuf := by simp [stream, unread, hr]
    rw [fillUntil_nil hn hl hr] at h
    cases h
    rw [hstream]
    exact .inr (.inr ⟨hn, hl, rfl, rfl⟩)
  | filled c p reads hn hl hr ih =>
    rw [fillUntil_cons hn hl hr] at h
    have hstream := stream_fill hr
    rw [hstream] at ih
    exact ih hfits h

end Incoming

end Omdrop.Stream
