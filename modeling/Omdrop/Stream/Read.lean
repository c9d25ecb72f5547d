import Mathlib.Data.PNat.Defs
import Mathlib.Data.List.Basic

namespace Omdrop.Stream

/-!
# Byte sources that answer a little at a time

A reader is asked for at most `n` bytes and answers some of them, the end, or a failure.
How it cuts its bytes up is its own affair; this file collects what holds whatever the cuts:

* `Read` / `FiniteRead` — one call, with the measures that make the usual loops total;
* `retry`, `readFull`, `copyTake`, `drain` — the loops of a standard library over such a call;
* `Steady` — "from here on exactly these bytes, then the end", as a simulation: whoever
  exhibits one gets the outcome of every loop, free of the cuts (`Steady.readFull`,
  `Steady.copyTake`, `Steady.drain`).
-/

/-! ### Failures -/

/-- The kinds of failure that the readers below tell apart. -/
inductive ErrorKind
  | interrupted
  | wouldBlock
  | timedOut
  | unexpectedEof
  | alreadyExists
  | invalidInput
  | invalidData
  | other
  deriving DecidableEq, Repr

/-- A failed call: the system's own verdict, or one raised by a layer of the program, which
    travels as a payload. -/
inductive IoError (π : Type)
  | os (kind : ErrorKind) (text : String)
  | custom (payload : π)
  deriving DecidableEq, Repr

namespace IoError

variable {π : Type}

/-- The kind a failure reports; a payload travels as `other`. -/
def kind : IoError π → ErrorKind
  | .os k _   => k
  | .custom _ => .other

/-- The call was interrupted and may simply be made again. -/
def isInterrupted (e : IoError π) : Bool := e.kind == .interrupted

/-- Is this the system's own verdict? -/
def isOs : IoError π → Bool
  | .os _ _   => true
  | .custom _ => false

/-- A read that ran out of time. -/
def isTimeout (e : IoError π) : Bool := e.kind == .wouldBlock || e.kind == .timedOut

@[simp] theorem isInterrupted_custom (p : π) : (custom p).isInterrupted = false := rfl
@[simp] theorem isTimeout_custom (p : π) : (custom p).isTimeout = false := rfl
@[simp] theorem isOs_custom (p : π) : (custom p).isOs = false := rfl

end IoError

/-! ### One call -/

/-- A byte source.  `read c n r` asks `r` for at most `n` bytes; `c` is what the source may
    look at during the call.  `patience` bounds the interruptions still to come. -/
class Read (γ : outParam Type) (π : outParam Type) (R : Type) where
  read : γ → Nat → R → Except (IoError π) (List UInt8) × R
  patience : R → Nat
  length_read : ∀ {c n r r' bs}, read c n r = (.ok bs, r') → bs.length ≤ n
  patience_read : ∀ {c n r r' res}, read c n r = (res, r') → patience r' ≤ patience r
  patience_interrupted : ∀ {c n r r' e}, read c n r = (.error e, r') →
    e.isInterrupted = true → patience r' < patience r

/-- A byte source that cannot go on for ever: every byte it answers uses up some of `size`. -/
class FiniteRead (γ : outParam Type) (π : outParam Type) (R : Type) extends Read γ π R where
  size : R → Nat
  size_read : ∀ {c n r r' res}, read c n r = (res, r') → size r' ≤ size r
  size_read_lt : ∀ {c n r r' b bs}, read c n r = (.ok (b :: bs), r') → size r' < size r

variable {γ π R : Type}

/-! ### Loops over one call -/

section Loops

variable [Read γ π R]

/-- Ask once, and again for as long as the call is interrupted. -/
def retry (c : γ) (n : Nat) (r : R) : Except (IoError π) (List UInt8) × R :=
  match _h : Read.read c n r with
  | (.ok bs, r')   => (.ok bs, r')
  | (.error e, r') => if e.isInterrupted then retry c n r' else (.error e, r')
termination_by Read.patience r
decreasing_by exact Read.patience_interrupted _h ‹_›

/-- Read until `want` bytes are there or the source ends, as `acc` followed by what comes.
    A failure loses what was read before it. -/
def readFull (c : γ) (want : Nat) (acc : List UInt8) (r : R) :
    Except (IoError π) (List UInt8) × R :=
  if want = 0 then (.ok acc, r) else
  match _h : Read.read c want r with
  | (.ok [], r')        => (.ok acc, r')
  | (.ok (b :: bs), r') => readFull c (want - (b :: bs).length) (acc ++ (b :: bs)) r'
  | (.error e, r')      => if e.isInterrupted then readFull c want acc r' else (.error e, r')
termination_by want + Read.patience r
decreasing_by
  · have h1 := Read.patience_read _h
    have h2 := Read.length_read _h
    simp only [List.length_cons] at h2 ⊢
    omega
  · have h1 := Read.patience_interrupted _h ‹_›
    omega

/-- Copy at most `limit` bytes, `chunk` at a time, as `copied` followed by what comes; a failure
    keeps what was copied before it. -/
def copyTake (c : γ) (chunk : ℕ+) (limit : Nat) (copied : List UInt8) (r : R) :
    Except (IoError π) Unit × List UInt8 × R :=
  if limit = 0 then (.ok (), copied, r) else
  match _h : Read.read c (min chunk limit) r with
  | (.ok [], r')        => (.ok (), copied, r')
  | (.ok (b :: bs), r') => copyTake c chunk (limit - (b :: bs).length) (copied ++ (b :: bs)) r'
  | (.error e, r')      =>
      if e.isInterrupted then copyTake c chunk limit copied r' else (.error e, copied, r')
termination_by limit + Read.patience r
decreasing_by
  · have h1 := Read.patience_read _h
    have h2 := Read.length_read _h
    simp only [List.length_cons] at h2 ⊢
    omega
  · have h1 := Read.patience_interrupted _h ‹_›
    omega

end Loops

/-- Read to the end, the `k`-th call with room for `room k` bytes; answers everything read. -/
def drain [FiniteRead γ π R] (c : γ) (room : Nat → ℕ+) (k : Nat) (acc : List UInt8) (r : R) :
    Except (IoError π) (List UInt8) × R :=
  match _h : Read.read c (room k) r with
  | (.ok [], r')        => (.ok acc, r')
  | (.ok (b :: bs), r') => drain c room (k + 1) (acc ++ (b :: bs)) r'
  | (.error e, r')      =>
      if e.isInterrupted then drain c room (k + 1) acc r' else (.error e, r')
termination_by FiniteRead.size r + Read.patience r
decreasing_by
  · have h1 := Read.patience_read _h
    have h2 := FiniteRead.size_read_lt _h
    omega
  · have h1 := Read.patience_interrupted _h ‹_›
    have h2 := FiniteRead.size_read _h
    omega

/-- Reading to the end, the `k`-th call with room for `room k` bytes, comes to `P`: for sources
    of which no measure is known. -/
inductive Drains [Read γ π R] (c : γ) (room : Nat → ℕ+) : Nat → R → List UInt8 → R → Prop
  | finished {k r r'} (h : Read.read c (room k) r = (.ok [], r')) : Drains c room k r [] r'
  | more {k r r₁ r' b bs P} (h : Read.read c (room k) r = (.ok (b :: bs), r₁))
      (hs : Drains c room (k + 1) r₁ P r') : Drains c room k r (b :: bs ++ P) r'
  | interrupted {k r r₁ r' e P} (h : Read.read c (room k) r = (.error e, r₁))
      (hi : e.isInterrupted = true) (hs : Drains c room (k + 1) r₁ P r') :
      Drains c room k r P r'

/-! ### What a loop leaves of the measures -/

/-- Reading in full makes no reader more patient. -/
theorem patience_readFull [Read γ π R] (c : γ) (want : Nat) (acc : List UInt8) (r : R) :
    Read.patience (readFull c want acc r).2 ≤ Read.patience r := by
  fun_induction readFull c want acc r with
  | case1 => exact le_rfl
  | case2 _ _ _ _ _ h => exact Read.patience_read h
  | case3 _ _ _ _ _ _ _ h ih => exact ih.trans (Read.patience_read h)
  | case4 _ _ _ _ _ _ h _ ih => exact ih.trans (Read.patience_read h)
  | case5 _ _ _ _ _ _ h => exact Read.patience_read h

/-- `readFull` answers at most what was asked for, after what it had. -/
theorem readFull_ok [Read γ π R] {c : γ} {want : Nat} {acc out : List UInt8} {r r' : R}
    (h : readFull c want acc r = (.ok out, r')) :
    ∃ bs, out = acc ++ bs ∧ bs.length ≤ want := by
  fun_induction readFull c want acc r with
  | case1 => simp only [Prod.mk.injEq, Except.ok.injEq] at h; exact ⟨[], by simp [h.1]⟩
  | case2 => simp only [Prod.mk.injEq, Except.ok.injEq] at h; exact ⟨[], by simp [h.1]⟩
  | case3 want acc r _ b bs r₁ hr ih =>
    obtain ⟨more, rfl, hmore⟩ := ih h
    have hlen := Read.length_read hr
    refine ⟨b :: bs ++ more, by simp, ?_⟩
    rw [List.length_append]
    omega
  | case4 _ _ _ _ _ _ _ _ ih => exact ih h
  | case5 => simp at h

section FiniteLoops

variable [FiniteRead γ π R]

/-- Reading in full leaves no more than there was. -/
theorem size_readFull (c : γ) (want : Nat) (acc : List UInt8) (r : R) :
    FiniteRead.size (readFull c want acc r).2 ≤ FiniteRead.size r := by
  fun_induction readFull c want acc r with
  | case1 => exact le_rfl
  | case2 _ _ _ _ _ h => exact FiniteRead.size_read h
  | case3 _ _ _ _ _ _ _ h ih => exact ih.trans (FiniteRead.size_read h)
  | case4 _ _ _ _ _ _ h _ ih => exact ih.trans (FiniteRead.size_read h)
  | case5 _ _ _ _ _ _ h => exact FiniteRead.size_read h

/-- Bytes that `readFull` answers are gone from the source. -/
theorem size_readFull_lt {c : γ} {want : Nat} {acc out : List UInt8} {r r' : R}
    (h : readFull c want acc r = (.ok out, r')) (hout : acc.length < out.length) :
    FiniteRead.size r' < FiniteRead.size r := by
  fun_induction readFull c want acc r with
  | case1 => simp only [Prod.mk.injEq, Except.ok.injEq] at h; rw [h.1] at hout; omega
  | case2 => simp only [Prod.mk.injEq, Except.ok.injEq] at h; rw [h.1] at hout; omega
  | case3 want acc r _ b bs r₁ hr ih =>
    have h1 := FiniteRead.size_read_lt hr
    have h2 := size_readFull c (want - (b :: bs).length) (acc ++ b :: bs) r₁
    rw [h] at h2
    exact h2.trans_lt h1
  | case4 want acc r _ e r₁ hr _ ih => exact (ih h hout).trans_le (FiniteRead.size_read hr)
  | case5 => simp at h

end FiniteLoops

/-! ### Traces

What was read, whatever it was: `Delivers r P r'` says that some calls took the source from `r`
to `r'` and answered the bytes `P`.  A loop that succeeds is inverted once into such a trace and
the call it stopped at. -/

/-- Some calls take `r` to `r'` and answer `P`; those that failed were interrupted. -/
inductive Delivers [Read γ π R] : R → List UInt8 → R → Prop
  | refl (r : R) : Delivers r [] r
  | ok {c n r r' r'' bs P} (h : Read.read c n r = (.ok bs, r')) (hs : Delivers r' P r'') :
      Delivers r (bs ++ P) r''
  | interrupted {c n r r' r'' e P} (h : Read.read c n r = (.error e, r'))
      (hi : e.isInterrupted = true) (hs : Delivers r' P r'') : Delivers r P r''

namespace Delivers

variable [Read γ π R] {r r' r'' : R} {P Q : List UInt8}

/-- Two deliveries are one. -/
theorem trans (h : Delivers r P r') (h' : Delivers r' Q r'') : Delivers r (P ++ Q) r'' := by
  induction h with
  | refl => exact h'
  | ok hr _ ih => rw [List.append_assoc]; exact .ok hr (ih h')
  | interrupted hr hi _ ih => exact .interrupted hr hi (ih h')

/-- A read delivers what it gives. -/
theorem of_ok {c : γ} {n : Nat} {bs : List UInt8} (h : Read.read c n r = (.ok bs, r')) :
    Delivers r bs r' := by
  simpa using Delivers.ok h (.refl r')

end Delivers

/-- A delivery makes no reader more patient. -/
theorem Delivers.patience_le [Read γ π R] {r r' : R} {P : List UInt8} (h : Delivers r P r') :
    Read.patience r' ≤ Read.patience r := by
  induction h with
  | refl => exact le_rfl
  | ok hr _ ih => exact ih.trans (Read.patience_read hr)
  | interrupted hr _ _ ih => exact ih.trans (Read.patience_read hr)

/-- A delivery leaves no more than there was. -/
theorem Delivers.size_le [FiniteRead γ π R] {r r' : R} {P : List UInt8} (h : Delivers r P r') :
    FiniteRead.size r' ≤ FiniteRead.size r := by
  induction h with
  | refl => exact le_rfl
  | ok hr _ ih => exact ih.trans (FiniteRead.size_read hr)
  | interrupted hr _ _ ih => exact ih.trans (FiniteRead.size_read hr)

/-- Bytes that were answered are gone from the source. -/
theorem Delivers.size_lt [FiniteRead γ π R] {r r' : R} {P : List UInt8} (h : Delivers r P r')
    (hP : P ≠ []) : FiniteRead.size r' < FiniteRead.size r := by
  induction h with
  | refl => exact absurd rfl hP
  | @ok _ _ _ _ _ bs _ hr hs ih =>
    cases bs with
    | nil => exact (ih hP).trans_le (FiniteRead.size_read hr)
    | cons b bs => exact hs.size_le.trans_lt (FiniteRead.size_read_lt hr)
  | interrupted hr _ _ ih => exact (ih hP).trans_le (FiniteRead.size_read hr)

/-- The call that a loop stopped at found the end. -/
def Ended [Read γ π R] (c : γ) (r r' : R) : Prop := ∃ n, 0 < n ∧ Read.read c n r = (.ok [], r')

/-- The call that a loop stopped at failed, and not for being interrupted. -/
def Failed [Read γ π R] (c : γ) (r : R) (e : IoError π) (r' : R) : Prop :=
  ∃ n, Read.read c n r = (.error e, r') ∧ e.isInterrupted = false

/-- **What `retry` did.**  It made one call that was not interrupted. -/
theorem retry_trace [Read γ π R] {c : γ} {n : Nat} {r r' : R}
    {res : Except (IoError π) (List UInt8)} (h : retry c n r = (res, r')) :
    ∃ r₁, Delivers r [] r₁ ∧ Read.read c n r₁ = (res, r') ∧
      ∀ e, res = .error e → e.isInterrupted = false := by
  fun_induction retry c n r with
  | case1 r bs r₁ hr =>
    cases h
    exact ⟨r, .refl r, hr, by simp⟩
  | case2 r e r₁ hr hi ih =>
    obtain ⟨r₂, hd, hr₂, hn⟩ := ih h
    exact ⟨r₂, .interrupted hr hi hd, hr₂, hn⟩
  | case3 r e r₁ hr hn =>
    cases h
    exact ⟨r, .refl r, hr, fun e' he => by cases he; simpa using hn⟩

/-- **What `readFull` read.**  All that was wanted, or what there was until the end. -/
theorem readFull_trace [Read γ π R] {c : γ} {want : Nat} {acc out : List UInt8} {r r' : R}
    (h : readFull c want acc r = (.ok out, r')) :
    ∃ got r₁, out = acc ++ got ∧ Delivers r got r₁ ∧
      (got.length = want ∧ r₁ = r' ∨ got.length < want ∧ Ended c r₁ r') := by
  fun_induction readFull c want acc r with
  | case1 acc r =>
    cases h
    exact ⟨[], _, by simp, .refl _, .inl ⟨rfl, rfl⟩⟩
  | case2 want acc r hw r₁ hr =>
    cases h
    have hpos := Nat.pos_of_ne_zero hw
    exact ⟨[], r, by simp, .refl r, .inr ⟨hpos, want, hpos, hr⟩⟩
  | case3 want acc r hw b bs r₁ hr ih =>
    obtain ⟨got, r₂, hout, hd, hstop⟩ := ih h
    have hlen := Read.length_read hr
    refine ⟨b :: bs ++ got, r₂, by rw [hout, List.append_assoc], .ok hr hd, ?_⟩
    rw [List.length_append]
    rcases hstop with ⟨hl, rfl⟩ | ⟨hl, hs⟩
    · exact .inl ⟨by omega, rfl⟩
    · exact .inr ⟨by omega, hs⟩
  | case4 want acc r hw e r₁ hr hi ih =>
    obtain ⟨got, r₂, hout, hd, hstop⟩ := ih h
    exact ⟨got, r₂, hout, .interrupted hr hi hd, hstop⟩
  | case5 => simp at h

/-- **What `copyTake` copied.**  All that was allowed, or what there was until the end. -/
theorem copyTake_trace [Read γ π R] {c : γ} {chunk : ℕ+} {limit : Nat} {copied out : List UInt8}
    {r r' : R} (h : copyTake c chunk limit copied r = (.ok (), out, r')) :
    ∃ got r₁, out = copied ++ got ∧ Delivers r got r₁ ∧
      (got.length = limit ∧ r₁ = r' ∨ got.length < limit ∧ Ended c r₁ r') := by
  fun_induction copyTake c chunk limit copied r with
  | case1 copied r =>
    -- as many bytes are copied as were to be
    cases h
    exact ⟨[], _, by simp, .refl _, .inl ⟨rfl, rfl⟩⟩
  | case2 limit copied r hw r₁ hr =>
    -- the source is at its end
    cases h
    have hpos := Nat.pos_of_ne_zero hw
    exact ⟨[], r, by simp, .refl r, .inr ⟨hpos, _, lt_min chunk.pos hpos, hr⟩⟩
  | case3 limit copied r hw b bs r₁ hr ih =>
    -- some bytes come, and the copy goes on
    obtain ⟨got, r₂, hn, hd, hstop⟩ := ih h
    have hlen := (Read.length_read hr).trans (min_le_right _ _)
    refine ⟨b :: bs ++ got, r₂, by rw [hn, List.append_assoc], .ok hr hd, ?_⟩
    rw [List.length_append]
    rcases hstop with ⟨hl, rfl⟩ | ⟨hl, hs⟩
    · exact .inl ⟨by omega, rfl⟩
    · exact .inr ⟨by omega, hs⟩
  | case4 limit copied r hw e r₁ hr hi ih =>
    -- an interrupted read is made again
    obtain ⟨got, r₂, hn, hd, hstop⟩ := ih h
    exact ⟨got, r₂, hn, .interrupted hr hi hd, hstop⟩
  | case5 => simp at h

/-- A `copyTake` that fails stops at a call that failed. -/
theorem copyTake_failed [Read γ π R] {c : γ} {chunk : ℕ+} {limit : Nat} {copied out : List UInt8}
    {r r' : R} {e : IoError π} (h : copyTake c chunk limit copied r = (.error e, out, r')) :
    ∃ got r₁, Delivers r got r₁ ∧ Failed c r₁ e r' := by
  fun_induction copyTake c chunk limit copied r with
  | case1 => simp at h
  | case2 => simp at h
  | case3 _ _ _ _ _ _ _ hr ih =>
    obtain ⟨got, r₂, hd, hf⟩ := ih h
    exact ⟨_, r₂, .ok hr hd, hf⟩
  | case4 _ _ _ _ _ _ hr hi ih =>
    obtain ⟨got, r₂, hd, hf⟩ := ih h
    exact ⟨_, r₂, .interrupted hr hi hd, hf⟩
  | case5 limit _ r _ e r₁ hr hn =>
    cases h
    exact ⟨[], r, .refl r, _, hr, by simpa using hn⟩

/-- **What `drain` read.**  Everything until the end. -/
theorem drain_trace [FiniteRead γ π R] {c : γ} {room : Nat → ℕ+} {k : Nat}
    {acc out : List UInt8} {r r' : R} (h : drain c room k acc r = (.ok out, r')) :
    ∃ got r₁, out = acc ++ got ∧ Delivers r got r₁ ∧ Ended c r₁ r' := by
  fun_induction drain c room k acc r with
  | case1 k acc r r₁ hr =>
    -- the source is at its end
    cases h
    exact ⟨[], r, by simp, .refl r, _, (room k).pos, hr⟩
  | case2 k acc r b bs r₁ hr ih =>
    -- some bytes come, and more may
    obtain ⟨got, r₂, hout, hd, hend⟩ := ih h
    exact ⟨b :: bs ++ got, r₂, by rw [hout, List.append_assoc], .ok hr hd, hend⟩
  | case3 k acc r e r₁ hr hi ih =>
    -- an interrupted read is made again
    obtain ⟨got, r₂, hout, hd, hend⟩ := ih h
    exact ⟨got, r₂, hout, .interrupted hr hi hd, hend⟩
  | case4 => simp at h

/-- A `readFull` that fails stops at a call that failed. -/
theorem readFull_failed [Read γ π R] {c : γ} {want : Nat} {acc : List UInt8} {r r' : R}
    {e : IoError π} (h : readFull c want acc r = (.error e, r')) :
    ∃ got r₁, Delivers r got r₁ ∧ Failed c r₁ e r' := by
  fun_induction readFull c want acc r with
  | case1 => simp at h
  | case2 => simp at h
  | case3 _ _ _ _ _ _ _ hr ih =>
    obtain ⟨got, r₂, hd, hf⟩ := ih h
    exact ⟨_, r₂, .ok hr hd, hf⟩
  | case4 _ _ _ _ _ _ hr hi ih =>
    obtain ⟨got, r₂, hd, hf⟩ := ih h
    exact ⟨_, r₂, .interrupted hr hi hd, hf⟩
  | case5 want _ r _ e r₁ hr hn =>
    cases h
    exact ⟨[], r, .refl r, want, hr, by simpa using hn⟩

/-! ### Steady sources -/

/-- `S r P` says that `r` will answer exactly the bytes `P`, in cuts of its choosing, and then
    the end, unless it fails in a way that `fatal` allows.  `Steady fatal S` says that it keeps
    its word: the relation survives every call but a fatal one. -/
structure Steady [Read γ π R] (fatal : IoError π → Prop) (S : R → List UInt8 → Prop) : Prop where
  ok : ∀ {c n r r' bs P}, S r P → Read.read c n r = (.ok bs, r') →
    ∃ P', P = bs ++ P' ∧ S r' P'
  finished : ∀ {c n r r' P}, S r P → 0 < n → Read.read c n r = (.ok [], r') → P = []
  error : ∀ {c n r r' e P}, S r P → Read.read c n r = (.error e, r') →
    e.isInterrupted = true ∧ S r' P ∨ e.isInterrupted = false ∧ fatal e

namespace Steady

variable {fatal : IoError π → Prop} {S : R → List UInt8 → Prop}

/-- What may be fatal may be said more loosely. -/
theorem imp [Read γ π R] {fatal' : IoError π → Prop} (hS : Steady fatal S)
    (h : ∀ e, fatal e → fatal' e) : Steady fatal' S where
  ok := hS.ok
  finished := hS.finished
  error hs hr := (hS.error hs hr).imp_right fun ⟨hi, hf⟩ => ⟨hi, h _ hf⟩

/-- An interruption leaves a steady source as it was. -/
theorem interrupted [Read γ π R] (hS : Steady fatal S) {c : γ} {n : Nat} {r r' : R}
    {e : IoError π} {P : List UInt8} (h : S r P) (hr : Read.read c n r = (.error e, r'))
    (hi : e.isInterrupted = true) : S r' P := by
  rcases hS.error h hr with ⟨_, h'⟩ | ⟨hn, _⟩
  · exact h'
  · simp [hi] at hn

/-- A failure that is no interruption is a fatal one. -/
theorem failed [Read γ π R] (hS : Steady fatal S) {c : γ} {n : Nat} {r r' : R}
    {e : IoError π} {P : List UInt8} (h : S r P) (hr : Read.read c n r = (.error e, r'))
    (hn : ¬ e.isInterrupted = true) : fatal e := by
  rcases hS.error h hr with ⟨hi, _⟩ | ⟨_, hf⟩
  · exact absurd hi hn
  · exact hf

/-- The end of a steady source is where it has nothing left to say. -/
theorem ended [Read γ π R] (hS : Steady fatal S) {c : γ} {n : Nat} {r r' : R} {P : List UInt8}
    (h : S r P) (hn : 0 < n) (hr : Read.read c n r = (.ok [], r')) : P = [] ∧ S r' [] := by
  have hP := hS.finished h hn hr
  obtain ⟨P', hP', h'⟩ := hS.ok h hr
  rw [hP] at hP'
  obtain rfl : P' = [] := by simpa using hP'.symm
  exact ⟨hP, h'⟩

/-- What a steady source delivered is the front of what it had to say. -/
theorem delivers [Read γ π R] (hS : Steady fatal S) {r r' : R} {P got : List UInt8} (h : S r P)
    (hd : Delivers r got r') : ∃ P', P = got ++ P' ∧ S r' P' := by
  induction hd generalizing P with
  | refl => exact ⟨P, rfl, h⟩
  | ok hr _ ih =>
    obtain ⟨P₁, rfl, h₁⟩ := hS.ok h hr
    obtain ⟨P', rfl, h'⟩ := ih h₁
    exact ⟨P', by rw [List.append_assoc], h'⟩
  | interrupted hr hi _ ih => exact ih (hS.interrupted h hr hi)

/-- Over a steady source `readFull` answers the next `want` bytes, or all there are. -/
theorem readFull [Read γ π R] (hS : Steady fatal S) (c : γ) (want : Nat) (acc : List UInt8)
    {r : R} {P : List UInt8} (h : S r P) :
    (∃ r', Stream.readFull c want acc r = (.ok (acc ++ P.take want), r') ∧ S r' (P.drop want)) ∨
    ∃ e r', Stream.readFull c want acc r = (.error e, r') ∧ fatal e := by
  fun_induction Stream.readFull c want acc r generalizing P with
  | case1 _ r => exact .inl ⟨r, by simp, by simpa using h⟩
  | case2 want acc r hw r₁ hr =>
    obtain ⟨rfl, h'⟩ := hS.ended h (Nat.pos_of_ne_zero hw) hr
    exact .inl ⟨r₁, by simp, by simpa using h'⟩
  | case3 want acc r hw b bs r₁ hr ih =>
    obtain ⟨P', rfl, h'⟩ := hS.ok h hr
    have hlen := Read.length_read hr
    rw [List.take_append, List.take_of_length_le hlen, List.drop_append,
      List.drop_of_length_le hlen, List.nil_append, ← List.append_assoc]
    exact ih h'
  | case4 _ _ _ _ _ _ hr hi ih => exact ih (hS.interrupted h hr hi)
  | case5 _ _ _ _ e r₁ hr hn => exact .inr ⟨e, r₁, rfl, hS.failed h hr hn⟩

/-- Over a steady source `copyTake` copies the next `limit` bytes, or all there are. -/
theorem copyTake [Read γ π R] (hS : Steady fatal S) (c : γ) (chunk : ℕ+) (limit : Nat)
    (copied : List UInt8) {r : R} {P : List UInt8} (h : S r P) :
    (∃ r', Stream.copyTake c chunk limit copied r = (.ok (), copied ++ P.take limit, r') ∧
      S r' (P.drop limit)) ∨
    ∃ e out r', Stream.copyTake c chunk limit copied r = (.error e, out, r') ∧ fatal e := by
  fun_induction Stream.copyTake c chunk limit copied r generalizing P with
  | case1 _ r => exact .inl ⟨r, by simp, by simpa using h⟩
  | case2 limit copied r hw r₁ hr =>
    obtain ⟨rfl, h'⟩ := hS.ended h (lt_min chunk.pos (Nat.pos_of_ne_zero hw)) hr
    exact .inl ⟨r₁, by simp, by simpa using h'⟩
  | case3 limit copied r hw b bs r₁ hr ih =>
    obtain ⟨P', rfl, h'⟩ := hS.ok h hr
    have hlen := (Read.length_read hr).trans (min_le_right _ _)
    rw [List.take_append, List.take_of_length_le hlen, List.drop_append,
      List.drop_of_length_le hlen, List.nil_append, ← List.append_assoc]
    exact ih h'
  | case4 _ _ _ _ _ _ hr hi ih => exact ih (hS.interrupted h hr hi)
  | case5 _ _ _ _ e r₁ hr hn => exact .inr ⟨e, _, r₁, rfl, hS.failed h hr hn⟩

/-- A steady source can be read to its end, whatever room each call is given. -/
theorem drains [Read γ π R] (hS : Steady fatal S) (c : γ) (room : Nat → ℕ+) (k : Nat) {r : R}
    {P : List UInt8} (h : S r P) :
    (∃ r', Drains c room k r P r' ∧ S r' []) ∨ ∃ e, e.isInterrupted = false ∧ fatal e := by
  induction hm : P.length + Read.patience r using Nat.strong_induction_on generalizing k r P with
  | _ m ih =>
    rcases hr : Read.read c (room k) r with ⟨res, r₁⟩
    have hpat := Read.patience_read hr
    cases res with
    | error e =>
      rcases hS.error h hr with ⟨hi, h'⟩ | hf
      · have hlt := Read.patience_interrupted hr hi
        exact (ih _ (by omega) (k + 1) h' rfl).imp_left fun ⟨r', hd, hend⟩ =>
          ⟨r', .interrupted hr hi hd, hend⟩
      · exact .inr ⟨e, hf⟩
    | ok bs =>
      cases bs with
      | nil =>
        obtain ⟨rfl, h'⟩ := hS.ended h (room k).pos hr
        exact .inl ⟨r₁, .finished hr, h'⟩
      | cons b bs =>
        obtain ⟨P', rfl, h'⟩ := hS.ok h hr
        have hlen : P'.length + Read.patience r₁ < m := by
          rw [List.length_append, List.length_cons] at hm
          omega
        exact (ih _ hlen (k + 1) h' rfl).imp_left fun ⟨r', hd, hend⟩ =>
          ⟨r', .more hr hd, hend⟩

/-- Over a steady source `drain` answers every byte, whatever room each call is given. -/
theorem drain [FiniteRead γ π R] (hS : Steady fatal S) (c : γ) (room : Nat → ℕ+) (k : Nat)
    (acc : List UInt8) {r : R} {P : List UInt8} (h : S r P) :
    (∃ r', Stream.drain c room k acc r = (.ok (acc ++ P), r') ∧ S r' []) ∨
    ∃ e r', Stream.drain c room k acc r = (.error e, r') ∧ fatal e := by
  fun_induction Stream.drain c room k acc r generalizing P with
  | case1 k acc r r₁ hr =>
    obtain ⟨rfl, h'⟩ := hS.ended h (room k).pos hr
    exact .inl ⟨r₁, by simp, h'⟩
  | case2 k acc r b bs r₁ hr ih =>
    obtain ⟨P', rfl, h'⟩ := hS.ok h hr
    rw [← List.append_assoc]
    exact ih h'
  | case3 _ _ _ _ _ hr hi ih => exact ih (hS.interrupted h hr hi)
  | case4 _ _ _ e r₁ hr hn => exact .inr ⟨e, r₁, rfl, hS.failed h hr hn⟩

end Steady

end Omdrop.Stream
