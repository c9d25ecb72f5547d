import Omdrop.Stream.Decoder
import Omdrop.Proto.Error
import Omdrop.Proto.Repr

namespace Omdrop.Proto

open Omdrop.Stream Omdrop.Text

/-!
# DVZip

A DVZip body is a sequence of blocks, each a four-byte header and a payload that is stored or
compressed; a body that starts with the gzip magic is one gzip member instead.  `DvzipDecoder`
streams the bytes out of either, and keeps in the extraction's progress whether the body may
end where it stands.

The compressors themselves are not part of this development: `Flate2` is what it uses of them.
-/

/-- The size of a full block. -/
def dvzipBlockBytes : Nat := 65536

/-- The bit of a block header that says that the payload is stored. -/
def dvzipStored : Nat := 0x80000000

/-- The first bytes of a gzip member. -/
def gzipMagic : List UInt8 := [0x1f, 0x8b]

/-- The compressors: the two decoders, and the encoder at the level that is used. -/
structure Flate2 where
  zlib : StreamDecoder
  gunzip : StreamDecoder
  deflate : List UInt8 → List UInt8

/-- The decoders are right about zlib streams and gzip members, and the encoder makes zlib
    streams. -/
structure Flate2.Correct (F : Flate2) (Zlib Gzip : List UInt8 → List UInt8 → Prop) : Prop where
  zlib : F.zlib.Correct Zlib
  gunzip : F.gunzip.Correct Gzip
  deflate : ∀ data, Zlib (F.deflate data) data

/-! ### The source -/

/-- How far an extraction got. -/
structure ExtractProgress where
  decoded : Nat
  trailerSeen : Bool
  cleanEnd : Bool

/-- Nothing yet. -/
def ExtractProgress.new : ExtractProgress := ⟨0, false, false⟩

/-- Could the body end here with nothing lost? -/
def ExtractProgress.whole (p : ExtractProgress) : Bool := p.trailerSeen && p.cleanEnd

/-- The body, remembering whether it failed, with the extraction's progress.  Every byte it
    delivers clears `cleanEnd`; the body is asked with what the progress says at the time. -/
structure Source (R : Type) where
  inner : R
  failed : Bool
  progress : ExtractProgress

namespace Source

variable {R : Type} [FiniteRead Bool Payload R]

/-- One call. -/
def read (n : Nat) (s : Source R) : Except IoErr (List UInt8) × Source R :=
  match Read.read s.progress.whole n s.inner with
  | (.ok [], inner)        => (.ok [], { s with inner })
  | (.ok (b :: bs), inner) =>
    (.ok (b :: bs), { s with inner, progress := { s.progress with cleanEnd := false } })
  | (.error e, inner)      => (.error e, { s with inner, failed := s.failed || !e.isInterrupted })

/-- **What one call can do.** -/
theorem read_cases {n : Nat} {s s' : Source R} {res : Except IoErr (List UInt8)}
    (h : s.read n = (res, s')) :
    Read.read s.progress.whole n s.inner = (res, s'.inner) ∧
      s'.progress.trailerSeen = s.progress.trailerSeen ∧
      s'.progress.decoded = s.progress.decoded ∧
      ((∃ b bs, res = .ok (b :: bs)) ∧ s'.progress.cleanEnd = false ∨
        (res = .ok [] ∨ ∃ e, res = .error e) ∧ s'.progress.cleanEnd = s.progress.cleanEnd) := by
  unfold read at h
  split at h
  · rename_i hr
    cases h
    exact ⟨hr, rfl, rfl, .inr ⟨.inl rfl, rfl⟩⟩
  · rename_i b bs inner hr
    cases h
    exact ⟨hr, rfl, rfl, .inl ⟨⟨b, bs, rfl⟩, rfl⟩⟩
  · rename_i e inner hr
    cases h
    exact ⟨hr, rfl, rfl, .inr ⟨.inr ⟨e, rfl⟩, rfl⟩⟩

instance : FiniteRead Unit Payload (Source R) where
  read _ := read
  patience s := Read.patience s.inner
  size s := FiniteRead.size s.inner
  length_read h := Read.length_read (read_cases h).1
  patience_read h := Read.patience_read (read_cases h).1
  patience_interrupted h := Read.patience_interrupted (read_cases h).1
  size_read h := FiniteRead.size_read (read_cases h).1
  size_read_lt h := FiniteRead.size_read_lt (read_cases h).1

/-- A source is as steady as its body. -/
theorem steady {fatal : IoErr → Prop} {S : R → List UInt8 → Prop} (hS : Steady fatal S) :
    Steady fatal (fun (s : Source R) P => S s.inner P) where
  ok h hr := hS.ok h (read_cases hr).1
  finished h hn hr := hS.finished h hn (read_cases hr).1
  error h hr := hS.error h (read_cases hr).1

end Source

/-- The body behind a buffer, with the two bytes that were sniffed in front. -/
abbrev Sniffed (R : Type) := BufReader (Chain (Source R))

namespace Sniffed

variable {R : Type}

/-- The body's source. -/
def source (r : Sniffed R) : Source R := r.inner.second

/-- Change the source's progress. -/
def mapProgress (f : ExtractProgress → ExtractProgress) (r : Sniffed R) : Sniffed R :=
  { r with inner := { r.inner with second :=
    { r.inner.second with progress := f r.inner.second.progress } } }

/-- Say whether the body may end here. -/
def setCleanEnd (clean : Bool) : Sniffed R → Sniffed R :=
  mapProgress fun p => { p with cleanEnd := clean }

/-- The bytes `P` are still to come: some buffered, some sniffed, the rest from the body. -/
def Coming (S : R → List UInt8 → Prop) : Sniffed R → List UInt8 → Prop :=
  BufReader.Ahead fun (c : Chain (Source R)) P => ∃ Q, P = c.first.rest ++ Q ∧ S c.second.inner Q

/-- What comes after some bytes is as steady as the source. -/
theorem steady [FiniteRead Bool Payload R] {fatal : IoErr → Prop} {S : R → List UInt8 → Prop}
    (hS : Steady fatal S) : Steady fatal (Coming S) :=
  BufReader.steady (Chain.steady (Source.steady hS))

@[simp] theorem coming_mapProgress {S : R → List UInt8 → Prop}
    (f : ExtractProgress → ExtractProgress) (r : Sniffed R) (P : List UInt8) :
    Coming S (r.mapProgress f) P ↔ Coming S r P := Iff.rfl

@[simp] theorem buffer_mapProgress (f : ExtractProgress → ExtractProgress) (r : Sniffed R) :
    (r.mapProgress f).buffer = r.buffer := rfl

end Sniffed

/-! ### Blocks -/

/-- Where the decoder of a sequence of blocks stands. -/
inductive Block (σ : Type)
  | header
  | stored (left : Nat)
  | compressed (left : Nat) (zlib : σ)
  | done

/-- The value of a block header, big-endian. -/
def headerValue (bs : List UInt8) : Nat := bs.foldl (fun v b => v * 256 + b.toNat) 0

section Blocks

variable {R : Type} [FiniteRead Bool Payload R] (F : Flate2)

/-- A turn of a compressed block with `left` bytes to come, of which `shown` are there. -/
def zlibStep (n left : Nat) (zlib : F.zlib.State) (shown : List UInt8) (inner : Sniffed R) :
    Except IoErr (Option (List UInt8)) × Sniffed R × Block F.zlib.State :=
  match F.zlib.feed zlib (shown.take left) n with
  | .error e =>
    (.error (invalid ("invalid compressed block: ".toList ++ e.toList)), inner,
      .compressed left zlib)
  | .ok fed  =>
    let inner := inner.consume fed.consumed
    let left := left - fed.consumed
    if fed.ended then
      if 0 < left then
        (.error (invalid "compressed block has trailing data"), inner, .compressed left fed.state)
      else (.ok (if fed.produced = [] then none else some fed.produced), inner, .header)
    else if fed.produced = [] ∧ fed.consumed = 0 then
      (.error (invalid "truncated compressed block"), inner, .compressed left fed.state)
    else (.ok (if fed.produced = [] then none else some fed.produced), inner,
      .compressed left fed.state)

/-- One turn of the decoder: it answers what the call came to, or `none` to go on. -/
def blockStep (n : Nat) (inner : Sniffed R) (block : Block F.zlib.State) :
    Except IoErr (Option (List UInt8)) × Sniffed R × Block F.zlib.State :=
  match block with
  | .done   => (.ok (some []), inner, .done)
  | .header =>
    -- between blocks the body may end, unless part of the next header is buffered
    match readFull () 4 [] (inner.setCleanEnd inner.buffer.isEmpty) with
    | (.error e, inner)   => (.error e, inner, .header)
    | (.ok header, inner) =>
      if header = [] then (.ok (some []), inner, .done)
      else if header.length ≠ 4 then
        (.error (invalid ("truncated DVZip block header: ".toList ++ decimal header.length ++
          " bytes".toList)), inner, .header)
      else
        let value := headerValue header
        if dvzipStored ≤ value then (.ok none, inner, .stored (value - dvzipStored))
        else (.ok none, inner, .compressed value F.zlib.init)
  | .stored left =>
    if left = 0 then (.ok none, inner, .header)
    else match Read.read () (min n left) inner with
      | (.error e, inner)        => (.error e, inner, .stored left)
      | (.ok [], inner)          =>
        (.error (invalid ("truncated stored block: ".toList ++ decimal left ++
          " bytes missing".toList)), inner, .stored left)
      | (.ok (b :: bs), inner)   =>
        (.ok (some (b :: bs)), inner, .stored (left - (b :: bs).length))
  | .compressed left zlib =>
    if left = 0 then zlibStep F n left zlib [] inner
    else match inner.fillBuf () with
      | (.error e, inner)  => (.error e, inner, .compressed left zlib)
      | (.ok [], inner)    =>
        (.error (invalid ("truncated compressed block: ".toList ++ decimal left ++
          " bytes missing".toList)), inner, .compressed left zlib)
      | (.ok shown, inner) => zlibStep F n left zlib shown inner

/-- The input that a compressed block with `left` bytes to come is shown. -/
inductive Shown (left : Nat) (inner : Sniffed R) : List UInt8 → Sniffed R → Prop
  | exhausted (h : left = 0) : Shown left inner [] inner
  | buffered {shown inner₁} (h : left ≠ 0) (hf : inner.fillBuf () = (.ok shown, inner₁))
      (hne : shown ≠ []) : Shown left inner shown inner₁

/-- **What a turn can do**, branch by branch. -/
inductive Turn (n : Nat) (inner : Sniffed R) : Block F.zlib.State →
    Except IoErr (Option (List UInt8)) → Sniffed R → Block F.zlib.State → Prop
  | done : Turn n inner .done (.ok (some [])) inner .done
  | headerFailed {e inner'}
      (hr : readFull () 4 [] (inner.setCleanEnd inner.buffer.isEmpty) = (.error e, inner')) :
      Turn n inner .header (.error e) inner' .header
  | bodyEnd {inner'}
      (hr : readFull () 4 [] (inner.setCleanEnd inner.buffer.isEmpty) = (.ok [], inner')) :
      Turn n inner .header (.ok (some [])) inner' .done
  | headerShort {header inner' m}
      (hr : readFull () 4 [] (inner.setCleanEnd inner.buffer.isEmpty) = (.ok header, inner'))
      (hne : header ≠ []) (hlen : header.length ≠ 4) :
      Turn n inner .header (.error (invalid m)) inner' .header
  | stored {header inner' left}
      (hr : readFull () 4 [] (inner.setCleanEnd inner.buffer.isEmpty) = (.ok header, inner'))
      (hlen : header.length = 4) (hvalue : headerValue header = dvzipStored + left) :
      Turn n inner .header (.ok none) inner' (.stored left)
  | compressed {header inner'}
      (hr : readFull () 4 [] (inner.setCleanEnd inner.buffer.isEmpty) = (.ok header, inner'))
      (hlen : header.length = 4) (hvalue : headerValue header < dvzipStored) :
      Turn n inner .header (.ok none) inner' (.compressed (headerValue header) F.zlib.init)
  | storedEnd : Turn n inner (.stored 0) (.ok none) inner .header
  | storedFailed {left e inner'} (hleft : left ≠ 0)
      (hr : Read.read () (min n left) inner = (.error e, inner')) :
      Turn n inner (.stored left) (.error e) inner' (.stored left)
  | storedShort {left inner' m} (hleft : left ≠ 0)
      (hr : Read.read () (min n left) inner = (.ok [], inner')) :
      Turn n inner (.stored left) (.error (invalid m)) inner' (.stored left)
  | storedData {left bs inner'} (hleft : left ≠ 0) (hne : bs ≠ [])
      (hr : Read.read () (min n left) inner = (.ok bs, inner')) :
      Turn n inner (.stored left) (.ok (some bs)) inner' (.stored (left - bs.length))
  | zlibFailed {left zlib e inner'} (hleft : left ≠ 0)
      (hf : inner.fillBuf () = (.error e, inner')) :
      Turn n inner (.compressed left zlib) (.error e) inner' (.compressed left zlib)
  | zlibShort {left zlib inner' m} (hleft : left ≠ 0) (hf : inner.fillBuf () = (.ok [], inner')) :
      Turn n inner (.compressed left zlib) (.error (invalid m)) inner' (.compressed left zlib)
  | zlibBad {left zlib shown inner' m e} (hshown : Shown left inner shown inner')
      (hfeed : F.zlib.feed zlib (shown.take left) n = .error e) :
      Turn n inner (.compressed left zlib) (.error (invalid m)) inner' (.compressed left zlib)
  | zlibTrailing {left zlib shown inner' fed m} (hshown : Shown left inner shown inner')
      (hfeed : F.zlib.feed zlib (shown.take left) n = .ok fed) (hend : fed.ended = true)
      (hleft : fed.consumed < left) :
      Turn n inner (.compressed left zlib) (.error (invalid m)) (inner'.consume fed.consumed)
        (.compressed (left - fed.consumed) fed.state)
  | zlibEnded {left zlib shown inner' fed} (hshown : Shown left inner shown inner')
      (hfeed : F.zlib.feed zlib (shown.take left) n = .ok fed) (hend : fed.ended = true)
      (hleft : left ≤ fed.consumed) :
      Turn n inner (.compressed left zlib)
        (.ok (if fed.produced = [] then none else some fed.produced)) (inner'.consume fed.consumed)
        .header
  | zlibStuck {left zlib shown inner' fed m} (hshown : Shown left inner shown inner')
      (hfeed : F.zlib.feed zlib (shown.take left) n = .ok fed) (hend : fed.ended = false)
      (hstuck : fed.produced = [] ∧ fed.consumed = 0) :
      Turn n inner (.compressed left zlib) (.error (invalid m)) (inner'.consume fed.consumed)
        (.compressed (left - fed.consumed) fed.state)
  | zlibGoing {left zlib shown inner' fed} (hshown : Shown left inner shown inner')
      (hfeed : F.zlib.feed zlib (shown.take left) n = .ok fed) (hend : fed.ended = false)
      (hgoing : ¬ (fed.produced = [] ∧ fed.consumed = 0)) :
      Turn n inner (.compressed left zlib)
        (.ok (if fed.produced = [] then none else some fed.produced)) (inner'.consume fed.consumed)
        (.compressed (left - fed.consumed) fed.state)

variable {F}

/-- A step of zlib is a turn of the reader. -/
theorem turn_zlibStep {n left : Nat} {inner inner₁ inner' : Sniffed R} {zlib : F.zlib.State}
    {shown : List UInt8} {res : Except IoErr (Option (List UInt8))} {block' : Block F.zlib.State}
    (hshown : Shown left inner shown inner₁)
    (h : zlibStep F n left zlib shown inner₁ = (res, inner', block')) :
    Turn F n inner (.compressed left zlib) res inner' block' := by
  simp only [zlibStep] at h
  split at h
  · rename_i hfeed
    cases h
    exact .zlibBad hshown hfeed
  · rename_i fed hfeed
    split at h
    · rename_i hend
      split at h
      · cases h
        exact .zlibTrailing hshown hfeed hend (by omega)
      · cases h
        exact .zlibEnded hshown hfeed hend (by omega)
    · rename_i hend
      rw [Bool.not_eq_true] at hend
      split at h
      · rename_i hstuck
        cases h
        exact .zlibStuck hshown hfeed hend hstuck
      · rename_i hgoing
        cases h
        exact .zlibGoing hshown hfeed hend hgoing

/-- Every turn is one of these. -/
theorem turn_blockStep {n : Nat} {inner inner' : Sniffed R} {block block' : Block F.zlib.State}
    {res : Except IoErr (Option (List UInt8))}
    (h : blockStep F n inner block = (res, inner', block')) :
    Turn F n inner block res inner' block' := by
  cases block with
  | done =>
    cases h
    exact .done
  -- the four bytes of the length, of which none or too few may come
  | header =>
    simp only [blockStep] at h
    split at h
    · rename_i hr
      cases h
      exact .headerFailed hr
    · rename_i header inner₁ hr
      split at h
      · rename_i hnil
        cases h
        exact .bodyEnd (hnil ▸ hr)
      · rename_i hne
        split at h
        · rename_i hlen
          cases h
          exact .headerShort hr hne hlen
        · rename_i hlen
          rw [not_not] at hlen
          split at h
          · rename_i hvalue
            cases h
            exact .stored hr hlen (by omega)
          · rename_i hvalue
            cases h
            exact .compressed hr hlen (not_le.mp hvalue)
  -- the rest of a block that is stored as it is
  | stored left =>
    simp only [blockStep] at h
    split at h
    · rename_i hleft
      cases h
      subst hleft
      exact .storedEnd
    · rename_i hleft
      split at h
      · rename_i hr
        cases h
        exact .storedFailed hleft hr
      · rename_i hr
        cases h
        exact .storedShort hleft hr
      · rename_i hr
        cases h
        exact .storedData hleft (by simp) hr
  -- the rest of a compressed block, whose bytes zlib may take before the block ends
  | compressed left zlib =>
    simp only [blockStep] at h
    split at h
    · rename_i hleft
      exact turn_zlibStep (.exhausted hleft) h
    · rename_i hleft
      split at h
      · rename_i hf
        cases h
        exact .zlibFailed hleft hf
      · rename_i hf
        cases h
        exact .zlibShort hleft hf
      · rename_i hne hf
        exact turn_zlibStep (.buffered hleft hf hne) h

/-! ### What a turn leaves -/

@[simp] theorem size_setCleanEnd (clean : Bool) (r : Sniffed R) :
    FiniteRead.size (r.setCleanEnd clean) = FiniteRead.size r := rfl

@[simp] theorem patience_setCleanEnd (clean : Bool) (r : Sniffed R) :
    Read.patience (r.setCleanEnd clean) = Read.patience r := rfl

/-- Consuming what was shown leaves that much less. -/
theorem Shown.size_consume {left k : Nat} {inner inner₁ : Sniffed R} {shown : List UInt8}
    (h : Shown left inner shown inner₁) (hk : k ≤ shown.length) :
    FiniteRead.size (inner₁.consume k) ≤ FiniteRead.size inner ∧
      (0 < k → FiniteRead.size (inner₁.consume k) < FiniteRead.size inner) := by
  cases h with
  | exhausted h =>
    rw [List.length_nil] at hk
    exact ⟨Nat.le.intro (BufReader.size_consume _ _), by omega⟩
  | buffered _ hf _ =>
    exact ⟨(Nat.le.intro (BufReader.size_consume _ _)).trans (BufReader.size_fillBuf hf),
      fun hpos => BufReader.size_fillBuf_consume hf hpos hk⟩

/-- Showing bytes makes no reader more patient. -/
theorem Shown.patience_le {left : Nat} {inner inner₁ : Sniffed R} {shown : List UInt8}
    (h : Shown left inner shown inner₁) : Read.patience inner₁ ≤ Read.patience inner := by
  cases h with
  | exhausted _ => exact le_rfl
  | buffered _ hf _ => exact BufReader.patience_fillBuf hf

/-- A decoder takes no more than it was shown. -/
theorem consumed_le_shown {zlib : F.zlib.State} {shown : List UInt8} {left n : Nat}
    {fed : Fed F.zlib.State} (h : F.zlib.feed zlib (shown.take left) n = .ok fed) :
    fed.consumed ≤ shown.length :=
  (F.zlib.consumed_le h).trans (List.length_take_le' _ _)

/-- What is left of a body for the turns that answer nothing. -/
def blockMeasure {σ : Type} (inner : Sniffed R) : Block σ → Nat
  | .stored _       => 2 * FiniteRead.size inner + 1
  | .compressed _ _ => 2 * FiniteRead.size inner + 1
  | _               => 2 * FiniteRead.size inner

variable {n : Nat} {inner inner' : Sniffed R} {block block' : Block F.zlib.State}

/-- A turn leaves no more than there was. -/
theorem Turn.size_le {res : Except IoErr (Option (List UInt8))}
    (h : Turn F n inner block res inner' block') :
    FiniteRead.size inner' ≤ FiniteRead.size inner := by
  have hfull : ∀ {res}, readFull () 4 [] (inner.setCleanEnd inner.buffer.isEmpty) =
      (res, inner') → FiniteRead.size inner' ≤ FiniteRead.size inner := by
    intro res hr
    have hs := size_readFull () 4 [] (inner.setCleanEnd inner.buffer.isEmpty)
    rw [hr] at hs
    exact hs
  cases h with
  | done => exact le_rfl
  | headerFailed hr => exact hfull hr
  | bodyEnd hr => exact hfull hr
  | headerShort hr _ _ => exact hfull hr
  | stored hr _ _ => exact hfull hr
  | compressed hr _ _ => exact hfull hr
  | storedEnd => exact le_rfl
  | storedFailed _ hr => exact FiniteRead.size_read hr
  | storedShort _ hr => exact FiniteRead.size_read hr
  | storedData _ _ hr => exact FiniteRead.size_read hr
  | zlibFailed _ hf => exact BufReader.size_fillBuf hf
  | zlibShort _ hf => exact BufReader.size_fillBuf hf
  | zlibBad hshown _ => exact (hshown.size_consume (Nat.zero_le _)).1
  | zlibTrailing hshown hfeed _ _ => exact (hshown.size_consume (consumed_le_shown hfeed)).1
  | zlibEnded hshown hfeed _ _ => exact (hshown.size_consume (consumed_le_shown hfeed)).1
  | zlibStuck hshown hfeed _ _ => exact (hshown.size_consume (consumed_le_shown hfeed)).1
  | zlibGoing hshown hfeed _ _ => exact (hshown.size_consume (consumed_le_shown hfeed)).1

/-- A turn makes no reader more patient. -/
theorem Turn.patience_le {res : Except IoErr (Option (List UInt8))}
    (h : Turn F n inner block res inner' block') :
    Read.patience inner' ≤ Read.patience inner := by
  have hfull : ∀ {res}, readFull () 4 [] (inner.setCleanEnd inner.buffer.isEmpty) =
      (res, inner') → Read.patience inner' ≤ Read.patience inner := by
    intro res hr
    have hp := patience_readFull () 4 [] (inner.setCleanEnd inner.buffer.isEmpty)
    rw [hr] at hp
    exact hp
  cases h with
  | done => exact le_rfl
  | headerFailed hr => exact hfull hr
  | bodyEnd hr => exact hfull hr
  | headerShort hr _ _ => exact hfull hr
  | stored hr _ _ => exact hfull hr
  | compressed hr _ _ => exact hfull hr
  | storedEnd => exact le_rfl
  | storedFailed _ hr => exact Read.patience_read hr
  | storedShort _ hr => exact Read.patience_read hr
  | storedData _ _ hr => exact Read.patience_read hr
  | zlibFailed _ hf => exact BufReader.patience_fillBuf hf
  | zlibShort _ hf => exact BufReader.patience_fillBuf hf
  | zlibBad hshown _ => exact hshown.patience_le
  | zlibTrailing hshown _ _ _ => exact (hshown.patience_le :)
  | zlibEnded hshown _ _ _ => exact (hshown.patience_le :)
  | zlibStuck hshown _ _ _ => exact (hshown.patience_le :)
  | zlibGoing hshown _ _ _ => exact (hshown.patience_le :)

/-- A turn that goes on has made progress. -/
theorem Turn.measure_lt (h : Turn F n inner block (.ok none) inner' block') :
    blockMeasure inner' block' < blockMeasure inner block := by
  have hsize := h.size_le
  -- a header that was read has left less of the stream
  have hfull : ∀ {header}, readFull () 4 [] (inner.setCleanEnd inner.buffer.isEmpty) =
      (.ok header, inner') → header.length = 4 →
      FiniteRead.size inner' < FiniteRead.size inner := by
    intro header hr hlen
    have hs := size_readFull_lt hr (by rw [hlen]; decide)
    exact hs
  generalize hres : Except.ok none = res at h
  cases h with
  | done => simp at hres
  | headerFailed hr => simp at hres
  | bodyEnd hr => simp at hres
  | headerShort hr _ _ => simp at hres
  | stored hr hlen _ =>
    have := hfull hr hlen
    simp only [blockMeasure]
    omega
  | compressed hr hlen _ =>
    have := hfull hr hlen
    simp only [blockMeasure]
    omega
  | storedEnd =>
    simp only [blockMeasure]
    omega
  | storedFailed _ hr => simp at hres
  | storedShort _ hr => simp at hres
  | storedData _ _ hr => simp at hres
  | zlibFailed _ hf => simp at hres
  | zlibShort _ hf => simp at hres
  | zlibBad hshown _ => simp at hres
  | zlibTrailing hshown hfeed _ _ => simp at hres
  | zlibEnded hshown hfeed _ _ =>
    simp only [blockMeasure]
    omega
  | zlibStuck hshown hfeed _ _ => simp at hres
  | @zlibGoing left zlib shown inner₁ fed hshown hfeed _ hgoing =>
    -- nothing was given, so something was taken
    have hproduced : fed.produced = [] := by
      by_contra hne
      rw [if_neg hne] at hres
      simp at hres
    have hpos : 0 < fed.consumed := Nat.pos_of_ne_zero fun h0 => hgoing ⟨hproduced, h0⟩
    have := (hshown.size_consume (consumed_le_shown hfeed)).2 hpos
    simp only [blockMeasure]
    omega

/-- A turn answers at most what there is room for. -/
theorem Turn.length_le {bs : List UInt8}
    (h : Turn F n inner block (.ok (some bs)) inner' block') : bs.length ≤ n := by
  generalize hres : Except.ok (some bs) = res at h
  have hfed : ∀ {left zlib shown} {fed : Fed F.zlib.State},
      F.zlib.feed zlib (List.take left shown) n = .ok fed →
      (Except.ok (some bs) : Except IoErr _) =
        .ok (if fed.produced = [] then none else some fed.produced) → bs.length ≤ n := by
    intro left zlib shown fed hfeed hres
    split at hres
    · simp at hres
    · simp only [Except.ok.injEq, Option.some.injEq] at hres
      rw [hres]
      exact F.zlib.length_produced hfeed
  cases h with
  | done => simp only [Except.ok.injEq, Option.some.injEq] at hres; simp [hres]
  | bodyEnd => simp only [Except.ok.injEq, Option.some.injEq] at hres; simp [hres]
  | storedData _ _ hr =>
    simp only [Except.ok.injEq, Option.some.injEq] at hres
    rw [hres]
    exact (Read.length_read hr).trans (min_le_left _ _)
  | zlibEnded _ hfeed _ _ => exact hfed hfeed hres
  | zlibGoing _ hfeed _ _ => exact hfed hfeed hres
  | _ => simp at hres

/-- A turn that is interrupted has used up patience. -/
theorem Turn.interrupted {e : IoErr} (h : Turn F n inner block (.error e) inner' block')
    (hi : e.isInterrupted = true) : Read.patience inner' < Read.patience inner := by
  generalize hres : Except.error e = res at h
  cases h with
  | headerFailed hr =>
    cases hres
    obtain ⟨_, _, _, _, _, hn⟩ := readFull_failed hr
    simp [hi] at hn
  | storedFailed _ hr =>
    cases hres
    exact Read.patience_interrupted hr hi
  | zlibFailed _ hf =>
    cases hres
    exact BufReader.patience_fillBuf_interrupted hf hi
  | headerShort => cases hres; simp at hi
  | storedShort => cases hres; simp at hi
  | zlibShort => cases hres; simp at hi
  | zlibBad => cases hres; simp at hi
  | zlibTrailing => cases hres; simp at hi
  | zlibStuck => cases hres; simp at hi
  | _ => simp at hres

variable (F)

/-- Turns, until one answers. -/
def readBlocks (n : Nat) (inner : Sniffed R) (block : Block F.zlib.State) :
    Except IoErr (List UInt8) × Sniffed R × Block F.zlib.State :=
  match _h : blockStep F n inner block with
  | (.error e, inner, block)        => (.error e, inner, block)
  | (.ok (some bs), inner, block)   => (.ok bs, inner, block)
  | (.ok none, inner', block')      => readBlocks n inner' block'
termination_by blockMeasure inner block
decreasing_by exact (turn_blockStep _h).measure_lt

end Blocks

/-! ### The gzip member -/

section Gzip

variable {R : Type} [FiniteRead Bool Payload R] (F : Flate2)

/-- What a decoder has met that neither takes nor answers any of what it is shown. -/
def memberError (shown : List UInt8) : IoErr :=
  if shown = [] then .os .unexpectedEof "unexpected end of file"
  else .os .invalidInput "corrupt deflate stream"

@[simp] theorem isInterrupted_memberError (shown : List UInt8) :
    (memberError shown).isInterrupted = false := by
  unfold memberError
  split <;> rfl

/-- One call on a gzip member; `none` once its footer has been read. -/
def readGzip (n : Nat) (inner : Sniffed R) (member : Option F.gunzip.State) :
    Except IoErr (List UInt8) × Sniffed R × Option F.gunzip.State :=
  match member with
  | none       => (.ok [], inner, none)
  | some state =>
    match _h : inner.fillBuf () with
    | (.error e, inner)  => (.error e, inner, some state)
    | (.ok shown, inner) =>
      match _hf : F.gunzip.feed state shown n with
      | .error e => (.error (.os .invalidInput e), inner, some state)
      | .ok fed  =>
        let inner := inner.consume fed.consumed
        if fed.ended then (.ok fed.produced, inner, none)
        else if fed.produced ≠ [] then (.ok fed.produced, inner, some fed.state)
        else if fed.consumed = 0 then (.error (memberError shown), inner, some fed.state)
        else readGzip n inner (some fed.state)
termination_by FiniteRead.size inner
decreasing_by
  exact BufReader.size_fillBuf_consume _h (Nat.pos_of_ne_zero ‹_›) (F.gunzip.consumed_le _hf)

end Gzip

/-! ### The decoder -/

/-- What kind of body it is, and how far it has been decoded. -/
inductive Body (F : Flate2) (R : Type)
  | gzip (inner : Sniffed R) (member : Option F.gunzip.State)
  | blocks (inner : Sniffed R) (block : Block F.zlib.State)

/-- The body's bytes. -/
def Body.inner {F : Flate2} {R : Type} : Body F R → Sniffed R
  | .gzip inner _   => inner
  | .blocks inner _ => inner

/-- Streams the archive out of a body. -/
structure DvzipDecoder (F : Flate2) (R : Type) where
  body : Body F R

namespace DvzipDecoder

variable {F : Flate2} {R : Type}

/-- How far the extraction got. -/
def progress (d : DvzipDecoder F R) : ExtractProgress := d.body.inner.source.progress

/-- Change how far the extraction got. -/
def mapProgress (f : ExtractProgress → ExtractProgress) (d : DvzipDecoder F R) :
    DvzipDecoder F R :=
  match d.body with
  | .gzip inner member  => ⟨.gzip (inner.mapProgress f) member⟩
  | .blocks inner block => ⟨.blocks (inner.mapProgress f) block⟩

variable [FiniteRead Bool Payload R]

/-- A decoder over a body, whose first two bytes tell what it is. -/
def new (progress : ExtractProgress) (source : R) : Except IoErr (DvzipDecoder F R) :=
  match readFull progress.whole 2 [] source with
  | (.error e, _)       => .error e
  | (.ok magic, source) =>
    let inner := BufReader.withCapacity ioChunkBytes ⟨⟨magic⟩, ⟨source, false, progress⟩⟩
    .ok ⟨if magic = gzipMagic then .gzip inner (some F.gunzip.init) else .blocks inner .header⟩

/-- What a failed call on a gzip member means: the body failed, it ended early, or it is no
    gzip. -/
def gzipError (e : IoErr) (inner : Sniffed R) : IoErr :=
  if inner.source.failed then e
  else if e.kind = .unexpectedEof then invalid "truncated gzip body"
  else invalid ("invalid gzip body: ".toList ++ displayIo e)

/-- One call. -/
def read (n : Nat) (d : DvzipDecoder F R) : Except IoErr (List UInt8) × DvzipDecoder F R :=
  if n = 0 then (.ok [], d) else
  match d.body with
  | .gzip inner member  =>
    match readGzip F n inner member with
    | (.error e, inner, member)        => (.error (gzipError e inner), ⟨.gzip inner member⟩)
    | (.ok (b :: bs), inner, member)   => (.ok (b :: bs), ⟨.gzip inner member⟩)
    | (.ok [], inner, member)          =>
      -- the member's footer is in: the body may end here
      match (inner.setCleanEnd inner.buffer.isEmpty).fillBuf () with
      | (.error e, inner)    => (.error e, ⟨.gzip inner member⟩)
      | (.ok [], inner)      => (.ok [], ⟨.gzip inner member⟩)
      | (.ok (_ :: _), inner) =>
        (.error (invalid "gzip body has trailing data"), ⟨.gzip inner member⟩)
  | .blocks inner block =>
    match readBlocks F n inner block with
    | (res, inner, block) => (res, ⟨.blocks inner block⟩)

/-! ### The decoder as a source -/

/-- Reading blocks makes no reader more patient. -/
theorem patience_readBlocks (n : Nat) (inner : Sniffed R) (block : Block F.zlib.State) :
    Read.patience (readBlocks F n inner block).2.1 ≤ Read.patience inner := by
  fun_induction readBlocks F n inner block with
  | case1 _ _ _ _ _ h => exact (turn_blockStep h).patience_le
  | case2 _ _ _ _ _ h => exact (turn_blockStep h).patience_le
  | case3 _ _ _ _ h ih => exact ih.trans (turn_blockStep h).patience_le

/-- An interrupted read of blocks takes patience. -/
theorem interrupted_readBlocks {n : Nat} {inner inner' : Sniffed R}
    {block block' : Block F.zlib.State} {e : IoErr}
    (h : readBlocks F n inner block = (.error e, inner', block')) (hi : e.isInterrupted = true) :
    Read.patience inner' < Read.patience inner := by
  fun_induction readBlocks F n inner block with
  | case1 _ _ _ _ _ hs =>
    cases h
    exact (turn_blockStep hs).interrupted hi
  | case2 => simp at h
  | case3 _ _ _ _ hs ih => exact (ih h).trans_le (turn_blockStep hs).patience_le

/-- A read of blocks gives no more than was asked for. -/
theorem length_readBlocks {n : Nat} {inner inner' : Sniffed R}
    {block block' : Block F.zlib.State} {bs : List UInt8}
    (h : readBlocks F n inner block = (.ok bs, inner', block')) : bs.length ≤ n := by
  fun_induction readBlocks F n inner block with
  | case1 => simp at h
  | case2 _ _ _ _ _ hs =>
    cases h
    exact (turn_blockStep hs).length_le
  | case3 _ _ _ _ hs ih => exact ih h

/-- Reading gzip makes no reader more patient. -/
theorem patience_readGzip (n : Nat) (inner : Sniffed R) (member : Option F.gunzip.State) :
    Read.patience (readGzip F n inner member).2.1 ≤ Read.patience inner := by
  fun_induction readGzip F n inner member with
  | case1 => exact le_rfl
  | case2 _ _ _ _ h => exact BufReader.patience_fillBuf h
  | case3 _ _ _ _ h => exact BufReader.patience_fillBuf h
  | case4 _ _ _ _ h => exact (BufReader.patience_fillBuf h :)
  | case5 _ _ _ _ h => exact (BufReader.patience_fillBuf h :)
  | case6 _ _ _ _ h => exact (BufReader.patience_fillBuf h :)
  | case7 _ _ _ _ h _ _ _ _ _ _ ih => exact ih.trans (BufReader.patience_fillBuf h :)

/-- An interrupted read of gzip takes patience. -/
theorem interrupted_readGzip {n : Nat} {inner inner' : Sniffed R}
    {member member' : Option F.gunzip.State} {e : IoErr}
    (h : readGzip F n inner member = (.error e, inner', member')) (hi : e.isInterrupted = true) :
    Read.patience inner' < Read.patience inner := by
  fun_induction readGzip F n inner member with
  | case1 => simp at h
  | case2 _ _ _ _ hf =>
    cases h
    exact BufReader.patience_fillBuf_interrupted hf hi
  | case3 => cases h; simp [IoError.isInterrupted, IoError.kind] at hi
  | case4 => simp at h
  | case5 => simp at h
  | case6 => cases (Prod.mk.inj h).1; simp at hi
  | case7 _ _ _ _ hf _ _ _ _ _ _ ih =>
    exact (ih h).trans_le (BufReader.patience_fillBuf hf :)

/-- A read of gzip gives no more than was asked for. -/
theorem length_readGzip {n : Nat} {inner inner' : Sniffed R}
    {member member' : Option F.gunzip.State} {bs : List UInt8}
    (h : readGzip F n inner member = (.ok bs, inner', member')) : bs.length ≤ n := by
  fun_induction readGzip F n inner member with
  | case1 => cases h; exact Nat.zero_le _
  | case2 => simp at h
  | case3 => simp at h
  | case4 _ _ _ _ _ _ hf => cases (Prod.mk.inj h).1; exact F.gunzip.length_produced hf
  | case5 _ _ _ _ _ _ hf => cases (Prod.mk.inj h).1; exact F.gunzip.length_produced hf
  | case6 => simp at h
  | case7 _ _ _ _ _ _ _ _ _ _ _ ih => exact ih h

end DvzipDecoder

end Omdrop.Proto
