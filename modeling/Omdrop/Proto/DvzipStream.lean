import Omdrop.Proto.Dvzip

namespace Omdrop.Proto

open Omdrop.Stream

/-!
# What a DVZip body decodes to

`Blocks` and `Archive` say which bodies are well formed and what they decode to, without a
decoder; `BlockDue` says the same of a body whose decoder is on its way.  A decoder before a
well-formed body delivers what the body decodes to (`steady_blocks`, `steady_gzip`).
-/

namespace DvzipDecoder

variable {F : Flate2} {R : Type} [FiniteRead Bool Payload R]

instance : Read Unit Payload (DvzipDecoder F R) where
  read _ := read
  patience d := Read.patience d.body.inner
  length_read {c n d d' bs} h := by
    unfold read at h
    split at h
    · cases h
      exact Nat.zero_le _
    · split at h
      · rename_i inner member hb
        split at h
        · cases h
        · rename_i hr
          cases h
          exact length_readGzip hr
        · split at h
          · cases h
          · cases h
            exact Nat.zero_le _
          · cases h
      · rename_i inner block hb
        rcases hr : readBlocks F n inner block with ⟨res, inner', block'⟩
        rw [hr] at h
        cases h
        exact length_readBlocks hr
  patience_read {c n d d' res} h := by
    unfold read at h
    split at h
    · cases h
      exact le_rfl
    · split at h
      · rename_i inner member hb
        have hp := patience_readGzip n inner member
        rw [hb]
        split at h
        · rename_i hr
          cases h
          rw [hr] at hp
          exact hp
        · rename_i hr
          cases h
          rw [hr] at hp
          exact hp
        · rename_i inner' member' hr
          rw [hr] at hp
          split at h
          · rename_i hf
            cases h
            exact (BufReader.patience_fillBuf hf).trans hp
          · rename_i hf
            cases h
            exact (BufReader.patience_fillBuf hf).trans hp
          · rename_i hf
            cases h
            exact (BufReader.patience_fillBuf hf).trans hp
      · rename_i inner block hb
        have hp := patience_readBlocks n inner block
        rw [hb]
        rcases hr : readBlocks F n inner block with ⟨res, inner', block'⟩
        rw [hr] at h hp
        cases h
        exact hp
  patience_interrupted {c n d d' e} h hi := by
    unfold read at h
    split at h
    · cases h
    · split at h
      · rename_i inner member hb
        have hp := patience_readGzip n inner member
        rw [hb]
        split at h
        · rename_i e₀ inner' member' hr
          cases h
          unfold gzipError at hi
          split at hi
          · exact interrupted_readGzip hr hi
          · split at hi <;> simp at hi
        · cases h
        · rename_i inner' member' hr
          rw [hr] at hp
          split at h
          · rename_i hf
            cases h
            exact (BufReader.patience_fillBuf_interrupted hf hi).trans_le hp
          · cases h
          · cases h
            simp at hi
      · rename_i inner block hb
        rw [hb]
        rcases hr : readBlocks F n inner block with ⟨res, inner', block'⟩
        rw [hr] at h
        cases h
        exact interrupted_readBlocks hr hi

end DvzipDecoder

/-! ### Well-formed bodies -/

/-- A sequence of blocks, and what it decodes to. -/
inductive Blocks (Zlib : List UInt8 → List UInt8 → Prop) : List UInt8 → List UInt8 → Prop
  | nil : Blocks Zlib [] []
  | stored {header data P D} (hlen : header.length = 4)
      (hvalue : headerValue header = dvzipStored + data.length) (h : Blocks Zlib P D) :
      Blocks Zlib (header ++ (data ++ P)) (data ++ D)
  | compressed {header z data P D} (hlen : header.length = 4)
      (hvalue : headerValue header = z.length) (hlt : z.length < dvzipStored) (hz : Zlib z data)
      (h : Blocks Zlib P D) : Blocks Zlib (header ++ (z ++ P)) (data ++ D)

/-- A body, and the archive it decodes to. -/
def Archive (Zlib Gzip : List UInt8 → List UInt8 → Prop) (P D : List UInt8) : Prop :=
  if P.take 2 = gzipMagic then Gzip P D else Blocks Zlib P D

/-- A body whose decoder is on its way through a block: `P` is still to come, and `D` it
    brings. -/
inductive BlockDue {σ : Type} (Zlib : List UInt8 → List UInt8 → Prop)
    (Rest : σ → List UInt8 → List UInt8 → Prop) : Block σ → List UInt8 → List UInt8 → Prop
  | header {P D} (h : Blocks Zlib P D) : BlockDue Zlib Rest .header P D
  | stored {left data P D} (hlen : data.length = left) (h : Blocks Zlib P D) :
      BlockDue Zlib Rest (.stored left) (data ++ P) (data ++ D)
  | compressed {left zlib z data P D} (hlen : z.length = left) (hz : Rest zlib z data)
      (h : Blocks Zlib P D) : BlockDue Zlib Rest (.compressed left zlib) (z ++ P) (data ++ D)
  | done : BlockDue Zlib Rest .done [] []

section Due

variable {Zlib : List UInt8 → List UInt8 → Prop} {P D header P' : List UInt8}

/-- A body of fewer than four bytes is empty. -/
theorem Blocks.of_length_lt (h : Blocks Zlib P D) (hlen : P.length < 4) : P = [] ∧ D = [] := by
  cases h with
  | nil => exact ⟨rfl, rfl⟩
  | stored hl _ _ =>
    rw [List.length_append] at hlen
    omega
  | compressed hl _ _ _ _ =>
    rw [List.length_append] at hlen
    omega

/-- The header of a stored block is followed by its payload. -/
theorem Blocks.stored_inv {left : Nat} (h : Blocks Zlib (header ++ P') D)
    (hlen : header.length = 4) (hvalue : headerValue header = dvzipStored + left) :
    ∃ data P D', data.length = left ∧ P' = data ++ P ∧ D = data ++ D' ∧ Blocks Zlib P D' := by
  generalize hP : header ++ P' = bytes at h
  cases h with
  | nil =>
    have := congrArg List.length hP
    rw [List.length_append, List.length_nil] at this
    omega
  | stored hl hv h =>
    obtain ⟨rfl, rfl⟩ := List.append_inj hP (hlen.trans hl.symm)
    exact ⟨_, _, _, by omega, rfl, rfl, h⟩
  | compressed hl hv hlt _ _ =>
    obtain ⟨rfl, rfl⟩ := List.append_inj hP (hlen.trans hl.symm)
    omega

/-- The header of a compressed block is followed by its stream. -/
theorem Blocks.compressed_inv (h : Blocks Zlib (header ++ P') D) (hlen : header.length = 4)
    (hvalue : headerValue header < dvzipStored) :
    ∃ z data P D', z.length = headerValue header ∧ Zlib z data ∧ P' = z ++ P ∧ D = data ++ D' ∧
      Blocks Zlib P D' := by
  generalize hP : header ++ P' = bytes at h
  cases h with
  | nil =>
    have := congrArg List.length hP
    rw [List.length_append, List.length_nil] at this
    omega
  | stored hl hv _ =>
    obtain ⟨rfl, rfl⟩ := List.append_inj hP (hlen.trans hl.symm)
    omega
  | compressed hl hv _ hz h =>
    obtain ⟨rfl, rfl⟩ := List.append_inj hP (hlen.trans hl.symm)
    exact ⟨_, _, _, _, hv.symm, hz, rfl, rfl, h⟩

end Due

/-! ### Sequences of blocks -/

section Blocks

variable {F : Flate2} {R : Type} [FiniteRead Bool Payload R] {fatal : IoErr → Prop}
  {S : R → List UInt8 → Prop} {Zlib : List UInt8 → List UInt8 → Prop}
  {Rest : F.zlib.State → List UInt8 → List UInt8 → Prop} {inner inner' : Sniffed R}
  {block block' : Block F.zlib.State} {P D : List UInt8} {n : Nat}

/-- A call has kept to what was due: it answered the front of it, or was interrupted before any
    of it, or failed in a way that is fatal. -/
def Kept (fatal : IoErr → Prop) (D : List UInt8) (due : List UInt8 → Prop) :
    Except IoErr (Option (List UInt8)) → Prop
  | .ok none      => due D
  | .ok (some bs) => (∃ D', D = bs ++ D' ∧ due D') ∧ (bs = [] → D = [])
  | .error e      => e.isInterrupted = true ∧ due D ∨ e.isInterrupted = false ∧ fatal e

/-- What a compressed block is shown is the front of what is to come, and empty only at its
    end. -/
theorem Shown.coming (hS : Steady fatal S) {left : Nat} {shown : List UInt8}
    (h : Shown left inner shown inner') (hc : Sniffed.Coming S inner P) :
    Sniffed.Coming S inner' P ∧ shown <+: P ∧ (shown = [] → left = 0) ∧
      ∀ k ≤ shown.length, Sniffed.Coming S (inner'.consume k) (P.drop k) := by
  have hchain := Chain.steady (Source.steady hS)
  cases h with
  | exhausted h =>
    refine ⟨hc, List.nil_prefix, fun _ => h, fun k hk => ?_⟩
    rw [List.length_nil, Nat.le_zero] at hk
    subst hk
    simpa [BufReader.consume] using hc
  | buffered _ hf hne =>
    obtain ⟨hc', hpre, _⟩ := BufReader.Ahead.fillBuf hchain hc hf
    refine ⟨hc', hpre, fun h0 => absurd h0 hne, fun k hk => ?_⟩
    rw [← BufReader.buffer_of_fillBuf_ok hf] at hk
    exact BufReader.Ahead.consume hc' hk

/-- The header of the next block, over a steady body. -/
theorem readFull_header (hS : Steady fatal S) (hc : Sniffed.Coming S inner P) (clean : Bool)
    {res : Except IoErr (List UInt8)}
    (hr : readFull () 4 [] (inner.setCleanEnd clean) = (res, inner')) :
    (res = .ok (P.take 4) ∧ Sniffed.Coming S inner' (P.drop 4)) ∨
      ∃ e, res = .error e ∧ e.isInterrupted = false ∧ fatal e := by
  have hc' : Sniffed.Coming S (inner.setCleanEnd clean) P := by
    rwa [Sniffed.setCleanEnd, Sniffed.coming_mapProgress]
  rcases (Sniffed.steady hS).readFull () 4 [] hc' with ⟨r, h, hcoming⟩ | ⟨e, r, h, hf⟩
  · rw [hr] at h
    cases h
    exact .inl ⟨by rw [List.nil_append], hcoming⟩
  · rw [hr] at h
    cases h
    obtain ⟨_, _, _, _, _, hn⟩ := readFull_failed hr
    exact .inr ⟨e, rfl, hn, hf⟩

/-- A decoder that is shown the front of its stream takes the next step of it. -/
private theorem zlib_goes (hdec : F.zlib.Decodes Rest) {left : Nat} {zlib : F.zlib.State}
    {shown z data P : List UInt8} (hlen : z.length = left) (hz : Rest zlib z data)
    (hpre : shown <+: z ++ P) (hempty : shown = [] → left = 0) (hn : 0 < n) :
    ∃ f, F.zlib.feed zlib (shown.take left) n = .ok f ∧
      if f.ended then f.consumed = left ∧ data = f.produced
      else (f.consumed ≠ 0 ∨ f.produced ≠ []) ∧ f.consumed ≤ left ∧
        ∃ o', data = f.produced ++ o' ∧ Rest f.state (z.drop f.consumed) o' := by
  have htake : shown.take left <+: z := by
    have := hpre.take z.length
    rwa [List.take_left, hlen] at this
  have hnil : shown.take left = [] → z = [] := by
    intro h0
    rcases List.take_eq_nil_iff.mp h0 with h | h
    · exact List.length_eq_zero_iff.mp (hlen.trans h)
    · exact List.length_eq_zero_iff.mp (hlen.trans (hempty h))
  obtain ⟨f, hf, hstep⟩ := hdec.goes hz (htake.trans (List.prefix_append z [])) hnil hn
  have hcons := F.zlib.consumed_le hf
  refine ⟨f, hf, ?_⟩
  split at hstep
  · rename_i hend
    obtain ⟨hi, ho⟩ := hstep
    rw [if_pos hend]
    refine ⟨?_, ho⟩
    have := congrArg List.length hi
    have hle := List.length_take_le' left shown
    rw [List.length_take, Nat.min_eq_left hcons] at this
    omega
  · rename_i hend
    obtain ⟨hprog, i', o', hi, ho, hrest⟩ := hstep
    rw [if_neg hend]
    have hlt : f.consumed ≤ left := hcons.trans (List.length_take_le _ _)
    refine ⟨hprog, hlt, o', ho, ?_⟩
    have hl : (List.take f.consumed (List.take left shown)).length = f.consumed := by
      rw [List.length_take, Nat.min_eq_left hcons]
    have hdrop : z.drop f.consumed = i' := by
      conv_lhs => rw [hi]
      exact List.drop_left' hl
    rwa [hdrop]

/-- A header of four bytes leads to the block that it announces. -/
theorem header_kept (hinit : ∀ i o, Zlib i o → Rest F.zlib.init i o) (hS : Steady fatal S)
    {header : List UInt8} {clean : Bool}
    (hr : readFull () 4 [] (inner.setCleanEnd clean) = (.ok header, inner'))
    (hlen : header.length = 4) (hc : Sniffed.Coming S inner P) (hb : Blocks Zlib P D) :
    (∀ left, headerValue header = dvzipStored + left →
      ∃ P', Sniffed.Coming S inner' P' ∧ BlockDue Zlib Rest (.stored left) P' D) ∧
    (headerValue header < dvzipStored →
      ∃ P', Sniffed.Coming S inner' P' ∧
        BlockDue Zlib Rest (.compressed (headerValue header) F.zlib.init) P' D) := by
  rcases readFull_header hS hc _ hr with ⟨h, hc'⟩ | ⟨e, h, _⟩
  · cases h
    rw [← List.take_append_drop 4 P] at hb
    constructor
    · intro left hvalue
      obtain ⟨data, P', D', hdata, hP, rfl, hb'⟩ := hb.stored_inv hlen hvalue
      exact ⟨_, hc', hP ▸ .stored hdata hb'⟩
    · intro hvalue
      obtain ⟨z, data, P', D', hdata, hz, hP, rfl, hb'⟩ := hb.compressed_inv hlen hvalue
      exact ⟨_, hc', hP ▸ .compressed hdata (hinit _ _ hz) hb'⟩
  · simp at h

/-- A part of a stored payload is passed on, and the rest of it is still due. -/
private theorem storedData_kept (hS : Steady fatal S) {left : Nat} {bs : List UInt8} (hne : bs ≠ [])
    (hr : Read.read () (min n left) inner = (.ok bs, inner')) (hc : Sniffed.Coming S inner P)
    (hd : BlockDue Zlib Rest (.stored left) P D) :
    Kept fatal D (fun D' => ∃ P', Sniffed.Coming S inner' P' ∧
      BlockDue Zlib Rest (.stored (left - bs.length)) P' D') (.ok (some bs)) := by
  cases hd with
  | @stored _ data P D hlen hb =>
    obtain ⟨P', hP, hc'⟩ := (Sniffed.steady hS).ok hc hr
    have hle := (Read.length_read hr).trans (min_le_right _ _)
    have hdata : data = bs ++ data.drop bs.length := by
      have hpre : bs <+: data ++ P := ⟨P', hP.symm⟩
      have := List.prefix_of_prefix_length_le hpre (List.prefix_append data P) (by omega)
      exact (List.prefix_iff_eq_append.mp this).symm
    have hP' : P' = data.drop bs.length ++ P := by
      rw [hdata, List.append_assoc, List.append_cancel_left_eq] at hP
      simpa using hP.symm
    refine ⟨⟨data.drop bs.length ++ D, ?_, P', hc', hP' ▸ .stored ?_ hb⟩, fun h0 => absurd h0 hne⟩
    · rw [← List.append_assoc, ← hdata]
    · rw [List.length_drop, hlen]

section Feeding

variable {left : Nat} {zlib : F.zlib.State} {shown : List UInt8} {inner₁ : Sniffed R}

/-- What a compressed block is shown does not make its decoder fail, and the decoder takes the next
    step of the block's stream. -/
theorem shown_goes (hdec : F.zlib.Decodes Rest) (hS : Steady fatal S) (hn : 0 < n)
    (hshown : Shown left inner shown inner₁) (hc : Sniffed.Coming S inner P) {z data P' : List UInt8}
    (hP : P = z ++ P') (hlen : z.length = left) (hz : Rest zlib z data) :
    ∃ fed, F.zlib.feed zlib (shown.take left) n = .ok fed ∧
      (if fed.ended then fed.consumed = left ∧ data = fed.produced
        else (fed.consumed ≠ 0 ∨ fed.produced ≠ []) ∧ fed.consumed ≤ left ∧
          ∃ o', data = fed.produced ++ o' ∧ Rest fed.state (z.drop fed.consumed) o') := by
  subst hP
  obtain ⟨_, hpre, hempty, _⟩ := hshown.coming hS hc
  exact zlib_goes hdec hlen hz hpre hempty hn

/-- At the end of its stream the block is over, and the next header is due. -/
private theorem zlibEnded_kept (hdec : F.zlib.Decodes Rest) (hS : Steady fatal S) (hn : 0 < n)
    {fed : Fed F.zlib.State} (hshown : Shown left inner shown inner₁)
    (hfeed : F.zlib.feed zlib (shown.take left) n = .ok fed) (hend : fed.ended = true)
    (hc : Sniffed.Coming S inner P) (hd : BlockDue Zlib Rest (.compressed left zlib) P D) :
    Kept fatal D (fun D' => ∃ P', Sniffed.Coming S (inner₁.consume fed.consumed) P' ∧
      BlockDue Zlib Rest .header P' D')
      (.ok (if fed.produced = [] then none else some fed.produced)) := by
  cases hd with
  | @compressed _ _ z data P D hlen hz hb =>
    obtain ⟨f, hf, hstep⟩ := shown_goes hdec hS hn hshown hc rfl hlen hz
    rw [hfeed] at hf
    cases hf
    rw [if_pos hend] at hstep
    obtain ⟨hcons, rfl⟩ := hstep
    have hc' := (hshown.coming hS hc).2.2.2 _ (consumed_le_shown hfeed)
    rw [hcons, List.drop_left' hlen, ← hcons] at hc'
    split
    · rename_i hnil
      rw [hnil, List.nil_append]
      exact ⟨P, hc', .header hb⟩
    · rename_i hne
      exact ⟨⟨D, rfl, P, hc', .header hb⟩, fun h0 => absurd h0 hne⟩

/-- Before the end of its stream the rest of the block is still due. -/
private theorem zlibGoing_kept (hdec : F.zlib.Decodes Rest) (hS : Steady fatal S) (hn : 0 < n)
    {fed : Fed F.zlib.State} (hshown : Shown left inner shown inner₁)
    (hfeed : F.zlib.feed zlib (shown.take left) n = .ok fed) (hend : fed.ended = false)
    (hc : Sniffed.Coming S inner P) (hd : BlockDue Zlib Rest (.compressed left zlib) P D) :
    Kept fatal D (fun D' => ∃ P', Sniffed.Coming S (inner₁.consume fed.consumed) P' ∧
      BlockDue Zlib Rest (.compressed (left - fed.consumed) fed.state) P' D')
      (.ok (if fed.produced = [] then none else some fed.produced)) := by
  cases hd with
  | @compressed _ _ z data P D hlen hz hb =>
    obtain ⟨f, hf, hstep⟩ := shown_goes hdec hS hn hshown hc rfl hlen hz
    rw [hfeed] at hf
    cases hf
    rw [if_neg (by simp [hend])] at hstep
    obtain ⟨_, hle, o', rfl, hrest⟩ := hstep
    have hc' := (hshown.coming hS hc).2.2.2 _ (consumed_le_shown hfeed)
    rw [List.drop_append_of_le_length (by omega)] at hc'
    have hdue : BlockDue Zlib Rest (.compressed (left - fed.consumed) fed.state)
        (z.drop fed.consumed ++ P) (o' ++ D) :=
      .compressed (by rw [List.length_drop, hlen]) hrest hb
    split
    · rename_i hnil
      rw [hnil, List.nil_append]
      exact ⟨_, hc', hdue⟩
    · rename_i hne
      refine ⟨⟨o' ++ D, ?_, _, hc', hdue⟩, fun h0 => absurd h0 hne⟩
      rw [List.append_assoc]

end Feeding

/-- **A turn keeps to the body's decoding.** -/
theorem Turn.kept (hdec : F.zlib.Decodes Rest) (hinit : ∀ i o, Zlib i o → Rest F.zlib.init i o)
    (hS : Steady fatal S) (hn : 0 < n) {res : Except IoErr (Option (List UInt8))}
    (h : Turn F n inner block res inner' block') (hc : Sniffed.Coming S inner P)
    (hd : BlockDue Zlib Rest block P D) :
    Kept fatal D (fun D' => ∃ P', Sniffed.Coming S inner' P' ∧ BlockDue Zlib Rest block' P' D')
      res := by
  have hsteady := Sniffed.steady hS
  cases h with
  | done =>
    cases hd
    exact ⟨⟨[], rfl, [], hc, .done⟩, fun _ => rfl⟩
  | headerFailed hr =>
    rcases readFull_header hS hc _ hr with ⟨h, _⟩ | ⟨e, h, hf⟩
    · simp at h
    · cases h
      exact .inr hf
  | bodyEnd hr =>
    obtain ⟨hb⟩ := hd
    rcases readFull_header hS hc _ hr with ⟨h, hc'⟩ | ⟨e, h, _⟩
    · have hP : P = [] := by simpa using (Except.ok.inj h).symm
      subst hP
      obtain ⟨-, rfl⟩ := hb.of_length_lt (by decide)
      exact ⟨⟨[], rfl, [], by simpa using hc', .done⟩, fun _ => rfl⟩
    · simp at h
  | headerShort hr hne hlen =>
    obtain ⟨hb⟩ := hd
    rcases readFull_header hS hc _ hr with ⟨h, _⟩ | ⟨e, h, _⟩
    · -- a well-formed body has no room for part of a header
      cases h
      rw [List.length_take] at hlen
      obtain ⟨rfl, -⟩ := hb.of_length_lt (by omega)
      exact absurd rfl hne
    · simp at h
  | stored hr hlen hvalue =>
    obtain ⟨hb⟩ := hd
    exact (header_kept hinit hS hr hlen hc hb).1 _ hvalue
  | compressed hr hlen hvalue =>
    obtain ⟨hb⟩ := hd
    exact (header_kept hinit hS hr hlen hc hb).2 hvalue
  | storedEnd =>
    cases hd with
    | stored hlen hb =>
      obtain rfl := List.length_eq_zero_iff.mp hlen
      exact ⟨_, hc, .header hb⟩
  | storedFailed hleft hr =>
    rcases hsteady.error hc hr with ⟨hi, hc'⟩ | hf
    · exact .inl ⟨hi, P, hc', hd⟩
    · exact .inr hf
  | storedShort hleft hr =>
    -- the payload of a well-formed body does not run out
    cases hd with
    | stored hlen hb =>
      have hP := hsteady.finished hc (by omega) hr
      rw [List.append_eq_nil_iff] at hP
      rw [hP.1] at hlen
      exact absurd hlen.symm hleft
  | storedData hleft hne hr => exact storedData_kept hS hne hr hc hd
  | zlibFailed hleft hf =>
    rcases BufReader.Ahead.fillBuf_error (Chain.steady (Source.steady hS)) hc hf with ⟨hi, hc'⟩ | hf
    · exact .inl ⟨hi, P, hc', hd⟩
    · exact .inr hf
  | zlibShort hleft hf =>
    cases hd with
    | compressed hlen hz hb =>
      have hP := (BufReader.Ahead.fillBuf (Chain.steady (Source.steady hS)) hc hf).2.2 rfl
      rw [List.append_eq_nil_iff] at hP
      rw [hP.1] at hlen
      exact absurd hlen.symm hleft
  | zlibBad hshown hfeed =>
    cases hd with
    | compressed hlen hz hb =>
      obtain ⟨f, hf, _⟩ := shown_goes hdec hS hn hshown hc rfl hlen hz
      rw [hfeed] at hf
      simp at hf
  | zlibTrailing hshown hfeed hend hleft =>
    cases hd with
    | compressed hlen hz hb =>
      obtain ⟨f, hf, hstep⟩ := shown_goes hdec hS hn hshown hc rfl hlen hz
      rw [hfeed] at hf
      cases hf
      rw [if_pos hend] at hstep
      omega
  | zlibEnded hshown hfeed hend hleft => exact zlibEnded_kept hdec hS hn hshown hfeed hend hc hd
  | zlibStuck hshown hfeed hend hstuck =>
    cases hd with
    | compressed hlen hz hb =>
      obtain ⟨f, hf, hstep⟩ := shown_goes hdec hS hn hshown hc rfl hlen hz
      rw [hfeed] at hf
      cases hf
      rw [if_neg (by simp [hend])] at hstep
      rcases hstep.1 with h | h
      · exact absurd hstuck.2 h
      · exact absurd hstuck.1 h
  | zlibGoing hshown hfeed hend hgoing => exact zlibGoing_kept hdec hS hn hshown hfeed hend hc hd

/-- So does a call, however many turns it takes. -/
private theorem readBlocks_kept (hdec : F.zlib.Decodes Rest)
    (hinit : ∀ i o, Zlib i o → Rest F.zlib.init i o)
    (hS : Steady fatal S) (hn : 0 < n) {res : Except IoErr (List UInt8)}
    (h : readBlocks F n inner block = (res, inner', block')) (hc : Sniffed.Coming S inner P)
    (hd : BlockDue Zlib Rest block P D) :
    Kept fatal D (fun D' => ∃ P', Sniffed.Coming S inner' P' ∧ BlockDue Zlib Rest block' P' D')
      (res.map some) := by
  fun_induction readBlocks F n inner block generalizing P with
  | case1 inner block e inner₁ block₁ hs =>
    -- the block fails
    cases h
    exact (turn_blockStep hs).kept hdec hinit hS hn hc hd
  | case2 inner block bs inner₁ block₁ hs =>
    -- some bytes are given
    cases h
    exact (turn_blockStep hs).kept hdec hinit hS hn hc hd
  | case3 inner block inner₁ block₁ hs ih =>
    -- nothing is given yet, and the block goes on
    obtain ⟨P₁, hc₁, hd₁⟩ := (turn_blockStep hs).kept hdec hinit hS hn hc hd
    exact ih h hc₁ hd₁

end Blocks

namespace DvzipDecoder

variable {F : Flate2} {R : Type} [FiniteRead Bool Payload R] {fatal : IoErr → Prop}
  {S : R → List UInt8 → Prop} {Zlib Gzip : List UInt8 → List UInt8 → Prop}

/-- A decoder whose calls keep to what is due is steady. -/
theorem steady_of_kept {Due : DvzipDecoder F R → List UInt8 → Prop}
    (hcall : ∀ {n d d' res D}, 0 < n → Due d D → d.read n = (res, d') →
      Kept fatal D (fun D' => Due d' D') (res.map some)) : Steady fatal Due := by
  refine ⟨?_, ?_, ?_⟩
  · rintro ⟨⟩ n d d' bs D hd hr
    by_cases hn : n = 0
    · obtain rfl := List.length_eq_zero_iff.mp (Nat.le_zero.mp (hn ▸ Read.length_read hr))
      obtain rfl : d' = d := by
        subst hn
        exact (Prod.mk.inj hr).2.symm
      exact ⟨D, rfl, hd⟩
    · exact (hcall (Nat.pos_of_ne_zero hn) hd hr).1
  · rintro ⟨⟩ n d d' D hd hn hr
    exact (hcall hn hd hr).2 rfl
  · rintro ⟨⟩ n d d' e D hd hr
    by_cases hn : n = 0
    · subst hn
      cases hr
    · exact hcall (Nat.pos_of_ne_zero hn) hd hr

/-- The decoder is among the blocks of a body, and `D` is still to come out of it. -/
def BlocksDue (S : R → List UInt8 → Prop) (Zlib : List UInt8 → List UInt8 → Prop)
    (Rest : F.zlib.State → List UInt8 → List UInt8 → Prop) (d : DvzipDecoder F R)
    (D : List UInt8) : Prop :=
  ∃ inner block P, d.body = .blocks inner block ∧ Sniffed.Coming S inner P ∧
    BlockDue Zlib Rest block P D

/-- **Blocks.**  A decoder among the blocks of a well-formed body is as steady as the body. -/
theorem steady_blocks {Rest : F.zlib.State → List UInt8 → List UInt8 → Prop}
    (hdec : F.zlib.Decodes Rest) (hinit : ∀ i o, Zlib i o → Rest F.zlib.init i o)
    (hS : Steady fatal S) : Steady fatal (BlocksDue (F := F) S Zlib Rest) := by
  have hcall : ∀ {n d d' res D}, 0 < n → BlocksDue (F := F) S Zlib Rest d D →
      d.read n = (res, d') →
      Kept fatal D (fun D' => BlocksDue S Zlib Rest d' D') (res.map some) := by
    rintro n d d' res D hn ⟨inner, block, P, hb, hc, hd⟩ hr
    unfold DvzipDecoder.read at hr
    rw [if_neg (by omega), hb] at hr
    rcases hrb : readBlocks F n inner block with ⟨res₁, inner₁, block₁⟩
    simp only [hrb] at hr
    cases hr
    have hk := readBlocks_kept hdec hinit hS hn hrb hc hd
    cases res with
    | ok bs =>
      obtain ⟨⟨D', hD, P', hc', hd'⟩, hend⟩ := hk
      exact ⟨⟨D', hD, inner₁, block₁, P', rfl, hc', hd'⟩, hend⟩
    | error e =>
      refine hk.imp_left fun hdue => ?_
      obtain ⟨hi, P', hc', hd'⟩ := hdue
      exact ⟨hi, inner₁, block₁, P', rfl, hc', hd'⟩
  exact steady_of_kept hcall

/-- What a gzip member still needs, and what it brings; nothing may follow it. -/
def MemberDue {σ : Type} (Rest : σ → List UInt8 → List UInt8 → Prop) :
    Option σ → List UInt8 → List UInt8 → Prop
  | none, P, D   => P = [] ∧ D = []
  | some s, P, D => Rest s P D

section Gzip

variable {Rest : F.gunzip.State → List UInt8 → List UInt8 → Prop} {inner inner' : Sniffed R}
  {member member' : Option F.gunzip.State} {P D : List UInt8} {n : Nat}

/-- A buffer that cannot be filled has met a failure of the body. -/
private theorem failed_of_fillBuf {e : IoErr} (h : inner.fillBuf () = (.error e, inner')) :
    (∃ c n, Read.read c n inner.source.inner = (.error e, inner'.source.inner)) ∧
      (e.isInterrupted = false → inner'.source.failed = true) := by
  rcases BufReader.fillBuf_cases h with ⟨_, hr, _⟩ | ⟨_, _, hr, _⟩ | ⟨e', _, he, _, _, hr⟩
  · simp at hr
  · simp at hr
  · cases he
    rcases Chain.read_cases hr with ⟨_, hr, _⟩ | ⟨_, _, _, hr⟩ | ⟨_, _, _, hr, _⟩
    · simp at hr
    · refine ⟨⟨_, _, (Source.read_cases hr).1⟩, fun hn => ?_⟩
      have hs : (inner.inner.second.read _) = (_, inner'.inner.second) := hr
      unfold Source.read at hs
      split at hs
      · cases hs
      · cases hs
      · obtain ⟨he, hsecond⟩ := Prod.mk.inj hs
        cases he
        rw [Sniffed.source, ← hsecond]
        simp [hn]
    · simp at hr

/-- A buffer over a body that is never interrupted fails for good. -/
theorem fatal_of_fillBuf (hS : Steady fatal S)
    (hquiet : ∀ {c n r r' e P}, S r P → Read.read c n r = (.error e, r') → e.isInterrupted = false)
    {e : IoErr} (h : inner.fillBuf () = (.error e, inner')) (hc : Sniffed.Coming S inner P) :
    fatal e ∧ e.isInterrupted = false ∧ inner'.source.failed = true := by
  obtain ⟨⟨c, n, hr⟩, hfailed⟩ := failed_of_fillBuf h
  obtain ⟨_, _, _, _, hs⟩ := hc
  have hn := hquiet hs hr
  exact ⟨hS.failed hs hr (by simp [hn]), hn, hfailed hn⟩

/-- A call on a member has kept to what was due: it answered the front of it, nothing only at
    the end of the body, or failed because the body did. -/
def MemberKept (fatal : IoErr → Prop) (S : R → List UInt8 → Prop)
    (Rest : F.gunzip.State → List UInt8 → List UInt8 → Prop) (D : List UInt8)
    (inner' : Sniffed R) (member' : Option F.gunzip.State) : Except IoErr (List UInt8) → Prop
  | .ok bs   => (∃ D' P', D = bs ++ D' ∧ Sniffed.Coming S inner' P' ∧
      MemberDue Rest member' P' D') ∧ (bs = [] → D = [] ∧ Sniffed.Coming S inner' [] ∧ member' = none)
  | .error e => fatal e ∧ e.isInterrupted = false ∧ inner'.source.failed = true

/-- **Gzip members, one call.** -/
theorem readGzip_kept (hdec : F.gunzip.Decodes Rest) (hS : Steady fatal S)
    (hquiet : ∀ {c n r r' e P}, S r P → Read.read c n r = (.error e, r') → e.isInterrupted = false)
    (hn : 0 < n) {res : Except IoErr (List UInt8)}
    (h : readGzip F n inner member = (res, inner', member')) (hc : Sniffed.Coming S inner P)
    (hd : MemberDue Rest member P D) : MemberKept fatal S Rest D inner' member' res := by
  have hchain := Chain.steady (Source.steady hS)
  -- what the decoder makes of the buffer it is shown
  have hgoes : ∀ {inner inner₁ : Sniffed R} {state shown P D}, Sniffed.Coming S inner P →
      Rest state P D → inner.fillBuf () = (.ok shown, inner₁) →
      ∃ f, F.gunzip.feed state shown n = .ok f ∧
        Sniffed.Coming S (inner₁.consume f.consumed) (P.drop f.consumed) ∧
        if f.ended then P = shown.take f.consumed ∧ D = f.produced
        else (f.consumed ≠ 0 ∨ f.produced ≠ []) ∧ ∃ i' o', P = shown.take f.consumed ++ i' ∧
          D = f.produced ++ o' ∧ Rest f.state i' o' := by
    intro inner inner₁ state shown P D hc hd hf
    obtain ⟨hc₁, hpre, hnil⟩ := BufReader.Ahead.fillBuf hchain hc hf
    obtain ⟨f, hfeed, hstep⟩ := hdec.goes hd (hpre.trans (List.prefix_append P [])) hnil hn
    refine ⟨f, hfeed, BufReader.Ahead.consume hc₁ ?_, hstep⟩
    rw [BufReader.buffer_of_fillBuf_ok hf]
    exact F.gunzip.consumed_le hfeed
  fun_induction readGzip F n inner member generalizing P D with
  | case1 inner =>
    -- the member has ended before
    cases h
    obtain ⟨rfl, rfl⟩ := hd
    exact ⟨⟨[], [], rfl, hc, rfl, rfl⟩, fun _ => ⟨rfl, hc, rfl⟩⟩
  | case2 inner state e inner₁ hf =>
    -- the source fails
    cases h
    exact fatal_of_fillBuf hS hquiet hf hc
  | case3 inner state shown inner₁ hf e hfeed =>
    -- what is shown is no part of a member
    obtain ⟨f, hfeed', _⟩ := hgoes hc hd hf
    rw [hfeed] at hfeed'
    simp at hfeed'
  | case4 inner state shown inner₁ hf fed hfeed inner₂ =>
    -- the member ends with it
    rename_i hend
    obtain ⟨f, hfeed', hc', hstep⟩ := hgoes hc hd hf
    rw [hfeed] at hfeed'
    cases hfeed'
    obtain ⟨hres, hrest'⟩ := Prod.mk.inj h
    obtain ⟨hinner, hmember⟩ := Prod.mk.inj hrest'
    subst hres hinner hmember
    rw [if_pos hend] at hstep
    obtain ⟨rfl, rfl⟩ := hstep
    rw [List.drop_of_length_le (List.length_take_le _ _)] at hc'
    exact ⟨⟨[], [], (List.append_nil _).symm, hc', rfl, rfl⟩, fun h0 => ⟨h0, hc', rfl⟩⟩
  | case5 inner state shown inner₁ hf fed hfeed inner₂ hend =>
    -- some bytes are given
    rename_i hne
    obtain ⟨f, hfeed', hc', hstep⟩ := hgoes hc hd hf
    rw [hfeed] at hfeed'
    cases hfeed'
    obtain ⟨hres, hrest'⟩ := Prod.mk.inj h
    obtain ⟨hinner, hmember⟩ := Prod.mk.inj hrest'
    subst hres hinner hmember
    rw [if_neg hend] at hstep
    obtain ⟨_, i', o', rfl, rfl, hrest⟩ := hstep
    rw [List.drop_left' (List.length_take_of_le (F.gunzip.consumed_le hfeed))] at hc'
    exact ⟨⟨o', i', rfl, hc', hrest⟩, fun h0 => absurd h0 hne⟩
  | case6 inner state shown inner₁ hf fed hfeed inner₂ hend hnil =>
    -- the source ends within the member
    rename_i hstuck
    obtain ⟨f, hfeed', hc', hstep⟩ := hgoes hc hd hf
    rw [hfeed] at hfeed'
    cases hfeed'
    rw [if_neg hend] at hstep
    rcases hstep.1 with h0 | h0
    · exact absurd hstuck h0
    · exact absurd h0 hnil
  | case7 inner state shown inner₁ hf fed hfeed inner₂ hend hnil _ =>
    -- nothing is given yet, and the member goes on
    rename_i ih
    obtain ⟨f, hfeed', hc', hstep⟩ := hgoes hc hd hf
    rw [hfeed] at hfeed'
    cases hfeed'
    rw [if_neg hend] at hstep
    obtain ⟨_, i', o', rfl, rfl, hrest⟩ := hstep
    rw [not_not] at hnil
    rw [List.drop_left' (List.length_take_of_le (F.gunzip.consumed_le hfeed))] at hc'
    rw [hnil, List.nil_append]
    exact ih h hc' hrest

end Gzip

/-- The decoder is in a gzip member, and `D` is still to come out of it. -/
def GzipDue (S : R → List UInt8 → Prop) (Rest : F.gunzip.State → List UInt8 → List UInt8 → Prop)
    (d : DvzipDecoder F R) (D : List UInt8) : Prop :=
  ∃ inner member P, d.body = .gzip inner member ∧ Sniffed.Coming S inner P ∧
    MemberDue Rest member P D

/-- **Gzip members.**  A decoder in a gzip member that is the whole rest of the body is as steady
    as the body, if that is never interrupted. -/
theorem steady_gzip {Rest : F.gunzip.State → List UInt8 → List UInt8 → Prop}
    (hdec : F.gunzip.Decodes Rest) (hS : Steady fatal S)
    (hquiet : ∀ {c n r r' e P}, S r P → Read.read c n r = (.error e, r') →
      e.isInterrupted = false) :
    Steady fatal (GzipDue (F := F) S Rest) := by
  have hchain := Chain.steady (Source.steady hS)
  have hcall : ∀ {n d d' res D}, 0 < n → GzipDue (F := F) S Rest d D → d.read n = (res, d') →
      Kept fatal D (fun D' => GzipDue S Rest d' D') (res.map some) := by
    rintro n d d' res D hn ⟨inner, member, P, hb, hc, hd⟩ hr
    unfold DvzipDecoder.read at hr
    rw [if_neg (by omega), hb] at hr
    rcases hrg : readGzip F n inner member with ⟨res₁, inner₁, member₁⟩
    simp only [hrg] at hr
    have hk := readGzip_kept hdec hS hquiet hn hrg hc hd
    split at hr
    · rename_i e inner₂ member₂ heq
      cases heq
      cases hr
      obtain ⟨hf, hni, hfailed⟩ := hk
      exact .inr (by simpa [gzipError, hfailed] using ⟨hni, hf⟩)
    · rename_i b bs inner₂ member₂ heq
      cases heq
      cases hr
      obtain ⟨⟨D', P', rfl, hc', hd'⟩, _⟩ := hk
      exact ⟨⟨D', rfl, _, _, P', rfl, hc', hd'⟩, fun h0 => by simp at h0⟩
    · rename_i inner₂ member₂ heq
      cases heq
      obtain ⟨rfl, hc', rfl⟩ := hk.2 rfl
      have hclean : Sniffed.Coming S (inner₁.setCleanEnd inner₁.buffer.isEmpty) [] := by
        rwa [Sniffed.setCleanEnd, Sniffed.coming_mapProgress]
      split at hr
      · rename_i e inner₃ hf
        cases hr
        obtain ⟨hfatal, hni, _⟩ := fatal_of_fillBuf hS hquiet hf hclean
        exact .inr ⟨hni, hfatal⟩
      · rename_i inner₃ hf
        cases hr
        have hc₃ := (BufReader.Ahead.fillBuf hchain hclean hf).1
        exact ⟨⟨[], rfl, _, _, [], rfl, hc₃, rfl, rfl⟩, fun _ => rfl⟩
      · rename_i b bs inner₃ hf
        have hpre := (BufReader.Ahead.fillBuf hchain hclean hf).2.1
        simp at hpre
  exact steady_of_kept hcall

/-- Over a steady body the first two bytes are sniffed and are still to come. -/
theorem new_steady (hS : Steady fatal S) {source : R} {P : List UInt8} (h : S source P)
    (progress : ExtractProgress) :
    (∃ inner, Sniffed.Coming S inner P ∧ new (F := F) progress source = .ok
      ⟨if P.take 2 = gzipMagic then .gzip inner (some F.gunzip.init) else .blocks inner .header⟩) ∨
    ∃ e, new (F := F) progress source = .error e ∧ fatal e := by
  rcases hS.readFull progress.whole 2 [] h with ⟨source', hr, hs⟩ | ⟨e, source', hr, hf⟩
  · rw [List.nil_append] at hr
    refine .inl ⟨BufReader.withCapacity ioChunkBytes ⟨⟨P.take 2⟩, ⟨source', false, progress⟩⟩,
      ⟨P, rfl, P.drop 2, (List.take_append_drop 2 P).symm, hs⟩, ?_⟩
    simp only [new, hr]
  · exact .inr ⟨e, by simp only [new, hr], hf⟩

end DvzipDecoder

end Omdrop.Proto
