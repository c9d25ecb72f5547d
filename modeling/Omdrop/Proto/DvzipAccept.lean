import Omdrop.Stream.Outcome
import Omdrop.Proto.DvzipStream
import Omdrop.Proto.Framing

namespace Omdrop.Proto

open Omdrop.Stream

/-!
# What the DVZip decoder accepts

`DvzipStream` has the decoder deliver what a well-formed body decodes to.  Here is the converse:
a decoder that comes to a clean end has read a well-formed body, and delivered what it decodes
to; over any other body it fails (`DvzipDecoder.accepts_iff`).  The argument goes against the
run: what was still due after a call, behind what the call took and delivered, was due before it.
-/

/-- A source that answers its bytes, in cuts of its choosing, and never fails. -/
structure Plain {γ π R : Type} [Read γ π R] (S : R → List UInt8 → Prop) : Prop where
  steady : Steady (fun _ => False) S
  quiet : ∀ {c n r r' e P}, S r P → Read.read c n r ≠ (.error e, r')

section Blocks

variable {F : Flate2} {R : Type} [FiniteRead Bool Payload R] {S : R → List UInt8 → Prop}
  {Zlib : List UInt8 → List UInt8 → Prop} {Rest : F.zlib.State → List UInt8 → List UInt8 → Prop}
  {inner inner' : Sniffed R} {block block' : Block F.zlib.State} {P : List UInt8} {n : Nat}

/-- What is due of a body before a call that answers `out`, when `P'` is to come after it. -/
def Behind (Due : List UInt8 → List UInt8 → Prop) (Due' : List UInt8 → List UInt8 → Prop)
    (P P' out : List UInt8) : Prop :=
  ∀ D', Due' P' D' → Due P (out ++ D')

/-- What a compressed block takes of what it is shown is the front of what is to come. -/
theorem Shown.taken (hS : Steady (fun _ => False) S) {left : Nat} {shown : List UInt8}
    {zlib : F.zlib.State} {fed : Fed F.zlib.State} (h : Shown left inner shown inner')
    (hfeed : F.zlib.feed zlib (shown.take left) n = .ok fed) (hc : Sniffed.Coming S inner P) :
    ∃ P', Sniffed.Coming S (inner'.consume fed.consumed) P' ∧ fed.consumed ≤ left ∧
      ((shown.take left).take fed.consumed).length = fed.consumed ∧
      P = (shown.take left).take fed.consumed ++ P' := by
  obtain ⟨_, hpre, _, hconsume⟩ := h.coming hS hc
  have hle := F.zlib.consumed_le hfeed
  have hshown := consumed_le_shown hfeed
  refine ⟨P.drop fed.consumed, hconsume _ hshown, hle.trans (List.length_take_le _ _),
    List.length_take_of_le hle, ?_⟩
  have htake : (shown.take left).take fed.consumed = P.take fed.consumed := by
    rw [List.take_take, min_eq_left (hle.trans (List.length_take_le _ _)),
      List.prefix_iff_eq_take.mp hpre, List.take_take, min_eq_left hshown]
  rw [htake, List.take_append_drop]

/-- **A turn, backwards.**  What is due after a turn, behind what it took, was due before. -/
theorem Turn.backward (hdec : F.zlib.Decodes Rest) (hinit : ∀ i o, Rest F.zlib.init i o → Zlib i o)
    (hS : Steady (fun _ => False) S) {out : Option (List UInt8)}
    (h : Turn F n inner block (.ok out) inner' block') (hc : Sniffed.Coming S inner P)
    (hdone : block ≠ .done) :
    ∃ P', Sniffed.Coming S inner' P' ∧
      Behind (BlockDue Zlib Rest block) (BlockDue Zlib Rest block') P P' (out.getD []) ∧
      if out = some [] then block' = .done ∧ P' = [] else block' ≠ .done := by
  have hsteady := Sniffed.steady hS
  have houtput (produced : List UInt8) :
      (if produced = [] then none else some produced).getD [] = produced ∧
        (if produced = [] then none else some produced) ≠ some ([] : List UInt8) := by
    split
    · rename_i hnil
      exact ⟨hnil.symm, by simp⟩
    · rename_i hne
      exact ⟨rfl, by simpa using hne⟩
  generalize hres : Except.ok out = res at h
  cases h with
  | done => exact absurd rfl hdone
  | bodyEnd hr =>
    cases hres
    rcases readFull_header hS hc _ hr with ⟨h, hc'⟩ | ⟨_, _, _, hf⟩
    · -- nothing came where a header should be, so nothing was to come
      have hP : P = [] := by
        have htake : P.take 4 = [] := (Except.ok.inj h).symm
        simpa using htake
      subst hP
      refine ⟨[], by simpa using hc', ?_, by simp⟩
      intro D' hD'
      cases hD'
      exact .header .nil
    · exact hf.elim
  | stored hr hlen hvalue =>
    cases hres
    rcases readFull_header hS hc _ hr with ⟨h, hc'⟩ | ⟨_, _, _, hf⟩
    · cases h
      refine ⟨P.drop 4, hc', ?_, by simp⟩
      intro D' hD'
      show BlockDue Zlib Rest .header P D'
      rw [← List.take_append_drop 4 P]
      generalize P.drop 4 = P₁ at hD' ⊢
      cases hD' with
      | stored hdata hb => exact .header (.stored hlen (by rw [hvalue, hdata]) hb)
    · exact hf.elim
  | compressed hr hlen hvalue =>
    cases hres
    rcases readFull_header hS hc _ hr with ⟨h, hc'⟩ | ⟨_, _, _, hf⟩
    · cases h
      refine ⟨P.drop 4, hc', ?_, by simp⟩
      intro D' hD'
      show BlockDue Zlib Rest .header P D'
      rw [← List.take_append_drop 4 P]
      generalize P.drop 4 = P₁ at hD' ⊢
      cases hD' with
      | compressed hz hrest hb =>
        exact .header (.compressed hlen hz.symm (hz ▸ hvalue) (hinit _ _ hrest) hb)
    · exact hf.elim
  -- at the end of a block the next header is due, as it was after an empty one
  | storedEnd =>
    cases hres
    refine ⟨P, hc, ?_, by simp⟩
    intro D' hD'
    cases hD' with
    | header hb => exact @BlockDue.stored _ Zlib Rest 0 [] P D' rfl hb
  | @storedData left bs _ hleft hne hr =>
    cases hres
    -- the bytes that were read are the front of what was to come
    obtain ⟨P', rfl, hc'⟩ := hsteady.ok hc hr
    have hle := (Read.length_read hr).trans (min_le_right _ _)
    refine ⟨P', hc', ?_, by simp [hne]⟩
    intro D' hD'
    cases hD' with
    | @stored _ data P₁ D₁ hdata hb =>
      show BlockDue Zlib Rest (.stored left) (bs ++ (data ++ P₁)) (bs ++ (data ++ D₁))
      rw [← List.append_assoc, ← List.append_assoc]
      exact .stored (by rw [List.length_append]; omega) hb
  | @zlibEnded left zlib shown inner₁ fed hshown hfeed hend hleft =>
    cases hres
    -- zlib has ended, and so has the block with it
    obtain ⟨P', hc', hle, hlen, rfl⟩ := hshown.taken hS hfeed hc
    obtain ⟨hget, hne⟩ := houtput fed.produced
    refine ⟨P', hc', ?_, by rw [if_neg hne]; simp⟩
    intro D' hD'
    rw [hget]
    cases hD' with
    | header hb => exact .compressed (by omega) (hdec.ended hfeed hend) hb
  | @zlibGoing left zlib shown inner₁ fed hshown hfeed hend hgoing =>
    cases hres
    -- zlib goes on with what the block has left
    obtain ⟨P', hc', hle, hlen, rfl⟩ := hshown.taken hS hfeed hc
    obtain ⟨hget, hne⟩ := houtput fed.produced
    refine ⟨P', hc', ?_, by rw [if_neg hne]; simp⟩
    intro D' hD'
    rw [hget]
    cases hD' with
    | @compressed _ _ z data P₁ D₁ hz hrest hb =>
      rw [← List.append_assoc, ← List.append_assoc]
      exact .compressed (by rw [List.length_append]; omega) (hdec.going hfeed hend hrest) hb
  | _ => cases hres

/-- A turn that is interrupted leaves everything as it was. -/
theorem Turn.unchanged (hS : Steady (fun _ => False) S) {e : IoErr}
    (h : Turn F n inner block (.error e) inner' block') (hi : e.isInterrupted = true)
    (hc : Sniffed.Coming S inner P) : Sniffed.Coming S inner' P ∧ block' = block := by
  generalize hres : Except.error e = res at h
  cases h with
  | headerFailed hr =>
    cases hres
    obtain ⟨_, _, _, _, _, hn⟩ := readFull_failed hr
    rw [hi] at hn
    cases hn
  | storedFailed _ hr =>
    cases hres
    exact ⟨(Sniffed.steady hS).interrupted hc hr hi, rfl⟩
  | zlibFailed _ hf =>
    cases hres
    rcases BufReader.Ahead.fillBuf_error (Chain.steady (Source.steady hS)) hc hf with ⟨_, hc'⟩ | hf
    · exact ⟨hc', rfl⟩
    · exact hf.2.elim
  | headerShort => cases hres; simp at hi
  | storedShort => cases hres; simp at hi
  | zlibShort => cases hres; simp at hi
  | zlibBad => cases hres; simp at hi
  | zlibTrailing => cases hres; simp at hi
  | zlibStuck => cases hres; simp at hi
  | _ => cases hres

/-- **A call, backwards.** -/
theorem readBlocks_backward (hdec : F.zlib.Decodes Rest)
    (hinit : ∀ i o, Rest F.zlib.init i o → Zlib i o) (hS : Steady (fun _ => False) S)
    {bs : List UInt8} (h : readBlocks F n inner block = (.ok bs, inner', block'))
    (hc : Sniffed.Coming S inner P) (hdone : block ≠ .done) :
    ∃ P', Sniffed.Coming S inner' P' ∧
      Behind (BlockDue Zlib Rest block) (BlockDue Zlib Rest block') P P' bs ∧
      if bs = [] then block' = .done ∧ P' = [] else block' ≠ .done := by
  fun_induction readBlocks F n inner block generalizing P with
  | case1 => cases h
  | case2 inner block out inner₁ block₁ hs =>
    cases h
    simpa using (turn_blockStep hs).backward hdec hinit hS hc hdone
  | case3 inner block inner₁ block₁ hs ih =>
    obtain ⟨P₁, hc₁, hback₁, hdone₁⟩ := (turn_blockStep hs).backward hdec hinit hS hc hdone
    obtain ⟨P', hc', hback, hend⟩ := ih h hc₁ hdone₁
    exact ⟨P', hc', fun D' hD' => hback₁ _ (hback D' hD'), hend⟩

/-- A call that is interrupted has only gone on to where what was due is still due. -/
private theorem readBlocks_interrupted (hdec : F.zlib.Decodes Rest)
    (hinit : ∀ i o, Rest F.zlib.init i o → Zlib i o) (hS : Steady (fun _ => False) S)
    {e : IoErr} (h : readBlocks F n inner block = (.error e, inner', block'))
    (hi : e.isInterrupted = true) (hc : Sniffed.Coming S inner P) (hdone : block ≠ .done) :
    ∃ P', Sniffed.Coming S inner' P' ∧
      Behind (BlockDue Zlib Rest block) (BlockDue Zlib Rest block') P P' [] ∧ block' ≠ .done := by
  fun_induction readBlocks F n inner block generalizing P with
  | case1 inner block e₁ inner₁ block₁ hs =>
    cases h
    obtain ⟨hc', rfl⟩ := (turn_blockStep hs).unchanged hS hi hc
    exact ⟨P, hc', fun D' hD' => hD', hdone⟩
  | case2 => cases h
  | case3 inner block inner₁ block₁ hs ih =>
    obtain ⟨P₁, hc₁, hback₁, hdone₁⟩ := (turn_blockStep hs).backward hdec hinit hS hc hdone
    obtain ⟨P', hc', hback, hend⟩ := ih h hc₁ hdone₁
    exact ⟨P', hc', fun D' hD' => hback₁ _ (hback D' hD'), hend⟩

/-! ### Every reading comes to something -/

/-- How much output a decoder among blocks has left for what it has taken. -/
def Block.backlog {σ : Type} (backlog : σ → Nat) : Block σ → Nat
  | .compressed _ zlib => backlog zlib
  | _                  => 0

/-- What is left of a body and of the output of what was taken. -/
def rest (left : Nat) (inner : Sniffed R) : ℕ ×ₗ ℕ :=
  toLex (FiniteRead.size inner + Read.patience inner, left)

/-- Less to come or less patience is less left. -/
theorem rest_lt_of_size {left left' : Nat}
    (h : FiniteRead.size inner' + Read.patience inner' <
      FiniteRead.size inner + Read.patience inner) : rest left' inner' < rest left inner :=
  Prod.Lex.toLex_lt_toLex.mpr (.inl h)

/-- Less of a block is less left. -/
theorem rest_lt_of_left {left left' : Nat} (hs : FiniteRead.size inner' ≤ FiniteRead.size inner)
    (hp : Read.patience inner' ≤ Read.patience inner) (h : left' < left) :
    rest left' inner' < rest left inner := by
  rcases (Nat.add_le_add hs hp).lt_or_eq with hlt | heq
  · exact rest_lt_of_size hlt
  · exact Prod.Lex.toLex_lt_toLex.mpr (.inr ⟨heq, h⟩)

/-- No more of a block is no more left. -/
theorem rest_le_of_left {left left' : Nat} (hs : FiniteRead.size inner' ≤ FiniteRead.size inner)
    (hp : Read.patience inner' ≤ Read.patience inner) (h : left' ≤ left) :
    rest left' inner' ≤ rest left inner := by
  rcases (Nat.add_le_add hs hp).lt_or_eq with hlt | heq
  · exact (rest_lt_of_size hlt).le
  · exact Prod.Lex.toLex_le_toLex.mpr (.inr ⟨heq, h⟩)

/-- What a decoder's call takes or brings out uses up what is left. -/
theorem Shown.uses {backlog : F.zlib.State → Nat}
    (hfin : ∀ {s input room f}, F.zlib.feed s input room = .ok f → f.consumed = 0 →
      f.produced ≠ [] → backlog f.state < backlog s) {left left' : Nat} {shown : List UInt8}
    {zlib : F.zlib.State} {fed : Fed F.zlib.State} (h : Shown left inner shown inner')
    (hfeed : F.zlib.feed zlib (shown.take left) n = .ok fed)
    (hleft : left' ≤ backlog fed.state) (hgoing : fed.consumed ≠ 0 ∨ fed.produced ≠ []) :
    rest left' (inner'.consume fed.consumed) < rest (backlog zlib) inner := by
  obtain ⟨hsize, hless⟩ := h.size_consume (consumed_le_shown hfeed)
  have hpat : Read.patience (inner'.consume fed.consumed) ≤ Read.patience inner :=
    (h.patience_le :)
  by_cases hzero : fed.consumed = 0
  · have hprod : fed.produced ≠ [] := hgoing.resolve_left (not_not.mpr hzero)
    exact rest_lt_of_left hsize hpat (hleft.trans_lt (hfin hfeed hzero hprod))
  · have := hless (Nat.pos_of_ne_zero hzero)
    exact rest_lt_of_size (by omega)

/-- A turn uses up what is left, and with output some of it. -/
theorem Turn.uses {backlog : F.zlib.State → Nat}
    (hfin : ∀ {s input room f}, F.zlib.feed s input room = .ok f → f.consumed = 0 →
      f.produced ≠ [] → backlog f.state < backlog s) {out : Option (List UInt8)}
    (h : Turn F n inner block (.ok out) inner' block') :
    rest (block'.backlog backlog) inner' ≤ rest (block.backlog backlog) inner ∧
      ∀ b bs, out = some (b :: bs) →
        rest (block'.backlog backlog) inner' < rest (block.backlog backlog) inner := by
  have hsize := h.size_le
  have hpat := h.patience_le
  -- a header takes bytes from the stream, so there is less to come
  have hheader : out = none → (∃ left, block' = .stored left) ∨
      (∃ left zlib, block' = .compressed left zlib) → block = .header →
      rest (block'.backlog backlog) inner' < rest (block.backlog backlog) inner := by
    rintro rfl hblock rfl
    have hless := h.measure_lt
    apply rest_lt_of_size
    rcases hblock with ⟨left, rfl⟩ | ⟨left, zlib, rfl⟩
    · simp only [blockMeasure] at hless
      omega
    · simp only [blockMeasure] at hless
      omega
  generalize hres : Except.ok out = res at h
  cases h with
  | done =>
    cases hres
    exact ⟨le_rfl, by simp⟩
  | bodyEnd hr =>
    cases hres
    exact ⟨rest_le_of_left hsize hpat le_rfl, by simp⟩
  | stored hr hlen hvalue =>
    cases hres
    exact ⟨(hheader rfl (.inl ⟨_, rfl⟩) rfl).le, by simp⟩
  | compressed hr hlen hvalue =>
    cases hres
    exact ⟨(hheader rfl (.inr ⟨_, _, rfl⟩) rfl).le, by simp⟩
  -- no byte is taken or given at the end of a block
  | storedEnd =>
    cases hres
    exact ⟨le_rfl, by simp⟩
  -- what is given was read, so there is less to come
  | @storedData left bs _ hleft hne hr =>
    cases hres
    obtain ⟨b, bs, rfl⟩ := List.exists_cons_of_ne_nil hne
    have hlt : rest (Block.backlog backlog (.stored (left - (b :: bs).length))) inner' <
        rest (Block.backlog backlog (.stored left)) inner := by
      have := FiniteRead.size_read_lt hr
      exact rest_lt_of_size (by omega)
    exact ⟨hlt.le, fun _ _ _ => hlt⟩
  | @zlibEnded left zlib shown inner₁ fed hshown hfeed hend hleft =>
    cases hres
    -- zlib gives what it has kept back, and has less of that then
    by_cases hprod : fed.produced = []
    · refine ⟨rest_le_of_left hsize hpat (Nat.zero_le _), ?_⟩
      rw [if_pos hprod]
      simp
    · have hlt := hshown.uses hfin hfeed (Nat.zero_le _) (.inr hprod)
      exact ⟨hlt.le, fun _ _ _ => hlt⟩
  | @zlibGoing left zlib shown inner₁ fed hshown hfeed hend hgoing =>
    cases hres
    have hlt := hshown.uses hfin hfeed le_rfl (by
      by_contra hnot
      rw [not_or, not_not, not_not] at hnot
      exact hgoing ⟨hnot.2, hnot.1⟩)
    exact ⟨hlt.le, fun _ _ _ => hlt⟩
  | _ => cases hres

/-- So does a call. -/
private theorem readBlocks_uses {backlog : F.zlib.State → Nat}
    (hfin : ∀ {s input room f}, F.zlib.feed s input room = .ok f → f.consumed = 0 →
      f.produced ≠ [] → backlog f.state < backlog s) {b : UInt8} {bs : List UInt8}
    (h : readBlocks F n inner block = (.ok (b :: bs), inner', block')) :
    rest (block'.backlog backlog) inner' < rest (block.backlog backlog) inner := by
  fun_induction readBlocks F n inner block with
  | case1 => cases h
  | case2 inner block out inner₁ block₁ hs =>
    cases h
    exact ((turn_blockStep hs).uses hfin).2 b bs rfl
  | case3 inner block inner₁ block₁ hs ih =>
    exact (ih h).trans_le ((turn_blockStep hs).uses hfin).1

/-- Reading blocks leaves no more than there was. -/
private theorem size_readBlocks (n : Nat) (inner : Sniffed R) (block : Block F.zlib.State) :
    FiniteRead.size (readBlocks F n inner block).2.1 ≤ FiniteRead.size inner := by
  fun_induction readBlocks F n inner block with
  | case1 _ _ _ _ _ h => exact (turn_blockStep h).size_le
  | case2 _ _ _ _ _ h => exact (turn_blockStep h).size_le
  | case3 _ _ _ _ h ih => exact ih.trans (turn_blockStep h).size_le

end Blocks

/-! ### Gzip members -/

namespace DvzipDecoder

section Gzip

variable {F : Flate2} {R : Type} [FiniteRead Bool Payload R] {S : R → List UInt8 → Prop}
  {Rest : F.gunzip.State → List UInt8 → List UInt8 → Prop} {inner inner' : Sniffed R}
  {member member' : Option F.gunzip.State} {P : List UInt8} {n : Nat}

/-- What a member's decoder takes of what it is shown is the front of what is to come. -/
theorem gunzip_taken (hS : Steady (fun _ => False) S) {state : F.gunzip.State}
    {shown : List UInt8} {fed : Fed F.gunzip.State} (hf : inner.fillBuf () = (.ok shown, inner'))
    (hfeed : F.gunzip.feed state shown n = .ok fed) (hc : Sniffed.Coming S inner P) :
    ∃ P', Sniffed.Coming S (inner'.consume fed.consumed) P' ∧
      P = shown.take fed.consumed ++ P' := by
  obtain ⟨hc₁, hpre, _⟩ := BufReader.Ahead.fillBuf (Chain.steady (Source.steady hS)) hc hf
  have hle := F.gunzip.consumed_le hfeed
  refine ⟨P.drop fed.consumed, BufReader.Ahead.consume hc₁ ?_, ?_⟩
  · rw [BufReader.buffer_of_fillBuf_ok hf]
    exact hle
  · have htake : shown.take fed.consumed = P.take fed.consumed := by
      rw [List.prefix_iff_eq_take.mp hpre, List.take_take, min_eq_left hle]
    rw [htake, List.take_append_drop]

/-- **A call on a member, backwards.** -/
theorem readGzip_backward (hdec : F.gunzip.Decodes Rest) (hS : Steady (fun _ => False) S)
    {bs : List UInt8} (h : readGzip F n inner member = (.ok bs, inner', member'))
    (hc : Sniffed.Coming S inner P) :
    ∃ P', Sniffed.Coming S inner' P' ∧ Behind (MemberDue Rest member) (MemberDue Rest member') P P' bs ∧
      (bs = [] → member' = none) := by
  fun_induction readGzip F n inner member generalizing P with
  | case1 inner =>
    cases h
    exact ⟨P, hc, fun D' hD' => hD', fun _ => rfl⟩
  | case2 => cases h
  | case3 => cases h
  | case4 inner state shown inner₁ hf fed hfeed inner₂ =>
    rename_i hend
    obtain ⟨P', hc', rfl⟩ := gunzip_taken hS hf hfeed hc
    obtain ⟨hres, hrest'⟩ := Prod.mk.inj h
    obtain ⟨rfl, rfl⟩ := Prod.mk.inj hrest'
    cases hres
    refine ⟨P', hc', ?_, fun _ => rfl⟩
    rintro D' ⟨rfl, rfl⟩
    show Rest state (_ ++ []) (_ ++ [])
    rw [List.append_nil, List.append_nil]
    exact hdec.ended hfeed hend
  | case5 inner state shown inner₁ hf fed hfeed inner₂ hend =>
    rename_i hprod
    obtain ⟨P', hc', rfl⟩ := gunzip_taken hS hf hfeed hc
    obtain ⟨hres, hrest'⟩ := Prod.mk.inj h
    obtain ⟨rfl, rfl⟩ := Prod.mk.inj hrest'
    cases hres
    refine ⟨P', hc', ?_, fun hnil => absurd hnil hprod⟩
    intro D' hD'
    exact hdec.going hfeed (by simpa using hend) hD'
  | case6 => cases h
  | case7 inner state shown inner₁ hf fed hfeed inner₂ hend hprod _ =>
    rename_i ih
    rw [not_not] at hprod
    obtain ⟨P₁, hc₁, rfl⟩ := gunzip_taken hS hf hfeed hc
    obtain ⟨P', hc', hback, hnone⟩ := ih h hc₁
    refine ⟨P', hc', ?_, hnone⟩
    intro D' hD'
    have hgoing := hdec.going hfeed (by simpa using hend) (hback D' hD')
    rw [hprod, List.nil_append] at hgoing
    exact hgoing

/-- A call on a member uses up what is left. -/
private theorem readGzip_uses {backlog : F.gunzip.State → Nat}
    (hfin : ∀ {s input room f}, F.gunzip.feed s input room = .ok f → f.consumed = 0 →
      f.produced ≠ [] → backlog f.state < backlog s) {b : UInt8} {bs : List UInt8}
    (h : readGzip F n inner member = (.ok (b :: bs), inner', member')) :
    rest (member'.elim 0 backlog) inner' < rest (member.elim 0 backlog) inner := by
  have huses : ∀ {inner inner₁ : Sniffed R} {state shown left'} {fed : Fed F.gunzip.State},
      inner.fillBuf () = (.ok shown, inner₁) → F.gunzip.feed state shown n = .ok fed →
      fed.produced ≠ [] → left' ≤ backlog fed.state →
      rest left' (inner₁.consume fed.consumed) < rest (backlog state) inner := by
    intro inner inner₁ state shown left' fed hf hfeed hprod hleft
    have hle := F.gunzip.consumed_le hfeed
    have hpat : Read.patience (inner₁.consume fed.consumed) ≤ Read.patience inner :=
      (BufReader.patience_fillBuf hf :)
    by_cases hzero : fed.consumed = 0
    · have hsize : FiniteRead.size (inner₁.consume fed.consumed) ≤ FiniteRead.size inner :=
        (Nat.le.intro (BufReader.size_consume _ _)).trans (BufReader.size_fillBuf hf)
      exact rest_lt_of_left hsize hpat (hleft.trans_lt (hfin hfeed hzero hprod))
    · have hless : FiniteRead.size (inner₁.consume fed.consumed) < FiniteRead.size inner :=
        BufReader.size_fillBuf_consume hf (Nat.pos_of_ne_zero hzero) hle
      exact rest_lt_of_size (by omega)
  fun_induction readGzip F n inner member with
  | case1 => cases h
  | case2 => cases h
  | case3 => cases h
  | case4 inner state shown inner₁ hf fed hfeed inner₂ hend =>
    obtain ⟨hres, hrest'⟩ := Prod.mk.inj h
    obtain ⟨rfl, rfl⟩ := Prod.mk.inj hrest'
    have hprod : fed.produced ≠ [] := by
      rw [Except.ok.inj hres]
      simp
    exact huses hf hfeed hprod (Nat.zero_le _)
  | case5 inner state shown inner₁ hf fed hfeed inner₂ hend hprod =>
    obtain ⟨hres, hrest'⟩ := Prod.mk.inj h
    obtain ⟨rfl, rfl⟩ := Prod.mk.inj hrest'
    exact huses hf hfeed hprod le_rfl
  | case6 => cases h
  | case7 inner state shown inner₁ hf fed hfeed inner₂ hend hprod hzero ih =>
    have hless : FiniteRead.size inner₂ < FiniteRead.size inner :=
      BufReader.size_fillBuf_consume hf (Nat.pos_of_ne_zero hzero) (F.gunzip.consumed_le hfeed)
    have hpat : Read.patience inner₂ ≤ Read.patience inner := (BufReader.patience_fillBuf hf :)
    exact (ih h).trans (rest_lt_of_size (by omega))

/-- Reading gzip leaves no more than there was. -/
private theorem size_readGzip (n : Nat) (inner : Sniffed R) (member : Option F.gunzip.State) :
    FiniteRead.size (readGzip F n inner member).2.1 ≤ FiniteRead.size inner := by
  have hconsume : ∀ {inner inner₁ : Sniffed R} {shown} (k : Nat),
      inner.fillBuf () = (.ok shown, inner₁) →
      FiniteRead.size (inner₁.consume k) ≤ FiniteRead.size inner := fun k hf =>
    (Nat.le.intro (BufReader.size_consume _ _)).trans (BufReader.size_fillBuf hf)
  fun_induction readGzip F n inner member with
  | case1 => exact le_rfl
  | case2 _ _ _ _ h => exact BufReader.size_fillBuf h
  | case3 _ _ _ _ h => exact BufReader.size_fillBuf h
  | case4 _ _ _ _ h => exact hconsume _ h
  | case5 _ _ _ _ h => exact hconsume _ h
  | case6 _ _ _ _ h => exact hconsume _ h
  | case7 _ _ _ _ h _ _ _ _ _ _ ih => exact ih.trans (hconsume _ h)

end Gzip

/-! ### The decoder -/

section Decoder

variable {F : Flate2} {R : Type} [FiniteRead Bool Payload R] {S : R → List UInt8 → Prop}
  {Zlib Gzip : List UInt8 → List UInt8 → Prop}
  {RestZ : F.zlib.State → List UInt8 → List UInt8 → Prop}
  {RestG : F.gunzip.State → List UInt8 → List UInt8 → Prop}

/-- `P` is still to come of a body whose decoder is on its way, and `D` it brings. -/
def Due (Zlib : List UInt8 → List UInt8 → Prop)
    (RestZ : F.zlib.State → List UInt8 → List UInt8 → Prop)
    (RestG : F.gunzip.State → List UInt8 → List UInt8 → Prop) (d : DvzipDecoder F R)
    (P D : List UInt8) : Prop :=
  match d.body with
  | .gzip _ member  => MemberDue RestG member P D
  | .blocks _ block => BlockDue Zlib RestZ block P D

/-- The decoder has not come to the end. -/
def Live (d : DvzipDecoder F R) : Prop :=
  match d.body with
  | .gzip _ _       => True
  | .blocks _ block => block ≠ .done

/-- Over a plain source the buffer can always be filled. -/
theorem fillBuf_ne_error (hS : Plain S) {inner inner' : Sniffed R} {P : List UInt8} {e : IoErr}
    (hc : Sniffed.Coming S inner P) : inner.fillBuf () ≠ (.error e, inner') := by
  intro hf
  exact (fatal_of_fillBuf hS.steady (fun hs hr => absurd hr (hS.quiet hs)) hf hc).1

omit [FiniteRead Bool Payload R] in
/-- A failure of gzip is no interruption. -/
private theorem gzipError_not_interrupted {inner : Sniffed R} {e : IoErr}
    (h : e.isInterrupted = false) : (gzipError e inner).isInterrupted = false := by
  unfold gzipError
  split_ifs
  · exact h
  · rfl
  · rfl

/-- A call on a member that fails is not one to be made again. -/
private theorem readGzip_not_interrupted (hS : Plain S) {inner inner' : Sniffed R}
    {member member' : Option F.gunzip.State} {P : List UInt8} {n : Nat} {e : IoErr}
    (h : readGzip F n inner member = (.error e, inner', member')) (hc : Sniffed.Coming S inner P) :
    e.isInterrupted = false := by
  fun_induction readGzip F n inner member generalizing P with
  | case1 => cases h
  | case2 inner state e₁ inner₁ hf => exact absurd hf (fillBuf_ne_error hS hc)
  | case3 inner state shown inner₁ hf e₁ hfeed =>
    cases h
    rfl
  | case4 => cases h
  | case5 => cases h
  | case6 inner state shown inner₁ hf fed hfeed inner₂ hend hprod =>
    cases (Prod.mk.inj h).1
    exact isInterrupted_memberError shown
  | case7 inner state shown inner₁ hf fed hfeed inner₂ hend hprod _ =>
    rename_i ih
    obtain ⟨P₁, hc₁, _⟩ := gunzip_taken hS.steady hf hfeed hc
    exact ih h hc₁

/-- **A call, backwards.** -/
theorem read_backward (hz : F.zlib.Decodes RestZ) (hinit : ∀ i o, RestZ F.zlib.init i o → Zlib i o)
    (hg : F.gunzip.Decodes RestG) (hS : Plain S) {n : Nat} {d d' : DvzipDecoder F R}
    {bs P : List UInt8} (h : d.read n = (.ok bs, d')) (hn : 0 < n) (hlive : Live d)
    (hc : Sniffed.Coming S d.body.inner P) :
    ∃ P', Sniffed.Coming S d'.body.inner P' ∧
      Behind (Due Zlib RestZ RestG d) (Due Zlib RestZ RestG d') P P' bs ∧
      if bs = [] then Due Zlib RestZ RestG d' P' [] else Live d' := by
  obtain ⟨body⟩ := d
  rw [read, if_neg (by omega)] at h
  cases body with
  -- behind a member nothing may come
  | gzip inner member =>
    simp only at h
    split at h
    · cases h
    · rename_i b bs inner₁ member₁ hr
      cases h
      obtain ⟨P', hc', hback, _⟩ := readGzip_backward hg hS.steady hr hc
      exact ⟨P', hc', hback, trivial⟩
    · rename_i inner₁ member₁ hr
      obtain ⟨P', hc', hback, hnone⟩ := readGzip_backward hg hS.steady hr hc
      have hclean : Sniffed.Coming S (inner₁.setCleanEnd inner₁.buffer.isEmpty) P' := by
        rwa [Sniffed.setCleanEnd, Sniffed.coming_mapProgress]
      split at h
      · cases h
      · rename_i inner₂ hf
        cases h
        obtain ⟨hc₂, _, hnil⟩ :=
          BufReader.Ahead.fillBuf (Chain.steady (Source.steady hS.steady)) hclean hf
        obtain rfl := hnil rfl
        refine ⟨[], hc₂, hback, ?_⟩
        rw [if_pos rfl, hnone rfl]
        exact ⟨rfl, rfl⟩
      · cases h
  -- an empty read ends the last block
  | blocks inner block =>
    rcases hr : readBlocks F n inner block with ⟨res, inner₁, block₁⟩
    simp only [hr] at h
    cases h
    obtain ⟨P', hc', hback, hend⟩ := readBlocks_backward hz hinit hS.steady hr hc hlive
    refine ⟨P', hc', hback, ?_⟩
    by_cases hnil : bs = []
    · rw [if_pos hnil] at hend ⊢
      obtain ⟨rfl, rfl⟩ := hend
      exact BlockDue.done
    · rw [if_neg hnil] at hend ⊢
      exact hend

/-- A call that is interrupted, backwards. -/
private theorem read_interrupted (hz : F.zlib.Decodes RestZ)
    (hinit : ∀ i o, RestZ F.zlib.init i o → Zlib i o) (hg : F.gunzip.Decodes RestG) (hS : Plain S)
    {n : Nat} {d d' : DvzipDecoder F R} {P : List UInt8} {e : IoErr} (h : d.read n = (.error e, d'))
    (hi : e.isInterrupted = true) (hn : 0 < n) (hlive : Live d)
    (hc : Sniffed.Coming S d.body.inner P) :
    ∃ P', Sniffed.Coming S d'.body.inner P' ∧
      Behind (Due Zlib RestZ RestG d) (Due Zlib RestZ RestG d') P P' [] ∧ Live d' := by
  obtain ⟨body⟩ := d
  rw [read, if_neg (by omega)] at h
  cases body with
  | gzip inner member =>
    -- a member's decoder turns an interruption into a verdict, and a plain source has none
    simp only at h
    split at h
    · rename_i hr
      cases h
      rw [gzipError_not_interrupted (readGzip_not_interrupted hS hr hc)] at hi
      cases hi
    · cases h
    · rename_i inner₁ member₁ hr
      obtain ⟨P', hc', _⟩ := readGzip_backward hg hS.steady hr hc
      have hclean : Sniffed.Coming S (inner₁.setCleanEnd inner₁.buffer.isEmpty) P' := by
        rwa [Sniffed.setCleanEnd, Sniffed.coming_mapProgress]
      split at h
      · rename_i hf
        exact absurd hf (fillBuf_ne_error hS hclean)
      · cases h
      · cases h
        simp at hi
  | blocks inner block =>
    rcases hr : readBlocks F n inner block with ⟨res, inner₁, block₁⟩
    simp only [hr] at h
    cases h
    exact readBlocks_interrupted hz hinit hS.steady hr hi hc hlive

/-- **A reading, backwards.**  What a decoder delivered up to a clean end is what was due. -/
theorem drains_due (hz : F.zlib.Decodes RestZ) (hinit : ∀ i o, RestZ F.zlib.init i o → Zlib i o)
    (hg : F.gunzip.Decodes RestG) (hS : Plain S) {room : Nat → ℕ+} {k : Nat}
    {d d' : DvzipDecoder F R} {D P : List UInt8} (h : Drains () room k d D d') (hlive : Live d)
    (hc : Sniffed.Coming S d.body.inner P) : Due Zlib RestZ RestG d P D := by
  induction h generalizing P with
  | @finished k d d' hr =>
    obtain ⟨P', _, hback, hend⟩ := read_backward hz hinit hg hS hr (room k).pos hlive hc
    exact hback [] hend
  | @more k d d₁ d' b bs D hr _ ih =>
    obtain ⟨P', hc', hback, hlive'⟩ := read_backward hz hinit hg hS hr (room k).pos hlive hc
    exact hback D (ih hlive' hc')
  | @interrupted k d d₁ d' e D hr hi _ ih =>
    obtain ⟨P', hc', hback, hlive'⟩ :=
      read_interrupted hz hinit hg hS hr hi (room k).pos hlive hc
    exact hback D (ih hlive' hc')

/-- What is left of a body and of a decoder's output. -/
def left (backlogZ : F.zlib.State → Nat) (backlogG : F.gunzip.State → Nat)
    (d : DvzipDecoder F R) : ℕ ×ₗ ℕ :=
  match d.body with
  | .gzip inner member  => rest (member.elim 0 backlogG) inner
  | .blocks inner block => rest (block.backlog backlogZ) inner

/-- Every reading comes to an end or to a failure. -/
private theorem comes_out (hz : F.zlib.Bounded) (hg : F.gunzip.Bounded) (room : Nat → ℕ+) (k : Nat)
    (d : DvzipDecoder F R) :
    (∃ D d', Drains () room k d D d') ∨ ∃ D e d', Breaks () room k d D e d' := by
  obtain ⟨backlogZ, hz⟩ := hz
  obtain ⟨backlogG, hg⟩ := hg
  -- a read that gives bytes leaves less to do, and so does one that is interrupted
  refine drains_or_breaks (left backlogZ backlogG) ?_ ?_ k d
  · intro n d d' b bs h
    obtain ⟨body⟩ := d
    have h : (DvzipDecoder.read n ⟨body⟩) = (.ok (b :: bs), d') := h
    rw [read] at h
    split at h
    · cases h
    · cases body with
      | gzip inner member =>
        simp only at h
        split at h
        · cases h
        · rename_i hr
          cases h
          exact readGzip_uses hg hr
        · split at h
          · cases h
          · cases h
          · cases h
      | blocks inner block =>
        rcases hr : readBlocks F n inner block with ⟨res, inner₁, block₁⟩
        simp only [hr] at h
        cases h
        exact readBlocks_uses hz hr
  · intro n d d' e h hi
    have hpat := Read.patience_interrupted h hi
    obtain ⟨body⟩ := d
    have h : (DvzipDecoder.read n ⟨body⟩) = (.error e, d') := h
    rw [read] at h
    split at h
    · cases h
    · cases body with
      | gzip inner member =>
        have hsize := size_readGzip n inner member
        simp only at h
        split at h
        · rename_i hr
          rw [hr] at hsize
          cases h
          exact rest_lt_of_size (Nat.add_lt_add_of_le_of_lt hsize hpat)
        · cases h
        · rename_i inner₁ member₁ hr
          rw [hr] at hsize
          split at h
          · rename_i hf
            cases h
            have hfill := (BufReader.size_fillBuf hf).trans hsize
            exact rest_lt_of_size (Nat.add_lt_add_of_le_of_lt hfill hpat)
          · cases h
          · cases h
            simp at hi
      | blocks inner block =>
        have hsize := size_readBlocks n inner block
        rcases hr : readBlocks F n inner block with ⟨res, inner₁, block₁⟩
        rw [hr] at hsize
        simp only [hr] at h
        cases h
        exact rest_lt_of_size (Nat.add_lt_add_of_le_of_lt hsize hpat)

end Decoder

end DvzipDecoder

/-! ### Truncations -/

/-- What follows whole blocks in a sequence of blocks is a sequence of blocks. -/
theorem Blocks.rest {Zlib : List UInt8 → List UInt8 → Prop} {P P₂ D D₀ : List UInt8}
    (h : Blocks Zlib P D) (hall : Blocks Zlib (P ++ P₂) D₀) : ∃ D₂, Blocks Zlib P₂ D₂ := by
  induction h generalizing D₀ with
  | nil => exact ⟨D₀, hall⟩
  | stored hlen hvalue _ ih =>
    rw [List.append_assoc, List.append_assoc] at hall
    obtain ⟨data', P', D', hdata, heq, _, hb⟩ := hall.stored_inv hlen hvalue
    obtain ⟨_, rfl⟩ := List.append_inj heq hdata.symm
    exact ih hb
  | compressed hlen hvalue hlt _ _ ih =>
    rw [List.append_assoc, List.append_assoc] at hall
    obtain ⟨z', data', P', D', hz', _, heq, _, hb⟩ := hall.compressed_inv hlen (hvalue ▸ hlt)
    obtain ⟨_, rfl⟩ := List.append_inj heq (hvalue.symm.trans hz'.symm)
    exact ih hb

/-- The front `P` of a body stops between two of its blocks, or before all of them. -/
def AtBoundary (Zlib : List UInt8 → List UInt8 → Prop) (P whole : List UInt8) : Prop :=
  P = [] ∨ whole.take 2 ≠ gzipMagic ∧
    ∃ P₂ D₁ D₂, whole = P ++ P₂ ∧ Blocks Zlib P D₁ ∧ Blocks Zlib P₂ D₂

/-- A truncated body is well formed only where it stops between blocks. -/
private theorem atBoundary_of_archive {Zlib Gzip : List UInt8 → List UInt8 → Prop}
    (hfree : ∀ {i more o o'}, Gzip i o → Gzip (i ++ more) o' → more = [])
    {P P₂ D D₀ : List UInt8} (hall : Archive Zlib Gzip (P ++ P₂) D₀) (h : Archive Zlib Gzip P D)
    (hproper : P₂ ≠ []) : AtBoundary Zlib P (P ++ P₂) := by
  unfold Archive at hall h
  by_cases hlen : 2 ≤ P.length
  · have htake : (P ++ P₂).take 2 = P.take 2 := List.take_append_of_le_length hlen
    rw [htake] at hall
    by_cases hmagic : P.take 2 = gzipMagic
    · rw [if_pos hmagic] at hall h
      exact absurd (hfree h hall) hproper
    · rw [if_neg hmagic] at hall h
      obtain ⟨D₂, hD₂⟩ := h.rest hall
      exact .inr ⟨htake ▸ hmagic, P₂, D, D₂, rfl, h, hD₂⟩
  · -- too short for the gzip magic, and for a header
    have hmagic : P.take 2 ≠ gzipMagic := by
      intro hmagic
      have := congrArg List.length hmagic
      rw [List.length_take] at this
      simp only [gzipMagic, List.length_cons, List.length_nil] at this
      omega
    rw [if_neg hmagic] at h
    exact .inl (h.of_length_lt (by omega)).1

section Accept

variable {F : Flate2} {Zlib Gzip : List UInt8 → List UInt8 → Prop} {R : Type}
  [FiniteRead Bool Payload R] {S : R → List UInt8 → Prop} {source : R} {P : List UInt8}

/-- A clean end, with what was delivered before it. -/
theorem DvzipDecoder.drains_iff_archive (hzlib : F.zlib.Correct Zlib)
    (hgunzip : F.gunzip.Correct Gzip) (hS : Plain S) (hsource : S source P)
    (progress : ExtractProgress) (room : Nat → ℕ+) :
    ∃ d : DvzipDecoder F R, DvzipDecoder.new progress source = .ok d ∧
      ∀ D, (∃ d', Drains () room 0 d D d') ↔ Archive Zlib Gzip P D := by
  obtain ⟨RestZ, hdecZ, hinitZ⟩ := hzlib
  obtain ⟨RestG, hdecG, hinitG⟩ := hgunzip
  rcases DvzipDecoder.new_steady (F := F) hS.steady hsource progress with
    ⟨inner, hcoming, hnew⟩ | ⟨_, _, hf⟩
  swap
  · exact hf.elim
  refine ⟨_, hnew, ?_⟩
  intro D
  unfold Archive
  by_cases hmagic : P.take 2 = gzipMagic
  · rw [if_pos hmagic, if_pos hmagic, hinitG]
    constructor
    · rintro ⟨d', hdrains⟩
      exact drains_due hdecZ (fun i o => (hinitZ i o).mpr) hdecG hS hdrains trivial hcoming
    · intro hgzip
      have hquiet : ∀ {c n r r' e P}, S r P → Read.read c n r = (.error e, r') →
          e.isInterrupted = false := fun hs hr => absurd hr (hS.quiet hs)
      rcases (steady_gzip hdecG hS.steady hquiet).drains () room 0
        ⟨inner, some F.gunzip.init, P, rfl, hcoming, hgzip⟩ with ⟨d', hdrains, _⟩ | ⟨_, _, hf⟩
      · exact ⟨d', hdrains⟩
      · exact hf.elim
  · rw [if_neg hmagic, if_neg hmagic]
    constructor
    · rintro ⟨d', hdrains⟩
      have hdue := drains_due hdecZ (fun i o => (hinitZ i o).mpr) hdecG hS hdrains
        (show Block.header ≠ .done by simp) hcoming
      cases hdue with
      | header hb => exact hb
    · intro hb
      rcases (steady_blocks hdecZ (fun i o => (hinitZ i o).mp) hS.steady).drains () room 0
        ⟨inner, .header, P, rfl, hcoming, .header hb⟩ with ⟨d', hdrains, _⟩ | ⟨_, _, hf⟩
      · exact ⟨d', hdrains⟩
      · exact hf.elim

/-- **What is accepted.**  Over a source of any bytes, in any cuts and whatever the room of the
    calls, the decoder comes to a clean end with the output `D` exactly when the bytes are one
    gzip member of it, if they start as one, or else a sequence of whole blocks of it.  Over any
    other bytes it fails, and so over a body that is cut off anywhere but between its blocks. -/
theorem DvzipDecoder.accepts_iff (hzlib : F.zlib.Correct Zlib) (hgunzip : F.gunzip.Correct Gzip)
    (hz : F.zlib.Bounded) (hg : F.gunzip.Bounded) (hS : Plain S) (hsource : S source P)
    (progress : ExtractProgress) (room : Nat → ℕ+) :
    ∃ d : DvzipDecoder F R, DvzipDecoder.new progress source = .ok d ∧
      (∀ D, (∃ d', Drains () room 0 d D d') ↔ Archive Zlib Gzip P D) ∧
      ((¬ ∃ D, Archive Zlib Gzip P D) → ∃ D e d', Breaks () room 0 d D e d') ∧
      ∀ P₂ D₀, Archive Zlib Gzip (P ++ P₂) D₀ → P₂ ≠ [] → ¬ AtBoundary Zlib P (P ++ P₂) →
        ∃ D e d', Breaks () room 0 d D e d' := by
  obtain ⟨d, hnew, haccepts⟩ :=
    DvzipDecoder.drains_iff_archive hzlib hgunzip hS hsource progress room
  have hbreaks : (¬ ∃ D, Archive Zlib Gzip P D) → ∃ D e d', Breaks () room 0 d D e d' := by
    intro hnone
    rcases comes_out hz hg room 0 d with ⟨D, d', hdrains⟩ | hbreaks
    · exact absurd ⟨D, (haccepts D).mp ⟨d', hdrains⟩⟩ hnone
    · exact hbreaks
  refine ⟨d, hnew, haccepts, hbreaks, ?_⟩
  intro P₂ D₀ hall hproper hnot
  apply hbreaks
  rintro ⟨D, hD⟩
  obtain ⟨RestG, hdecG, hinitG⟩ := hgunzip
  have hfree : ∀ {i more o o'}, Gzip i o → Gzip (i ++ more) o' → more = [] :=
    fun h h' => hdecG.prefix_free ((hinitG _ _).mp h) ((hinitG _ _).mp h')
  exact hnot (atBoundary_of_archive hfree hall hD hproper)

end Accept

/-! ### Bodies on a connection -/

/-- A body on a calm connection, with all the time it needs, is a plain source. -/
theorem plain_owes {R : Type} [BufRead Payload R] (after : List UInt8) :
    Plain (BodyReader.Owes (fun _ => 0) after (R := R)) := by
  have hsteady : Steady (fun _ => False) (BodyReader.Owes (fun _ => 0) after (R := R)) :=
    (BodyReader.steady (fun _ => 0) after).imp fun e ⟨_, i, hi⟩ => Nat.not_lt_zero _ hi
  refine ⟨hsteady, ?_⟩
  intro c n b b' e P howes hr
  rcases hsteady.error howes hr with ⟨hi, _⟩ | ⟨_, hf⟩
  · rcases Nat.eq_zero_or_pos n with rfl | hn
    · cases hr
    · cases BodyReader.read_outcome hr hn with
      | failed _ hfails =>
        rw [hfails.notInterrupted] at hi
        cases hi
  · exact hf

/-- A request body of known length that arrives at once. -/
def bodyOf (bytes : List UInt8) : BodyReader (BufReader (Socket Payload)) :=
  .new (BufReader.withCapacity 8 (.once bytes)) (.length bytes.length) bytes.length
    (.new fun _ => 0)

/-- A body owes its bytes. -/
theorem owes_bodyOf (bytes : List UInt8) :
    BodyReader.Owes (fun _ => 0) [] (bodyOf bytes) bytes := by
  refine ⟨Socket.calm_once bytes, rfl, le_refl bytes.length, bytes, ?_, rfl, rfl⟩
  show [] ++ (Socket.once bytes : Socket Payload).bytes = bytes ++ []
  rw [Socket.bytes_once, List.nil_append, List.append_nil]

/-- Compressors that know no stream but `stream`, which brings nothing, and no gzip member. -/
def knowing (stream : List UInt8) : Flate2 where
  zlib := .ofCode fun input => if input = stream then some [] else none
  gunzip := .ofCode fun _ => none
  deflate _ := stream

/-- They are right about it. -/
theorem correct_knowing {stream : List UInt8} (hne : stream ≠ []) :
    (knowing stream).zlib.Correct (fun i o => i = stream ∧ o = []) ∧
      (knowing stream).gunzip.Correct (fun _ _ => False) := by
  constructor
  · refine ⟨_, StreamDecoder.decodes_ofCode _, fun i o => ⟨?_, ?_⟩⟩
    · rintro ⟨rfl, rfl⟩
      refine ⟨hne, if_pos rfl, ?_⟩
      intro j _ hj
      apply if_neg
      intro heq
      have := congrArg List.length heq
      rw [List.nil_append, List.length_take] at this
      omega
    · rintro ⟨_, hcode, _⟩
      have hword : (if i = stream then some [] else none) = some o := hcode
      split at hword
      · rename_i heq
        exact ⟨heq, (Option.some.inj hword).symm⟩
      · cases hword
  · refine ⟨_, StreamDecoder.decodes_ofCode _, fun i o => ⟨nofun, ?_⟩⟩
    rintro ⟨_, hcode, _⟩
    cases hcode

/-- A stored block and a block of a known stream, cut off in the second header. -/
theorem DvzipDecoder.accepts_iff_cut :
    ∃ d : DvzipDecoder (knowing [7]) _,
      DvzipDecoder.new .new (bodyOf [128, 0, 0, 1, 9, 0, 0]) = .ok d ∧
      ∃ D e d', Breaks () (fun _ => 1) 0 d D e d' := by
  obtain ⟨hzlib, hgunzip⟩ := @correct_knowing [7] (by decide)
  obtain ⟨d, hnew, _, _, hcut⟩ := DvzipDecoder.accepts_iff hzlib hgunzip
    (StreamDecoder.bounded_ofCode _) (StreamDecoder.bounded_ofCode _) (plain_owes [])
    (owes_bodyOf [128, 0, 0, 1, 9, 0, 0]) .new (fun _ => 1)
  refine ⟨d, hnew, hcut [0, 1, 7] [9] ?_ (by decide) ?_⟩
  · rw [Archive, if_neg (by decide)]
    have hsecond := @Blocks.compressed (fun i o => i = [7] ∧ o = []) [0, 0, 0, 1] [7] [] [] [] rfl
      rfl (by decide) ⟨rfl, rfl⟩ .nil
    exact @Blocks.stored _ [128, 0, 0, 1] [9] _ _ rfl rfl hsecond
  · rintro (hnil | ⟨_, _, D₁, _, _, hfront, _⟩)
    · cases hnil
    · -- two bytes are no block
      obtain ⟨data, P, D, hdata, heq, _, hrest⟩ := @Blocks.stored_inv _ D₁ [128, 0, 0, 1] [9, 0, 0]
        1 hfront rfl rfl
      have hlen := congrArg List.length heq
      simp only [List.length_cons, List.length_nil, List.length_append, hdata] at hlen
      obtain ⟨rfl, _⟩ := hrest.of_length_lt (by omega)
      rw [List.length_nil] at hlen
      omega

/-- The zlib stream of no bytes, padded with `k` empty stored blocks. -/
def paddedStream (k : Nat) : List UInt8 :=
  [0x78, 0x01] ++ (List.replicate k [0, 0, 0, 0xff, 0xff]).flatten ++ [1, 0, 0, 0xff, 0xff] ++
    [0, 0, 0, 1]

/-- A padded stream takes five bytes for each empty block. -/
theorem length_paddedStream (k : Nat) : (paddedStream k).length = 5 * k + 11 := by
  simp [paddedStream]
  omega

/-- A padded stream is not empty. -/
theorem paddedStream_ne_nil (k : Nat) : paddedStream k ≠ [] := by
  intro hnil
  have hlen := length_paddedStream k
  rw [hnil, List.length_nil] at hlen
  omega

/-- A compressed block of a padded stream, under a header that starts as a gzip member does. -/
def ambiguousBody (k : Nat) : List UInt8 := [0x1f, 0x8b, 0, 1] ++ paddedStream k

/-- Where the header gives the length, the body is a well-formed block, and is refused. -/
private theorem ambiguousBody_refused {k : Nat} (hk : 5 * k + 11 = 0x1f8b0001) :
    Blocks (fun i o => i = paddedStream k ∧ o = []) (ambiguousBody k) [] ∧
      ∃ d : DvzipDecoder (knowing (paddedStream k)) _,
        DvzipDecoder.new .new (bodyOf (ambiguousBody k)) = .ok d ∧
        ¬ ∃ D d', Drains () (fun _ => 1) 0 d D d' := by
  have hlen := length_paddedStream k
  constructor
  · have hblock := @Blocks.compressed (fun i o => i = paddedStream k ∧ o = []) [0x1f, 0x8b, 0, 1]
      (paddedStream k) [] [] [] rfl (by rw [hlen, hk]; rfl) (by rw [hlen, hk]; decide) ⟨rfl, rfl⟩
      .nil
    rw [List.append_nil] at hblock
    exact hblock
  · obtain ⟨hzlib, hgunzip⟩ := correct_knowing (paddedStream_ne_nil k)
    obtain ⟨d, hnew, haccepts⟩ := DvzipDecoder.drains_iff_archive hzlib hgunzip (plain_owes [])
      (owes_bodyOf (ambiguousBody k)) .new (fun _ => 1)
    refine ⟨d, hnew, ?_⟩
    rintro ⟨D, d', hdrains⟩
    have harchive := (haccepts D).mp ⟨d', hdrains⟩
    have hmagic : (ambiguousBody k).take 2 = gzipMagic := rfl
    rw [Archive, if_pos hmagic] at harchive
    exact harchive

/-- **Two readings.**  The block's length starts with the gzip magic, so the body is taken for a
    gzip member, which it is not. -/
theorem ambiguous_refused :
    (knowing (paddedStream 105840638)).zlib.Correct
        (fun i o => i = paddedStream 105840638 ∧ o = []) ∧
      (knowing (paddedStream 105840638)).gunzip.Correct (fun _ _ => False) ∧
      Blocks (fun i o => i = paddedStream 105840638 ∧ o = []) (ambiguousBody 105840638) [] ∧
      ∃ d : DvzipDecoder (knowing (paddedStream 105840638)) _,
        DvzipDecoder.new .new (bodyOf (ambiguousBody 105840638)) = .ok d ∧
        ¬ ∃ D d', Drains () (fun _ => 1) 0 d D d' := by
  obtain ⟨hzlib, hgunzip⟩ := correct_knowing (paddedStream_ne_nil 105840638)
  exact ⟨hzlib, hgunzip, ambiguousBody_refused (by norm_num)⟩

end Omdrop.Proto
