import Omdrop.Proto.CpioAlike
import Omdrop.Proto.DvzipEncode
import Omdrop.Proto.Extract

namespace Omdrop.Proto

open Omdrop.Stream Omdrop.Text

/-!
# The ceilings of an upload

`extract` once more, by a program that keeps a `Ledger`: how much was decoded and written, how
many members were processed, and every addition and subtraction of 64-bit numbers.  It does what
`extract` does, and its ledger stays within the limits (`extract_ceilings`).
-/

/-! ### The ledger -/

/-- An addition or a subtraction of 64-bit numbers, neither of them checked. -/
inductive Arith
  | add (a b : Nat)
  | sub (a b : Nat)
  deriving DecidableEq, Repr

/-- It comes to what it comes to for numbers without bounds. -/
def Arith.Fits : Arith → Prop
  | .add a b => a + b < 2 ^ 64
  | .sub a b => b ≤ a

/-- What an upload has done so far: the bytes that the decoder produced, the bytes written to
    files, the members that were let past the ceiling on their number, and the arithmetic. -/
structure Ledger where
  decoded : Nat
  written : Nat
  members : Nat
  sums : List Arith
  deriving DecidableEq, Repr

namespace Ledger

/-- Nothing yet. -/
def blank : Ledger := ⟨0, 0, 0, []⟩

def sum (ops : List Arith) (l : Ledger) : Ledger := { l with sums := l.sums ++ ops }

def decode (n : Nat) (l : Ledger) : Ledger := { l with decoded := l.decoded + n }

/-- A piece of `n` bytes has been taken off the `left` ones of a member, and a file has become
    longer. -/
def write (left n : Nat) (path : FileName) (d d' : Dest) (l : Ledger) : Ledger :=
  { l with
    written := l.written + ((d'.contents path).length - (d.contents path).length)
    sums := l.sums ++ [.sub left n] }

end Ledger

/-- The decoder under its limit, with a ledger. -/
structure Metered (F : Flate2) (R : Type) where
  limited : Limited F R
  ledger : Ledger

/-- Enter something into the ledger of a reader's source. -/
def CpioReader.note {F : Flate2} {R : Type} (f : Ledger → Ledger) (r : CpioReader (Metered F R)) :
    CpioReader (Metered F R) :=
  { r with inner := { r.inner with ledger := f r.inner.ledger } }

namespace Metered

variable {F : Flate2} {R : Type} [FiniteRead Bool Payload R]

/-- The decoder of a body, which enters what it produces into a ledger. -/
def counted : Decoding (DvzipDecoder F R × Ledger) where
  call n d :=
    match Read.read () n d.1 with
    | (.error e, inner) => (.error e, inner, d.2)
    | (.ok bs, inner)   => (.ok bs, inner, d.2.decode bs.length)
  note total d := (Decoding.dvzip.note total d.1, d.2)

/-- One call under the limit, of the decoder that counts. -/
def read (n : Nat) (m : Metered F R) : Except IoErr (List UInt8) × Metered F R :=
  let l := m.limited
  match counted.under l.limit n l.total (l.inner, m.ledger) with
  | (res, (inner, ledger), total) =>
    (res, ⟨{ l with inner, total },
      ledger.sum [.sub l.limit l.total, .add l.total (ledger.decoded - m.ledger.decoded)]⟩)

/-- The limit does with the decoder that counts what it does with the other, and its total grows by
    what is counted. -/
private theorem counted_under (limit n total : Nat) (d : DvzipDecoder F R) (ledger : Ledger) :
    counted.under limit n total (d, ledger) =
      ((Decoding.dvzip.under limit n total d).1, ((Decoding.dvzip.under limit n total d).2.1,
        ledger.decode ((Decoding.dvzip.under limit n total d).2.2 - total)),
        (Decoding.dvzip.under limit n total d).2.2) := by
  rcases hr : Read.read () (min n (limit - total + 1)) d with ⟨got, inner⟩
  have hcall : Decoding.dvzip.call (min n (limit - total + 1)) d = (got, inner) := hr
  unfold Decoding.under
  rw [hcall]
  cases got with
  | error e =>
    have hcounted : counted.call (min n (limit - total + 1)) (d, ledger) =
        (.error e, inner, ledger) := by
      dsimp only [counted]
      rw [hr]
    rw [hcounted]
    dsimp only
    rw [Nat.sub_self]
    rfl
  | ok bs =>
    have hcounted : counted.call (min n (limit - total + 1)) (d, ledger) =
        (.ok bs, inner, ledger.decode bs.length) := by
      dsimp only [counted]
      rw [hr]
    rw [hcounted]
    dsimp only
    by_cases hover : limit < total + bs.length
    · rw [if_pos hover, if_pos hover, Nat.add_sub_cancel_left]
      rfl
    · rw [if_neg hover, if_neg hover, Nat.add_sub_cancel_left]
      rfl

/-- **The ledger changes nothing**, and gets what the limit's total grows by. -/
theorem read_eq {n : Nat} {m : Metered F R} {res : Except IoErr (List UInt8)} {l' : Limited F R}
    (h : m.limited.read n = (res, l')) :
    m.read n = (res, ⟨l', (m.ledger.decode (l'.total - m.limited.total)).sum
      [.sub m.limited.limit m.limited.total, .add m.limited.total (l'.total - m.limited.total)]⟩) := by
  have hl' : l' = (m.limited.read n).2 := by rw [h]
  have hres : res = (m.limited.read n).1 := by rw [h]
  subst hl' hres
  unfold read Limited.read
  dsimp only
  rw [counted_under]
  dsimp only [Ledger.decode]
  rw [Nat.add_sub_cancel_left]

/-- A metered read is a read with counters. -/
theorem limited_read {n : Nat} {m m' : Metered F R} {res : Except IoErr (List UInt8)}
    (h : m.read n = (res, m')) : m.limited.read n = (res, m'.limited) := by
  rcases hread : m.limited.read n with ⟨res', l'⟩
  rw [read_eq hread] at h
  cases h
  rfl

instance : FiniteRead Unit Payload (Metered F R) where
  read _ := read
  patience m := Read.patience m.limited
  size m := FiniteRead.size m.limited
  length_read h := Read.length_read (R := Limited F R) (c := ()) (limited_read h)
  patience_read h := Read.patience_read (R := Limited F R) (c := ()) (limited_read h)
  patience_interrupted h hi :=
    Read.patience_interrupted (R := Limited F R) (c := ()) (limited_read h) hi
  size_read h := FiniteRead.size_read (R := Limited F R) (c := ()) (limited_read h)
  size_read_lt h := FiniteRead.size_read_lt (R := Limited F R) (c := ()) (limited_read h)

end Metered

section Note

variable {F : Flate2} {R : Type} (f : Ledger → Ledger) (r : CpioReader (Metered F R))

@[simp] theorem CpioReader.frame_note : (r.note f).frame = r.frame := rfl
@[simp] theorem CpioReader.left_note : (r.note f).left = r.left := rfl
@[simp] theorem CpioReader.pad_note : (r.note f).pad = r.pad := rfl
@[simp] theorem CpioReader.limited_note : (r.note f).inner.limited = r.inner.limited := rfl
@[simp] theorem CpioReader.ledger_note : (r.note f).inner.ledger = f r.inner.ledger := rfl

@[simp] theorem CpioReader.size_note [FiniteRead Bool Payload R] :
    FiniteRead.size (r.note f).inner = FiniteRead.size r.inner := rfl

end Note

/-! ### The program -/

/-- The archive that is read, with the ledger, and the directory that is written. -/
structure Metering (F : Flate2) (R : Type) where
  cpio : CpioReader (Metered F R)
  dest : Dest

/-- The addition before what is left of a member is passed over, entered at the end of the archive
    too. -/
def skipSums {R : Type} (r : CpioReader R) : List Arith := [.add r.left r.pad]

/-- The additions for a member: to the number of members, and to the declared sizes, which is
    entered for a member that is refused or passed over too. -/
def memberSums (members outputBytes : Nat) (entry : CpioEntry) : List Arith :=
  [.add members 1, .add outputBytes entry.size]

/-- One more member, for one that the ceilings let past. -/
def Ledger.member (members outputBytes : Nat) (entry : CpioEntry) (l : Ledger) : Ledger :=
  { l with
    members := l.members + 1
    sums := l.sums ++ memberSums members outputBytes entry }

section Program

variable {F : Flate2} {R : Type} [FiniteRead Bool Payload R] (faults : Faults)
  (limits : ExtractLimits)

/-- `writeMember`, with the ledger. -/
def meteredWriteMember (label : Text) (path : FileName) (untilCheck : Nat) (s : Metering F R) :
    Except ArchiveError Unit × Metering F R :=
  match _h : s.cpio.readData ioChunkBytes with
  | (.error e, cpio)      => (.error (.ofIo e), { s with cpio })
  | (.ok [], cpio)        => (.ok (), { s with cpio })
  | (.ok (b :: bs), cpio) =>
    match writePiece faults label limits.minFreeBytes path untilCheck (b :: bs) s.dest with
    | (.error e, dest)       =>
      (.error e, ⟨cpio.note (.write s.cpio.left (b :: bs).length path s.dest dest), dest⟩)
    | (.ok untilCheck, dest) =>
      meteredWriteMember label path untilCheck
        ⟨cpio.note (.write s.cpio.left (b :: bs).length path s.dest dest), dest⟩
termination_by s.cpio.left
decreasing_by
  simp only [CpioReader.left_note]
  exact CpioReader.left_readData_lt _h

/-- Writing a member leaves no more of the stream. -/
private theorem size_meteredWriteMember (label : Text) (path : FileName) (untilCheck : Nat)
    (s : Metering F R) :
    FiniteRead.size (meteredWriteMember faults limits label path untilCheck s).2.cpio.inner ≤
      FiniteRead.size s.cpio.inner := by
  fun_induction meteredWriteMember faults limits label path untilCheck s with
  | case1 _ _ _ _ h => exact CpioReader.size_readData h
  | case2 _ _ _ h => exact CpioReader.size_readData h
  | case3 _ _ _ _ _ h =>
    simp only [CpioReader.size_note]
    exact CpioReader.size_readData h
  | case4 _ _ _ _ _ h _ _ _ ih =>
    refine le_trans ih ?_
    simp only [CpioReader.size_note]
    exact CpioReader.size_readData h

/-- `storeMember`, with the ledger. -/
def meteredStoreMember [Unicode] (member : Text) (s : Metering F R) :
    Except ArchiveError Partial × Metering F R :=
  let name := safeName member "file"
  match Dest.create faults s.dest with
  | (.error e, dest) => (.error e, { s with dest })
  | (.ok path, dest) =>
    match meteredWriteMember faults limits ("file ".toList ++ pyRepr name) path 0
        { s with dest := dest.add path } with
    | (.error e, s) => (.error e, { s with dest := (s.dest.forget path).unlink path })
    | (.ok (), s)   => (.ok ⟨name, path⟩, s)

/-- Storing a member leaves no more of the stream. -/
private theorem size_meteredStoreMember [Unicode] {member : Text} {s s' : Metering F R}
    {res : Except ArchiveError Partial}
    (h : meteredStoreMember faults limits member s = (res, s')) :
    FiniteRead.size s'.cpio.inner ≤ FiniteRead.size s.cpio.inner := by
  simp only [meteredStoreMember] at h
  split at h
  · cases h
    exact le_rfl
  · rename_i path dest _
    have hle := size_meteredWriteMember faults limits
      ("file ".toList ++ pyRepr (safeName member "file")) path 0 { s with dest := dest.add path }
    split at h
    · rename_i hw
      cases h
      rw [hw] at hle
      exact hle
    · rename_i hw
      cases h
      rw [hw] at hle
      exact hle

/-- The next entry takes something of the stream. -/
theorem size_nextEntry_note_lt [Unicode] {f : Ledger → Ledger} {r r' : CpioReader (Metered F R)}
    {entry : CpioEntry} (h : (r.note f).nextEntry = (.ok (some entry), r')) :
    FiniteRead.size r'.inner < FiniteRead.size r.inner := by
  have hlt := CpioReader.size_nextEntry_lt h
  rwa [CpioReader.size_note] at hlt

/-- `storeMembers`, with the ledger. -/
def meteredStoreMembers [Unicode] (members outputBytes : Nat) (pending : List Partial)
    (s : Metering F R) : Except ArchiveError (List Partial) × Metering F R :=
  match _h : (s.cpio.note (.sum (skipSums s.cpio))).nextEntry with
  | (.error e, cpio)         => (.error e, ⟨cpio, dropAll pending s.dest⟩)
  | (.ok none, cpio)         => (.ok pending, { s with cpio })
  | (.ok (some entry), cpio) =>
    match accept limits (members + 1) outputBytes entry with
    | .error e  =>
      (.error e,
        ⟨cpio.note (.sum (memberSums members outputBytes entry)), dropAll pending s.dest⟩)
    | .ok false =>
      meteredStoreMembers (members + 1) outputBytes pending
        { s with cpio := cpio.note (.member members outputBytes entry) }
    | .ok true  =>
      match _hs : meteredStoreMember faults limits entry.path
          { s with cpio := cpio.note (.member members outputBytes entry) } with
      | (.error e, s) => (.error e, { s with dest := dropAll pending s.dest })
      | (.ok p, s)    =>
        meteredStoreMembers (members + 1) ((outputBytes + entry.size) % 2 ^ 64) (pending ++ [p]) s
termination_by FiniteRead.size s.cpio.inner
decreasing_by
  · simp only [CpioReader.size_note]
    exact size_nextEntry_note_lt _h
  · refine (size_meteredStoreMember faults limits _hs).trans_lt ?_
    simp only [CpioReader.size_note]
    exact size_nextEntry_note_lt _h

/-- `finish`, with the ledger. -/
def meteredFinish (rest : Metered F R) : Except ArchiveError Bool × Metered F R :=
  match drain () (fun _ => copyChunkBytes) 0 [] rest with
  | (.ok _, rest)    => (.ok false, rest)
  | (.error e, rest) => if isComplete e then (.ok true, rest) else (.error (.ofIo e), rest)

/-- `extract`, with the ledger. -/
def meteredExtract [Unicode] (F : Flate2) (progress : ExtractProgress) (body : R) (dest : Dest) :
    (Except ArchiveError (Extracted × DvzipDecoder F R) × Dest) × Ledger :=
  match DvzipDecoder.new progress body with
  | .error e    => ((.error (.ofIo e), dest), .blank)
  | .ok decoder =>
    match meteredStoreMembers faults limits 0 0 []
        ⟨.new ⟨⟨decoder, 0, limits.byteLimit⟩, .blank⟩, dest⟩ with
    | (.error e, s)    => ((.error e, s.dest), s.cpio.inner.ledger)
    | (.ok pending, s) =>
      let limited := s.cpio.inner.limited
      let whole := { s.cpio.inner with limited :=
        { limited with inner := limited.inner.mapProgress ({ · with trailerSeen := true }) } }
      match meteredFinish whole with
      | (.error e, rest)         => ((.error e, dropAll pending s.dest), rest.ledger)
      | (.ok unterminated, rest) =>
        match place faults pending s.dest with
        | (.error e, dest)  => ((.error e, dest), rest.ledger)
        | (.ok names, dest) =>
          ((.ok (⟨names, rest.limited.total, s.cpio.magic, unterminated⟩, rest.limited.inner), dest),
            rest.ledger)

end Program

/-! ### Side by side with `extract` -/

section Reading

variable {F : Flate2} {R : Type} [FiniteRead Bool Payload R] {limit written members : Nat}

/-- The ledger of a source that may still be read: no more than the limit has been decoded, and
    all arithmetic fitted. -/
structure Sound (limit written members : Nat) (l : Limited F R) (m : Metered F R) : Prop where
  limited_eq : m.limited = l
  limit_eq : l.limit = limit
  total_le : l.total ≤ limit
  decoded_eq : m.ledger.decoded = l.total
  written_eq : m.ledger.written = written
  members_eq : m.ledger.members = members
  fits : ∀ a ∈ m.ledger.sums, a.Fits

/-- The ledger of a source that is not read any more. -/
structure Spent (limit written members : Nat) (l : Limited F R) (m : Metered F R) : Prop where
  limited_eq : m.limited = l
  decoded_le : m.ledger.decoded ≤ limit + 1
  written_eq : m.ledger.written = written
  members_eq : m.ledger.members = members
  fits : ∀ a ∈ m.ledger.sums, a.Fits

omit [FiniteRead Bool Payload R] in
/-- What is sound has spent no more than it may. -/
theorem Sound.spent {l : Limited F R} {m : Metered F R} (h : Sound limit written members l m) :
    Spent limit written members l m where
  limited_eq := h.limited_eq
  decoded_le := by
    rw [h.decoded_eq]
    exact h.total_le.trans (Nat.le_succ _)
  written_eq := h.written_eq
  members_eq := h.members_eq
  fits := h.fits

/-- **The limit is never overrun by more than a byte**, and nothing that is computed for it
    leaves 64 bits. -/
theorem alike_limited (hlimit : limit ≤ 2 ^ 63) :
    Stream.Alike (Sound (F := F) (R := R) limit written members)
      (fun e l m => Spent limit written members l m ∧
        (isComplete e = true → m.ledger.decoded ≤ limit)) := by
  intro _ n l m h
  obtain ⟨rfl, hl, htotal, hdecoded, hw, hm, hfits⟩ := h
  rcases hread : m.limited.read n with ⟨res, l'⟩
  obtain ⟨hl', got, inner, hinner, hcases⟩ := Limited.read_cases hread
  have hmread : Read.read () n m = _ := Metered.read_eq hread
  have hlread : Read.read () n m.limited = (res, l') := hread
  rw [hmread, hlread]
  -- the limit asks for no more than one byte past it, and no more is produced
  have hgrown : m.limited.total ≤ l'.total ∧ l'.total ≤ limit + 1 := by
    rcases hcases with ⟨_, _, _, _, ht⟩ | ⟨bs, rfl, ht, _, _⟩
    · omega
    · have hlen := (Read.length_read hinner).trans (Nat.min_le_right _ _)
      omega
  have hsums : ∀ a ∈ m.ledger.sums ++ [.sub m.limited.limit m.limited.total,
      .add m.limited.total (l'.total - m.limited.total)], a.Fits := by
    intro a ha
    rcases List.mem_append.mp ha with ha | ha
    · exact hfits a ha
    · rcases List.mem_pair.mp ha with rfl | rfl
      · show m.limited.total ≤ m.limited.limit
        omega
      · show m.limited.total + (l'.total - m.limited.total) < 2 ^ 64
        omega
  have hdecoded' : m.ledger.decoded + (l'.total - m.limited.total) = l'.total := by omega
  have hspent : Spent limit written members l' ⟨l',
      (m.ledger.decode (l'.total - m.limited.total)).sum [.sub m.limited.limit m.limited.total,
        .add m.limited.total (l'.total - m.limited.total)]⟩ :=
    ⟨rfl, hdecoded'.trans_le hgrown.2, hw, hm, hsums⟩
  have hsound (hle : l'.total ≤ limit) : Sound limit written members l' ⟨l',
      (m.ledger.decode (l'.total - m.limited.total)).sum [.sub m.limited.limit m.limited.total,
        .add m.limited.total (l'.total - m.limited.total)]⟩ :=
    ⟨rfl, hl'.trans hl, hle, hdecoded', hw, hm, hsums⟩
  refine ⟨rfl, ?_⟩
  rcases hcases with ⟨e, rfl, rfl, _, ht⟩ | ⟨bs, rfl, ht, _, ⟨msg, hover, rfl⟩ | ⟨hunder, rfl⟩⟩
  · -- the decoder has failed, and nothing was produced
    have hle : l'.total ≤ limit := by omega
    dsimp only [Fallible.Related]
    split
    · exact hsound hle
    · exact ⟨hspent, fun _ => hdecoded'.trans_le hle⟩
  · -- one byte too many
    rw [Fallible.Related, if_neg (by simp)]
    exact ⟨hspent, fun hcomplete => by cases hcomplete⟩
  · exact hsound (by omega)

end Reading

/-! ### Files -/

/-- What is free is a matter of the file system alone. -/
private theorem contents_freeBytes (faults : Faults) (path : FileName) (d : Dest) :
    (Dest.freeBytes faults d).2.contents path = d.contents path := by
  unfold Dest.freeBytes
  split <;> rfl

/-- A write makes a file no longer than what is written. -/
private theorem contents_write (faults : Faults) (path : FileName) (bs : List UInt8) (d : Dest) :
    ((Dest.write faults path bs d).2.contents path).length ≤
      (d.contents path).length + bs.length := by
  have hput (data : List UInt8) (d : Dest) :
      (d.put path (some (.file data))).contents path = data := by
    simp [Dest.contents, Dest.put]
  unfold Dest.write
  split
  · rw [hput, List.length_append]
  · rw [hput, List.length_append, List.length_take]
    omega

/-- A piece makes its file no longer than the piece. -/
theorem contents_writePiece {faults : Faults} {label : Text} {minFree untilCheck : Nat}
    {path : FileName} {piece : List UInt8} {d d' : Dest} {res : Except ArchiveError Nat}
    (h : writePiece faults label minFree path untilCheck piece d = (res, d')) :
    (d'.contents path).length ≤ (d.contents path).length + piece.length := by
  -- a look at the free space changes no file
  have hcheck : (checkDisk faults label minFree untilCheck piece.length d).2.contents path =
      d.contents path := by
    unfold checkDisk
    split
    · rcases hfree : Dest.freeBytes faults d with ⟨free, d₁⟩
      have hcontents := contents_freeBytes faults path d
      rw [hfree] at hcontents
      cases free with
      | error e =>
        rw [Fallible.bind_of_error hfree]
        exact hcontents
      | ok free =>
        rw [Fallible.bind_of_ok hfree]
        generalize hp : decide (free < freeFloor minFree) = p
        cases p with
        | true => exact hcontents
        | false => exact hcontents
    · rfl
  unfold writePiece at h
  rcases hr : checkDisk faults label minFree untilCheck piece.length d with ⟨checked, d₁⟩
  rw [hr] at hcheck
  cases checked with
  | error e =>
    rw [Fallible.bind_of_error hr] at h
    cases h
    dsimp only at hcheck
    rw [hcheck]
    exact Nat.le_add_right _ _
  | ok u =>
    rw [Fallible.bind_of_ok hr] at h
    -- a write that fails has put no more there than was asked for
    have hwrite := contents_write faults path piece d₁
    dsimp only at hcheck
    rw [hcheck] at hwrite
    rcases hw : Dest.write faults path piece d₁ with ⟨wrote, d₂⟩
    rw [hw] at hwrite
    cases wrote with
    | error e =>
      rw [Fallible.bind_of_error hw] at h
      cases h
      exact hwrite
    | ok _ =>
      rw [Fallible.bind_of_ok hw] at h
      cases h
      exact hwrite

/-! ### Members -/

section Members

variable {F : Flate2} {R : Type} [FiniteRead Bool Payload R] {faults : Faults}
  {limits : ExtractLimits} {limit written members : Nat}

/-- An upload that may go on, beside the one with the ledger. -/
structure Going (limit written members : Nat) (s : Extraction F R) (t : Metering F R) : Prop where
  cpio : CpioReader.Twin (Sound limit written members) s.cpio t.cpio
  dest_eq : t.dest = s.dest

/-- An upload that has failed, beside the one with the ledger. -/
structure Over (limit written members : Nat) (s : Extraction F R) (t : Metering F R) : Prop where
  spent : Spent limit written members s.cpio.inner t.cpio.inner
  dest_eq : t.dest = s.dest

omit [FiniteRead Bool Payload R] in
/-- An entry for a piece of a file. -/
theorem Sound.write {l : Limited F R} {m : Metered F R} {left n : Nat} {path : FileName}
    {d d' : Dest} (h : Sound limit written members l m) (hn : n ≤ left) :
    Sound limit (written + ((d'.contents path).length - (d.contents path).length)) members l
      { m with ledger := m.ledger.write left n path d d' } where
  limited_eq := h.limited_eq
  limit_eq := h.limit_eq
  total_le := h.total_le
  decoded_eq := h.decoded_eq
  written_eq := by rw [← h.written_eq]; rfl
  members_eq := h.members_eq
  fits := by
    intro a ha
    rcases List.mem_append.mp ha with ha | ha
    · exact h.fits a ha
    · rw [List.mem_singleton.mp ha]
      exact hn

omit [FiniteRead Bool Payload R] in
/-- What is entered into the ledger does not show in the reader. -/
theorem twin_note {f : Ledger → Ledger} {same same' : Limited F R → Metered F R → Prop}
    {r : CpioReader (Limited F R)} {t : CpioReader (Metered F R)} (h : CpioReader.Twin same r t)
    (hf : ∀ l m, same l m → same' l { m with ledger := f m.ledger }) :
    CpioReader.Twin same' r (t.note f) :=
  ⟨h.1, hf _ _ h.2⟩

/-- **A member's file**, beside the ledger: no more is written than was left of the member. -/
theorem alike_writeMember (hlimit : limit ≤ 2 ^ 63) {bound : Nat} {label : Text} {path : FileName}
    {untilCheck : Nat} {s : Extraction F R} {t : Metering F R} (h : Going limit written members s t)
    (hbound : written + s.cpio.left ≤ bound) :
    Fallible.Same
      (fun _ s' t' => ∃ w ≤ bound, Going limit w members s' t' ∧ s'.cpio.left ≤ s.cpio.left ∧
        s'.cpio.pad = s.cpio.pad)
      (fun _ s' t' => ∃ w ≤ bound, Over limit w members s' t')
      (writeMember faults limits label path untilCheck s)
      (meteredWriteMember faults limits label path untilCheck t) := by
  have hread (s : Extraction F R) (t : Metering F R) {written : Nat}
      (h : Going limit written members s t) := CpioReader.alike_readData
    ((@alike_limited F R _ limit written members hlimit).imp fun _ _ _ => And.left)
    (fun _ _ => Sound.spent) ioChunkBytes h.cpio
  fun_induction writeMember faults limits label path untilCheck s generalizing t written with
  | case1 untilCheck s e cpio hs =>
    -- the data cannot be read
    obtain ⟨cpio', ht, hrel⟩ := (hread s t h).exists hs
    rw [meteredWriteMember]
    split <;> rename_i ht' <;> rw [ht] at ht' <;> cases ht'
    exact ⟨rfl, written, by omega, hrel, h.dest_eq⟩
  | case2 untilCheck s cpio hs =>
    -- the member is at its end
    obtain ⟨cpio', ht, hrel⟩ := (hread s t h).exists hs
    obtain ⟨_, hleft, hpad⟩ := CpioReader.readData_bounds hs
    rw [meteredWriteMember]
    split <;> rename_i ht' <;> rw [ht] at ht' <;> cases ht'
    exact ⟨rfl, written, by omega, ⟨hrel, h.dest_eq⟩, by rw [hleft]; exact Nat.sub_le _ _, hpad⟩
  | case3 untilCheck s b bs cpio hs e dest hw =>
    -- the piece cannot be written
    obtain ⟨cpio', ht, hrel⟩ := (hread s t h).exists hs
    obtain ⟨hlen, hleft, hpad⟩ := CpioReader.readData_bounds hs
    have hgrows := contents_writePiece hw
    have hleft' : t.cpio.left = s.cpio.left := congrArg CpioReader.left h.cpio.1
    rw [meteredWriteMember]
    split <;> rename_i ht' <;> rw [ht] at ht' <;> cases ht'
    rw [h.dest_eq, hw]
    refine ⟨rfl, written + ((dest.contents path).length - (s.dest.contents path).length), by omega,
      (twin_note hrel fun _ _ hsound => hsound.write ?_).2.spent, rfl⟩
    rw [hleft']
    exact hlen
  | case4 untilCheck s b bs cpio hs u dest hw ih =>
    -- the piece is written, and the next one follows
    obtain ⟨cpio', ht, hrel⟩ := (hread s t h).exists hs
    obtain ⟨hlen, hleft, hpad⟩ := CpioReader.readData_bounds hs
    have hgrows := contents_writePiece hw
    have hleft' : t.cpio.left = s.cpio.left := congrArg CpioReader.left h.cpio.1
    rw [meteredWriteMember]
    split <;> rename_i ht' <;> rw [ht] at ht' <;> cases ht'
    rw [h.dest_eq, hw]
    have hgoing : Going limit
        (written + ((dest.contents path).length - (s.dest.contents path).length)) members
        ⟨cpio, dest⟩
        ⟨cpio'.note (.write t.cpio.left (b :: bs).length path s.dest dest), dest⟩ :=
      ⟨twin_note hrel fun _ _ hsound => hsound.write (hleft' ▸ hlen), rfl⟩
    refine (ih hgoing (by dsimp only; omega)).imp ?_ fun _ _ _ h => h
    rintro _ s' t' ⟨w, hw', hgoing', hl, hp⟩
    exact ⟨w, hw', hgoing', hl.trans (by rw [hleft]; exact Nat.sub_le _ _), hp.trans hpad⟩

/-- Storing a member does the same with counters and without. -/
private theorem alike_storeMember [Unicode] (hlimit : limit ≤ 2 ^ 63) (bound : Nat) {member : Text}
    {s : Extraction F R} {t : Metering F R} (h : Going limit written members s t)
    (hbound : written + s.cpio.left ≤ bound) :
    Fallible.Same
      (fun _ s' t' => ∃ w ≤ bound, Going limit w members s' t' ∧ s'.cpio.left ≤ s.cpio.left ∧
        s'.cpio.pad = s.cpio.pad)
      (fun _ s' t' => ∃ w ≤ bound, Over limit w members s' t')
      (storeMember faults limits member s) (meteredStoreMember faults limits member t) := by
  simp only [storeMember, meteredStoreMember]
  rw [h.dest_eq]
  rcases hc : Dest.create faults s.dest with ⟨created, dest⟩
  cases created with
  | error e => exact ⟨rfl, written, by omega, h.cpio.2.spent, rfl⟩
  | ok path =>
    dsimp only
    have hgoing : Going limit written members { s with dest := dest.add path }
        { t with dest := dest.add path } := ⟨h.cpio, rfl⟩
    rcases hw : writeMember faults limits ("file ".toList ++ pyRepr (safeName member "file")) path 0
      { s with dest := dest.add path } with ⟨res, s'⟩
    obtain ⟨t', ht, hrel⟩ := (alike_writeMember hlimit hgoing hbound).exists hw
    rw [ht]
    cases res with
    | error e =>
      obtain ⟨w, hle, hspent, hdest⟩ := hrel
      refine ⟨rfl, w, hle, hspent, ?_⟩
      show (t'.dest.forget path).unlink path = (s'.dest.forget path).unlink path
      rw [hdest]
    | ok _ => exact ⟨rfl, hrel⟩

/-- What a member that is let past the ceilings keeps to. -/
theorem accept_eq_ok {members outputBytes : Nat} {entry : CpioEntry} {stored : Bool}
    (h : accept limits members outputBytes entry = .ok stored) :
    members ≤ limits.maxMembers ∧ (stored = true → entry.size ≤ limits.byteLimit ∧
      (outputBytes + entry.size) % 2 ^ 64 ≤ limits.byteLimit) := by
  unfold accept at h
  split_ifs at h with h₁ h₂ h₃ h₄ h₅
  · rw [Except.ok.injEq] at h
    exact ⟨not_lt.mp h₁, fun hs => by rw [← h] at hs; cases hs⟩
  · rw [Except.ok.injEq] at h
    exact ⟨not_lt.mp h₁, fun hs => by rw [← h] at hs; cases hs⟩
  · exact ⟨not_lt.mp h₁, fun _ => ⟨not_lt.mp h₄, not_lt.mp h₅⟩⟩

omit [FiniteRead Bool Payload R] in
/-- An entry for arithmetic that fits. -/
theorem Sound.sum {ops : List Arith} {l : Limited F R} {m : Metered F R}
    (h : Sound limit written members l m) (hops : ∀ a ∈ ops, a.Fits) :
    Sound limit written members l { m with ledger := m.ledger.sum ops } where
  limited_eq := h.limited_eq
  limit_eq := h.limit_eq
  total_le := h.total_le
  decoded_eq := h.decoded_eq
  written_eq := h.written_eq
  members_eq := h.members_eq
  fits := by
    intro a ha
    rcases List.mem_append.mp ha with ha | ha
    · exact h.fits a ha
    · exact hops a ha

omit [FiniteRead Bool Payload R] in
/-- An entry for one more member. -/
theorem Sound.member {n outputBytes : Nat} {entry : CpioEntry} {l : Limited F R} {m : Metered F R}
    (h : Sound limit written members l m)
    (hsums : ∀ a ∈ memberSums n outputBytes entry, a.Fits) :
    Sound limit written (members + 1) l
      { m with ledger := m.ledger.member n outputBytes entry } where
  limited_eq := h.limited_eq
  limit_eq := h.limit_eq
  total_le := h.total_le
  decoded_eq := h.decoded_eq
  written_eq := h.written_eq
  members_eq := congrArg (· + 1) h.members_eq
  fits := (h.sum hsums).fits

/-- What is computed for a member fits: its size is the format's, and the sizes before it are within
    the limit. -/
private theorem memberSums_fits {outputBytes : Nat} {entry : CpioEntry}
    (hmembers : members + 1 < 2 ^ 64)
    (hsize : outputBytes + entry.size < 2 ^ 64) :
    ∀ a ∈ memberSums members outputBytes entry, a.Fits := by
  intro a ha
  rcases List.mem_pair.mp ha with rfl | rfl
  · exact hmembers
  · exact hsize

/-- The next header, beside the ledger, and what is entered before it. -/
theorem alike_next [Unicode] (hlimit : limit ≤ 2 ^ 63) {s : Extraction F R} {t : Metering F R}
    (h : Going limit written members s t) (hleft : s.cpio.left < 2 ^ 33) (hpad : s.cpio.pad ≤ 3) :
    Fallible.Same
      (fun _ => CpioReader.Twin (Sound limit written members))
      (fun _ cpio cpio' => Spent limit written members cpio.inner cpio'.inner)
      s.cpio.nextEntry (t.cpio.note (.sum (skipSums t.cpio))).nextEntry := by
  have hskip : ∀ a ∈ skipSums t.cpio, a.Fits := by
    have hl : t.cpio.left = s.cpio.left := congrArg CpioReader.left h.cpio.1
    have hp : t.cpio.pad = s.cpio.pad := congrArg CpioReader.pad h.cpio.1
    refine List.forall_mem_singleton.mpr ?_
    show t.cpio.left + t.cpio.pad < 2 ^ 64
    omega
  exact CpioReader.alike_nextEntry
    ((@alike_limited F R _ limit written members hlimit).imp fun _ _ _ => And.left)
    (fun _ _ => Sound.spent) s.cpio (t.cpio.note (.sum (skipSums t.cpio)))
    (twin_note h.cpio fun _ _ hsound => hsound.sum hskip)

/-- What a member leaves for those after it. -/
theorem memberSums_next [Unicode] (hlimit : limits.byteLimit ≤ 2 ^ 63) {outputBytes : Nat}
    {entry : CpioEntry} {r r' : CpioReader (Limited F R)}
    (hr : r.nextEntry = (.ok (some entry), r')) (houtput : outputBytes ≤ limits.byteLimit)
    (hsize : members + FiniteRead.size r.inner ≤ limits.byteLimit + 1) :
    (∀ a ∈ memberSums members outputBytes entry, a.Fits) ∧
      members + 1 + FiniteRead.size r'.inner ≤ limits.byteLimit + 1 ∧
      entry.size < 2 ^ 33 ∧ r'.left = entry.size ∧ r'.pad ≤ 3 := by
  -- a header takes at least a byte off what may still be decoded
  have hlt := CpioReader.size_nextEntry_lt hr
  obtain ⟨hbound, hl, hp⟩ := CpioReader.nextEntry_bounds hr
  exact ⟨memberSums_fits (by omega) (by omega), by omega, hbound, hl, hp⟩

/-- **A member that is stored**, beside the ledger: what is written stays within the declared sizes,
    and their sum does not wrap around. -/
theorem alike_stored [Unicode] (hlimit : limits.byteLimit ≤ 2 ^ 63) {outputBytes : Nat}
    {entry : CpioEntry} {s : Extraction F R} {t : Metering F R}
    (h : Going limits.byteLimit written members s t) (hwritten : written ≤ outputBytes)
    (houtput : outputBytes ≤ limits.byteLimit) (hbound : entry.size < 2 ^ 33)
    (hleft : s.cpio.left = entry.size)
    (haccept : (outputBytes + entry.size) % 2 ^ 64 ≤ limits.byteLimit) :
    (outputBytes + entry.size) % 2 ^ 64 = outputBytes + entry.size ∧
    outputBytes + entry.size ≤ limits.byteLimit ∧
    Fallible.Same
      (fun _ s' t' => ∃ w ≤ outputBytes + entry.size, Going limits.byteLimit w members s' t' ∧
        s'.cpio.left ≤ s.cpio.left ∧ s'.cpio.pad = s.cpio.pad)
      (fun _ s' t' => ∃ w ≤ outputBytes + entry.size, Over limits.byteLimit w members s' t')
      (storeMember faults limits entry.path s) (meteredStoreMember faults limits entry.path t) := by
  have hmod : (outputBytes + entry.size) % 2 ^ 64 = outputBytes + entry.size :=
    Nat.mod_eq_of_lt (by omega)
  exact ⟨hmod, hmod ▸ haccept, alike_storeMember hlimit _ h (by omega)⟩

/-- **The members**, beside the ledger: neither their number nor what is written of them exceeds
    the limits, and none of what is computed leaves 64 bits. -/
theorem alike_storeMembers [Unicode] (hlimit : limits.byteLimit ≤ 2 ^ 63) {outputBytes : Nat}
    {pending : List Partial} {s : Extraction F R} {t : Metering F R}
    (h : Going limits.byteLimit written members s t) (hwritten : written ≤ outputBytes)
    (houtput : outputBytes ≤ limits.byteLimit) (hmembers : members ≤ limits.maxMembers)
    (hsize : members + FiniteRead.size s.cpio.inner ≤ limits.byteLimit + 1)
    (hleft : s.cpio.left < 2 ^ 33) (hpad : s.cpio.pad ≤ 3) :
    Fallible.Same
      (fun _ s' t' => ∃ w ≤ limits.byteLimit, ∃ k ≤ limits.maxMembers,
        Going limits.byteLimit w k s' t')
      (fun _ s' t' => ∃ w ≤ limits.byteLimit, ∃ k ≤ limits.maxMembers,
        Over limits.byteLimit w k s' t')
      (storeMembers faults limits members outputBytes pending s)
      (meteredStoreMembers faults limits members outputBytes pending t) := by
  fun_induction storeMembers faults limits members outputBytes pending s
    generalizing t written with
  | case1 members outputBytes pending s e cpio hs =>
    -- the archive is broken
    obtain ⟨cpio', ht, hrel⟩ := (alike_next hlimit h hleft hpad).exists hs
    rw [meteredStoreMembers]
    split <;> rename_i ht' <;> rw [ht] at ht' <;> cases ht'
    exact ⟨rfl, written, by omega, members, hmembers, hrel, by dsimp only; rw [h.dest_eq]⟩
  | case2 members outputBytes pending s cpio hs =>
    -- the archive ends
    obtain ⟨cpio', ht, hrel⟩ := (alike_next hlimit h hleft hpad).exists hs
    rw [meteredStoreMembers]
    split <;> rename_i ht' <;> rw [ht] at ht' <;> cases ht'
    exact ⟨rfl, written, by omega, members, hmembers, hrel, h.dest_eq⟩
  | case3 members outputBytes pending s entry cpio hs e ha =>
    -- a member that the ceilings refuse is not counted
    obtain ⟨cpio', ht, hrel⟩ := (alike_next hlimit h hleft hpad).exists hs
    have hsums := (memberSums_next hlimit hs houtput hsize).1
    rw [meteredStoreMembers]
    split <;> rename_i ht' <;> rw [ht] at ht' <;> cases ht'
    rw [ha]
    exact ⟨rfl, written, by omega, members, hmembers,
      (twin_note hrel fun _ _ hsound => hsound.sum hsums).2.spent, by dsimp only; rw [h.dest_eq]⟩
  | case4 members outputBytes pending s entry cpio hs ha ih =>
    -- what is no file is passed over
    obtain ⟨cpio', ht, hrel⟩ := (alike_next hlimit h hleft hpad).exists hs
    obtain ⟨hsums, hsize', hbound, hl, hp⟩ := memberSums_next hlimit hs houtput hsize
    have hmember := twin_note hrel fun _ _ hsound => hsound.member hsums
    rw [meteredStoreMembers]
    split <;> rename_i ht' <;> rw [ht] at ht' <;> cases ht'
    rw [ha]
    exact ih ⟨hmember, h.dest_eq⟩ hwritten houtput (accept_eq_ok ha).1 hsize'
      (by dsimp only; omega) hp
  | case5 members outputBytes pending s entry cpio hs ha e s₁ hstore =>
    -- the member cannot be stored
    obtain ⟨cpio', ht, hrel⟩ := (alike_next hlimit h hleft hpad).exists hs
    obtain ⟨hsums, hsize', hbound, hl, hp⟩ := memberSums_next hlimit hs houtput hsize
    have hmember := twin_note hrel fun _ _ hsound => hsound.member hsums
    obtain ⟨hmembers', hstored⟩ := accept_eq_ok ha
    have hgoing : Going limits.byteLimit written (members + 1) { s with cpio }
        { t with cpio := cpio'.note (.member members outputBytes entry) } :=
      ⟨hmember, h.dest_eq⟩
    obtain ⟨-, hsum, hsame⟩ :=
      alike_stored hlimit hgoing hwritten houtput hbound hl (hstored rfl).2
    obtain ⟨t₁, ht₁, w, hw, hover⟩ := hsame.exists hstore
    rw [meteredStoreMembers]
    split <;> rename_i ht' <;> rw [ht] at ht' <;> cases ht'
    rw [ha]
    dsimp only
    split <;> rename_i ht₁' <;> rw [ht₁] at ht₁' <;> cases ht₁'
    exact ⟨rfl, w, hw.trans hsum, members + 1, hmembers', hover.spent,
      by dsimp only; rw [hover.dest_eq]⟩
  | case6 members outputBytes pending s entry cpio hs ha p s₁ hstore ih =>
    -- the member is stored, and counted as what was written
    obtain ⟨cpio', ht, hrel⟩ := (alike_next hlimit h hleft hpad).exists hs
    obtain ⟨hsums, hsize', hbound, hl, hp⟩ := memberSums_next hlimit hs houtput hsize
    have hmember := twin_note hrel fun _ _ hsound => hsound.member hsums
    obtain ⟨hmembers', hstored⟩ := accept_eq_ok ha
    have hgoing : Going limits.byteLimit written (members + 1) { s with cpio }
        { t with cpio := cpio'.note (.member members outputBytes entry) } :=
      ⟨hmember, h.dest_eq⟩
    obtain ⟨hmod, hsum, hsame⟩ :=
      alike_stored hlimit hgoing hwritten houtput hbound hl (hstored rfl).2
    obtain ⟨t₁, ht₁, w, hw, hgoing₁, hl₁, hp₁⟩ := hsame.exists hstore
    have hsize₁ := size_storeMember faults limits hstore
    rw [meteredStoreMembers]
    split <;> rename_i ht' <;> rw [ht] at ht' <;> cases ht'
    rw [ha]
    dsimp only
    split <;> rename_i ht₁' <;> rw [ht₁] at ht₁' <;> cases ht₁'
    rw [hmod] at ih ⊢
    dsimp only at hl₁ hp₁ hsize₁
    exact ih hgoing₁ hw hsum hmembers' (by omega) (by omega) (by omega)

end Members

/-! ### The upload -/

section Extract

variable {F : Flate2} {R : Type} [FiniteRead Bool Payload R] [Unicode]

/-- What the ceilings promise of an upload's ledger. -/
structure Ledger.Within (limits : ExtractLimits) (l : Ledger) : Prop where
  decoded_le : l.decoded ≤ limits.byteLimit + 1
  written_le : l.written ≤ limits.byteLimit
  members_le : l.members ≤ limits.maxMembers
  fits : ∀ a ∈ l.sums, a.Fits

omit [FiniteRead Bool Payload R] [Unicode] in
/-- What was spent is within the ceilings while these are not passed. -/
theorem Spent.within {limits : ExtractLimits} {w k : Nat} {l : Limited F R} {m : Metered F R}
    (h : Spent limits.byteLimit w k l m) (hw : w ≤ limits.byteLimit) (hk : k ≤ limits.maxMembers) :
    m.ledger.Within limits where
  decoded_le := h.decoded_le
  written_le := h.written_eq ▸ hw
  members_le := h.members_eq ▸ hk
  fits := h.fits

omit [Unicode] in
/-- The rest of the body, beside the ledger: an upload that has not failed keeps to the limit. -/
private theorem alike_finish {limit written members : Nat} (hlimit : limit ≤ 2 ^ 63)
    {l : Limited F R}
    {m : Metered F R} (h : Sound limit written members l m) :
    Fallible.Same (fun _ l' m' => Spent limit written members l' m' ∧ m'.ledger.decoded ≤ limit)
      (fun _ => Spent limit written members) (finish l) (meteredFinish m) := by
  unfold finish meteredFinish
  rcases hd : drain () (fun _ => copyChunkBytes) 0 [] l with ⟨res, l'⟩
  obtain ⟨m', hm, hrel⟩ := ((alike_limited hlimit).drain (c := ()) _ 0 [] h).exists hd
  rw [hm]
  cases res with
  | ok _ =>
    have hsound : Sound limit written members l' m' := hrel
    refine ⟨rfl, hsound.spent, ?_⟩
    show m'.ledger.decoded ≤ limit
    rw [hsound.decoded_eq]
    exact hsound.total_le
  | error e =>
    obtain ⟨hspent, hcomplete⟩ := hrel
    dsimp only
    by_cases he : isComplete e = true
    · rw [if_pos he, if_pos he]
      exact ⟨rfl, hspent, hcomplete he⟩
    · rw [if_neg he, if_neg he]
      exact ⟨rfl, hspent⟩

/-- **The ceilings hold.**  Whatever a body says, the program that keeps a ledger does what
    `extract` does; at most one byte more than the limit is decoded, and then the upload fails;
    no more than the limit is written, no more members than allowed are processed; and every
    addition and subtraction stays within 64 bits. -/
theorem extract_ceilings (faults : Faults) (limits : ExtractLimits) (progress : ExtractProgress)
    (body : R) (dest : Dest) (hlimit : limits.byteLimit ≤ 2 ^ 63) :
    (meteredExtract faults limits F progress body dest).1 =
      extract faults limits F progress body dest ∧
    (meteredExtract faults limits F progress body dest).2.Within limits ∧
    ((extract faults limits F progress body dest).1.isOk →
      (meteredExtract faults limits F progress body dest).2.decoded ≤ limits.byteLimit) := by
  unfold meteredExtract extract
  cases hnew : DvzipDecoder.new (F := F) progress body with
  | error e =>
    exact ⟨rfl, ⟨Nat.zero_le _, Nat.zero_le _, Nat.zero_le _, by simp [Ledger.blank]⟩,
      fun h => by cases h⟩
  | ok decoder =>
    dsimp only
    have hgoing : Going limits.byteLimit 0 0
        (⟨.new ⟨decoder, 0, limits.byteLimit⟩, dest⟩ : Extraction F R)
        ⟨.new ⟨⟨decoder, 0, limits.byteLimit⟩, .blank⟩, dest⟩ :=
      ⟨⟨rfl, rfl, rfl, Nat.zero_le _, rfl, rfl, rfl, by simp [CpioReader.new, Ledger.blank]⟩, rfl⟩
    have hzero : (0 : Nat) < 2 ^ 33 := by decide
    have hstore := @alike_storeMembers F R _ faults limits 0 0 _ hlimit 0 [] _ _ hgoing le_rfl
      (Nat.zero_le _) (Nat.zero_le _) ((Nat.zero_add _).trans_le (Nat.sub_le _ _)) hzero
      (Nat.zero_le _)
    rcases hs : storeMembers faults limits 0 0 []
      (⟨.new ⟨decoder, 0, limits.byteLimit⟩, dest⟩ : Extraction F R) with ⟨res, s⟩
    obtain ⟨t, ht, hrel⟩ := hstore.exists hs
    rw [ht]
    cases res with
    | error e =>
      obtain ⟨w, hw, k, hk, hover⟩ := hrel
      refine ⟨?_, hover.spent.within hw hk, fun h => by cases h⟩
      show (Except.error e, t.dest) = (Except.error e, s.dest)
      rw [hover.dest_eq]
    | ok pending =>
      obtain ⟨w, hw, k, hk, ⟨hframe, hsound⟩, hdest⟩ := hrel
      dsimp only
      -- the rest of the body
      have hwhole : Sound limits.byteLimit w k
          { s.cpio.inner with
            inner := s.cpio.inner.inner.mapProgress ({ · with trailerSeen := true }) }
          { t.cpio.inner with
            limited := { t.cpio.inner.limited with
              inner := t.cpio.inner.limited.inner.mapProgress ({ · with trailerSeen := true }) } } :=
        { limited_eq := by rw [hsound.limited_eq]
          limit_eq := hsound.limit_eq
          total_le := hsound.total_le
          decoded_eq := hsound.decoded_eq
          written_eq := hsound.written_eq
          members_eq := hsound.members_eq
          fits := hsound.fits }
      rcases hf : finish { s.cpio.inner with
        inner := s.cpio.inner.inner.mapProgress ({ · with trailerSeen := true }) } with ⟨res, rest⟩
      obtain ⟨rest', hf', hrel⟩ := (alike_finish hlimit hwhole).exists hf
      rw [hf']
      cases res with
      | error e =>
        refine ⟨?_, Spent.within hrel hw hk, fun h => by cases h⟩
        show (Except.error e, dropAll pending t.dest) = (Except.error e, dropAll pending s.dest)
        rw [hdest]
      | ok unterminated =>
        obtain ⟨hspent, hdecoded⟩ := hrel
        have hmagic : t.cpio.magic = s.cpio.magic := congrArg CpioReader.magic hframe
        dsimp only
        rw [hdest]
        rcases hp : place faults pending s.dest with ⟨res, dest'⟩
        cases res with
        | error e => exact ⟨rfl, hspent.within hw hk, fun h => by cases h⟩
        | ok names =>
          refine ⟨?_, hspent.within hw hk, fun _ => hdecoded⟩
          dsimp only
          rw [hspent.limited_eq, hmagic]

end Extract

/-- A file of three bytes and a directory that says it has as much data as can be said. -/
def boastfulArchive : List UInt8 :=
  odcHeader 0 1 0o100644 0 0 1 0 0 2 3 ++ [97, 0, 1, 2, 3] ++
    odcHeader 0 2 0o040755 0 0 1 0 0 2 odcMaxSize ++ [98, 0] ++ .replicate 40 0

/-- It is read up to one byte past the limit. -/
theorem extract_ceilings_boastful :
    letI := Unicode.ascii
    let limits : ExtractLimits := ⟨190, 8, 0⟩
    let body := BodyReader.new (BufReader.withCapacity 64
      (Socket.once ([128, 0, 0, 199] ++ boastfulArchive) : Socket Payload)) (.length 203) 1000
      (.new fun _ => 0)
    let upload := meteredExtract (Faults.none (fun _ => "x") (2 ^ 40)) limits markingFlate2 .new
      body ⟨fun _ => none, [], [], 0⟩
    upload.2.Within limits ∧ upload.2.decoded = 191 ∧ upload.2.written = 3 ∧
      upload.2.members = 2 := by
  let _ := Unicode.ascii
  intro limits body upload
  have hceilings := extract_ceilings (F := markingFlate2) (Faults.none (fun _ => "x") (2 ^ 40))
    limits .new body ⟨fun _ => none, [], [], 0⟩ (by decide)
  exact ⟨hceilings.2.1, by decide +kernel, by decide +kernel, by decide +kernel⟩

end Omdrop.Proto
