import Omdrop.Proto.CpioTrace
import Omdrop.Proto.Dest
import Omdrop.Proto.DvzipStream
import Omdrop.Proto.Names

namespace Omdrop.Proto

open Omdrop.Stream Omdrop.Text

/-!
# Extraction

`extract` stores the regular files of the archive in a body.  Each is written under a hidden
name as it arrives, and all of them are placed once the body has ended.

* `Limited` — the decoder, stopped one byte past the limit;
* `storeMembers` — the members, one by one, as partial files;
* `placeAll` — every partial file under a free name, or none of them.
-/

/-- Ceilings for one upload. -/
structure ExtractLimits where
  byteLimit : Nat
  maxMembers : Nat
  minFreeBytes : Nat

/-- What an upload became. -/
structure Extracted where
  names : List Text
  decodedBytes : Nat
  magic : List UInt8
  unterminated : Bool

/-! ### The limit -/

/-- The decoder under the limit on decoded bytes.  Nothing reads again after the refusal, so
    `total` is at most `limit` whenever it is read. -/
structure Limited (F : Flate2) (R : Type) where
  inner : DvzipDecoder F R
  total : Nat
  limit : Nat

/-- What the limit does with the decoder `D` below it: a call for some bytes, and the note of how
    much was decoded so far. -/
structure Decoding (D : Type) where
  call : Nat → D → Except IoErr (List UInt8) × D
  note : Nat → D → D

/-- One call under a limit, of which `total` is used up, for at most one byte past it: the result,
    the decoder and the new total. -/
def Decoding.under {D : Type} (K : Decoding D) (limit n total : Nat) (inner : D) :
    Except IoErr (List UInt8) × D × Nat :=
  match K.call (min n (limit - total + 1)) inner with
  | (.error e, inner) => (.error e, inner, total)
  | (.ok bs, inner)   =>
    let total := total + bs.length
    let inner := K.note total inner
    if limit < total then
      (.error (.custom (.limit ("decompressed archive exceeds ".toList ++ decimal limit ++
        "-byte limit".toList))), inner, total)
    else (.ok bs, inner, total)

/-- The decoder of a body. -/
def Decoding.dvzip {F : Flate2} {R : Type} [FiniteRead Bool Payload R] :
    Decoding (DvzipDecoder F R) where
  call := Read.read ()
  note total d := d.mapProgress ({ · with decoded := total })

namespace Limited

variable {F : Flate2} {R : Type} [FiniteRead Bool Payload R]

/-- One call, for at most one byte past the limit. -/
def read (n : Nat) (l : Limited F R) : Except IoErr (List UInt8) × Limited F R :=
  match Decoding.dvzip.under l.limit n l.total l.inner with
  | (res, inner, total) => (res, { l with inner, total })

/-- **What one call can do.** -/
theorem read_cases {n : Nat} {l l' : Limited F R} {res : Except IoErr (List UInt8)}
    (h : l.read n = (res, l')) : l'.limit = l.limit ∧ ∃ got inner,
      Read.read () (min n (l.limit - l.total + 1)) l.inner = (got, inner) ∧
      ((∃ e, got = .error e ∧ res = .error e ∧ l'.inner = inner ∧ l'.total = l.total) ∨
        ∃ bs, got = .ok bs ∧ l'.total = l.total + bs.length ∧
          l'.inner = inner.mapProgress ({ · with decoded := l.total + bs.length }) ∧
          ((∃ m, l.limit < l.total + bs.length ∧ res = .error (.custom (.limit m))) ∨
            l.total + bs.length ≤ l.limit ∧ res = .ok bs)) := by
  rcases hr : Read.read () (min n (l.limit - l.total + 1)) l.inner with ⟨got, inner⟩
  have hcall : Decoding.dvzip.call (min n (l.limit - l.total + 1)) l.inner = (got, inner) := hr
  unfold read Decoding.under at h
  rw [hcall] at h
  cases got with
  | error e =>
    cases h
    exact ⟨rfl, _, _, rfl, .inl ⟨e, rfl, rfl, rfl, rfl⟩⟩
  | ok bs =>
    dsimp only at h
    by_cases hover : l.limit < l.total + bs.length
    · rw [if_pos hover] at h
      cases h
      exact ⟨rfl, _, _, rfl, .inr ⟨bs, rfl, rfl, rfl, .inl ⟨_, hover, rfl⟩⟩⟩
    · rw [if_neg hover] at h
      cases h
      exact ⟨rfl, _, _, rfl, .inr ⟨bs, rfl, rfl, rfl, .inr ⟨not_lt.mp hover, rfl⟩⟩⟩

end Limited

/-- Progress is no matter of patience. -/
@[simp] theorem DvzipDecoder.patience_mapProgress {F : Flate2} {R : Type}
    [FiniteRead Bool Payload R] (f : ExtractProgress → ExtractProgress) (d : DvzipDecoder F R) :
    Read.patience (d.mapProgress f) = Read.patience d := by
  rcases d with ⟨_ | _⟩ <;> rfl

namespace Limited

variable {F : Flate2} {R : Type} [FiniteRead Bool Payload R]

instance : FiniteRead Unit Payload (Limited F R) where
  read _ := read
  patience l := Read.patience l.inner
  size l := l.limit + 1 - l.total
  length_read h := by
    obtain ⟨_, _, _, hr, ⟨_, _, he, _⟩ | ⟨bs, rfl, _, _, ⟨_, _, he⟩ | ⟨_, he⟩⟩⟩ := read_cases h
    · cases he
    · cases he
    · cases he
      exact (Read.length_read hr).trans (min_le_left _ _)
  patience_read h := by
    obtain ⟨_, _, _, hr, ⟨_, _, _, hi, _⟩ | ⟨_, _, _, hi, _⟩⟩ := read_cases h
    · rw [hi]
      exact Read.patience_read hr
    · rw [hi, DvzipDecoder.patience_mapProgress]
      exact Read.patience_read hr
  patience_interrupted h hi := by
    obtain ⟨_, _, _, hr, ⟨e, rfl, he, hin, _⟩ | ⟨_, _, _, _, ⟨m, _, he⟩ | ⟨_, he⟩⟩⟩ := read_cases h
    · cases he
      rw [hin]
      exact Read.patience_interrupted hr hi
    · cases he
      simp at hi
    · cases he
  size_read h := by
    obtain ⟨hl, _, _, _, ⟨_, _, _, _, ht⟩ | ⟨_, _, ht, _⟩⟩ := read_cases h
    · rw [hl, ht]
    · rw [hl, ht]
      omega
  size_read_lt {_ _ _ _ b bs} h := by
    obtain ⟨hl, _, _, _, ⟨_, _, he, _⟩ | ⟨_, _, ht, _, ⟨_, _, he⟩ | ⟨hle, he⟩⟩⟩ := read_cases h
    · cases he
    · cases he
    · cases he
      rw [hl, ht]
      rw [List.length_cons] at hle ⊢
      omega

end Limited

/-! ### Members -/

/-- What has to be free while a file is written; the sum saturates. -/
@[irreducible] def freeFloor (minFree : Nat) : Nat := min (minFree + diskCheckInterval) (2 ^ 64 - 1)

/-- Free space is looked at before the first piece of a file, and then every
    `diskCheckInterval` bytes; answers how many bytes may be written before the next look. -/
def checkDisk (faults : Faults) (label : Text) (minFree untilCheck n : Nat) : Dest.Step Nat :=
  if untilCheck ≤ n then do
    let free ← Dest.freeBytes faults
    Fallible.failIf (free < freeFloor minFree)
      (.limit (label ++ " stopped to preserve ".toList ++ decimal minFree ++ " bytes free".toList))
    pure diskCheckInterval
  else pure untilCheck

/-- One piece of a file. -/
def writePiece (faults : Faults) (label : Text) (minFree : Nat) (path : FileName)
    (untilCheck : Nat) (piece : List UInt8) : Dest.Step Nat := do
  let untilCheck ← checkDisk faults label minFree untilCheck piece.length
  Dest.write faults path piece
  pure (untilCheck - piece.length)

/-- The archive that is read and the directory that is written. -/
structure Extraction (F : Flate2) (R : Type) where
  cpio : CpioReader (Limited F R)
  dest : Dest

/-- A file that has been written in full. -/
structure Partial where
  name : Text
  path : FileName
  deriving DecidableEq, Repr

/-- Remove a partial file and take it off the registry. -/
def Partial.drop (p : Partial) (d : Dest) : Dest := (d.unlink p.path).forget p.path

/-- Remove the partial files. -/
def dropAll (pending : List Partial) (d : Dest) : Dest := pending.foldl (fun d p => p.drop d) d

/-- Is the member an AppleDouble file? -/
def appleDouble (path : Text) : Bool :=
  ['.', '_'].isPrefixOf (lastComponent (· == '/') path)

/-- Whether a member is stored, when the ceilings allow it: it is the `members`-th, and
    `outputBytes` bytes come before it. -/
def accept (limits : ExtractLimits) (members outputBytes : Nat) (entry : CpioEntry) :
    Except ArchiveError Bool :=
  if limits.maxMembers < members then
    .error (.limit ("archive exceeds ".toList ++ decimal limits.maxMembers ++
      "-member limit".toList))
  else if !entry.isFile then .ok false
  else if appleDouble entry.path then .ok false
  else if limits.byteLimit < entry.size then
    .error (.limit ("file ".toList ++ pyRepr entry.path ++ " declares ".toList ++
      decimal entry.size ++ " bytes".toList))
  else if limits.byteLimit < (outputBytes + entry.size) % 2 ^ 64 then
    .error (.limit ("archive declares more than ".toList ++ decimal limits.byteLimit ++
      " output bytes".toList))
  else .ok true

section Members

variable {F : Flate2} {R : Type} [FiniteRead Bool Payload R] (faults : Faults)
  (limits : ExtractLimits)

/-- The rest of a member's data, into its file. -/
def writeMember (label : Text) (path : FileName) (untilCheck : Nat) (s : Extraction F R) :
    Except ArchiveError Unit × Extraction F R :=
  match _h : s.cpio.readData ioChunkBytes with
  | (.error e, cpio)      => (.error (.ofIo e), { s with cpio })
  | (.ok [], cpio)        => (.ok (), { s with cpio })
  | (.ok (b :: bs), cpio) =>
    match writePiece faults label limits.minFreeBytes path untilCheck (b :: bs) s.dest with
    | (.error e, dest)      => (.error e, ⟨cpio, dest⟩)
    | (.ok untilCheck, dest) => writeMember label path untilCheck ⟨cpio, dest⟩
termination_by s.cpio.left
decreasing_by exact CpioReader.left_readData_lt _h

private theorem size_writeMember (label : Text) (path : FileName) (untilCheck : Nat)
    (s : Extraction F R) :
    FiniteRead.size (writeMember faults limits label path untilCheck s).2.cpio.inner ≤
      FiniteRead.size s.cpio.inner := by
  fun_induction writeMember faults limits label path untilCheck s with
  | case1 _ _ _ _ h => exact CpioReader.size_readData h
  | case2 _ _ _ h => exact CpioReader.size_readData h
  | case3 _ _ _ _ _ h => exact CpioReader.size_readData h
  | case4 _ _ _ _ _ h _ _ _ ih => exact ih.trans (CpioReader.size_readData h)

/-- A member's file, under a hidden name. -/
def storeMember [Unicode] (member : Text) (s : Extraction F R) :
    Except ArchiveError Partial × Extraction F R :=
  let name := safeName member "file"
  match Dest.create faults s.dest with
  | (.error e, dest) => (.error e, { s with dest })
  | (.ok path, dest) =>
    match writeMember faults limits ("file ".toList ++ pyRepr name) path 0
        { s with dest := dest.add path } with
    | (.error e, s) => (.error e, { s with dest := (s.dest.forget path).unlink path })
    | (.ok (), s)   => (.ok ⟨name, path⟩, s)

theorem size_storeMember [Unicode] {member : Text} {s s' : Extraction F R}
    {res : Except ArchiveError Partial} (h : storeMember faults limits member s = (res, s')) :
    FiniteRead.size s'.cpio.inner ≤ FiniteRead.size s.cpio.inner := by
  simp only [storeMember] at h
  split at h
  · cases h
    exact le_rfl
  · rename_i path dest _
    have hle := size_writeMember faults limits ("file ".toList ++ pyRepr (safeName member "file"))
      path 0 { s with dest := dest.add path }
    split at h
    · rename_i hw
      cases h
      rw [hw] at hle
      exact hle
    · rename_i hw
      cases h
      rw [hw] at hle
      exact hle

/-- The rest of the members; `pending` are the files of those before them. -/
def storeMembers [Unicode] (members outputBytes : Nat) (pending : List Partial)
    (s : Extraction F R) : Except ArchiveError (List Partial) × Extraction F R :=
  match _h : s.cpio.nextEntry with
  | (.error e, cpio)       => (.error e, ⟨cpio, dropAll pending s.dest⟩)
  | (.ok none, cpio)       => (.ok pending, { s with cpio })
  | (.ok (some entry), cpio) =>
    match accept limits (members + 1) outputBytes entry with
    | .error e  => (.error e, ⟨cpio, dropAll pending s.dest⟩)
    | .ok false => storeMembers (members + 1) outputBytes pending { s with cpio }
    | .ok true  =>
      match _hs : storeMember faults limits entry.path { s with cpio } with
      | (.error e, s) => (.error e, { s with dest := dropAll pending s.dest })
      | (.ok p, s)    =>
        storeMembers (members + 1) ((outputBytes + entry.size) % 2 ^ 64) (pending ++ [p]) s
termination_by FiniteRead.size s.cpio.inner
decreasing_by
  · exact CpioReader.size_nextEntry_lt _h
  · exact (size_storeMember faults limits _hs).trans_lt (CpioReader.size_nextEntry_lt _h)

end Members

/-! ### Placing -/

/-- A file under the first of the names that is free. -/
def placeFirst (faults : Faults) (path : FileName) :
    List Text → Dest → Except IoErr (Option Text) × Dest
  | [], d                      => (.ok none, d)
  | candidate :: candidates, d =>
    match d.persistNoclobber faults path (utf8 candidate) with
    | (.ok (), d)   => (.ok (some candidate), d)
    | (.error e, d) =>
      if e.kind = .alreadyExists then placeFirst faults path candidates d else (.error e, d)

/-- The partial files under free names, after those that are `stored`. -/
def placeAll (faults : Faults) (stored : List Text) :
    List Partial → Dest → Except IoErr Unit × List Text × Dest
  | [], d           => (.ok (), stored, d)
  | p :: pending, d =>
    match placeFirst faults p.path (candidateNames p.name) d with
    | (.error e, d)            => (.error e, stored, dropAll pending (p.drop d))
    | (.ok none, d)            =>
      -- off the registry first: the file goes when the failure is returned
      (.error (.os .alreadyExists (String.ofList (p.name ++ ": no free name".toList))), stored,
        dropAll pending ((d.forget p.path).unlink p.path))
    | (.ok (some candidate), d) => placeAll faults (stored ++ [candidate]) pending (d.forget p.path)

/-- Remove what was stored, last first. -/
def rollBack (stored : List Text) (d : Dest) : Dest :=
  stored.reverse.foldl (fun d name => d.unlink (utf8 name)) d

/-- The partial files under free names, or none of them. -/
def place (faults : Faults) (pending : List Partial) (d : Dest) :
    Except ArchiveError (List Text) × Dest :=
  match placeAll faults [] pending d with
  | (.ok (), stored, d)   => (.ok stored, d)
  | (.error e, stored, d) => (.error (.io e), rollBack stored d)

/-! ### Extraction -/

section Extract

variable {F : Flate2} {R : Type} [FiniteRead Bool Payload R] [Unicode] (faults : Faults)
  (limits : ExtractLimits)

/-- The rest of the body, to its end: whether it was left unterminated.  A body that goes quiet
    once the archive is whole ends here too. -/
def finish (rest : Limited F R) : Except ArchiveError Bool × Limited F R :=
  match drain () (fun _ => copyChunkBytes) 0 [] rest with
  | (.ok _, rest)    => (.ok false, rest)
  | (.error e, rest) => if isComplete e then (.ok true, rest) else (.error (.ofIo e), rest)

/-- Store the regular files of the archive in a body: what it became, with what is left of the
    body. -/
def extract (F : Flate2) (progress : ExtractProgress) (body : R) (dest : Dest) :
    Except ArchiveError (Extracted × DvzipDecoder F R) × Dest :=
  match DvzipDecoder.new progress body with
  | .error e    => (.error (.ofIo e), dest)
  | .ok decoder =>
    match storeMembers faults limits 0 0 [] ⟨.new ⟨decoder, 0, limits.byteLimit⟩, dest⟩ with
    | (.error e, s)    => (.error e, s.dest)
    | (.ok pending, s) =>
      let whole := { s.cpio.inner with
        inner := s.cpio.inner.inner.mapProgress ({ · with trailerSeen := true }) }
      match finish whole with
      | (.error e, _)          => (.error e, dropAll pending s.dest)
      | (.ok unterminated, rest) =>
        match place faults pending s.dest with
        | (.error e, dest) => (.error e, dest)
        | (.ok names, dest) =>
          (.ok (⟨names, rest.total, s.cpio.magic, unterminated⟩, rest.inner), dest)

end Extract

end Omdrop.Proto
