import Omdrop.Stream.BlockWriter
import Omdrop.Stream.Buffered
import Omdrop.Proto.Cpio

namespace Omdrop.Proto

open Omdrop.Stream Omdrop.Text

/-!
# Writing CPIO

`CpioWriter` writes an odc archive member by member.  `OdcMember` and `OdcArchive` say what such
an archive looks like, without a writer: what is written is one (`odcArchive_appendAll`).
-/

/-- The largest numbers that fit the fields. -/
def odcMaxSize : Nat := 0o77777777777
def odcMaxShort : Nat := 0o777777

/-- The bytes of text in the ASCII range. -/
def asciiBytes (t : Text) : List UInt8 := t.map fun c => UInt8.ofNat c.toNat

/-- A number in octal, padded to `width`. -/
def octal (width n : Nat) : List UInt8 := (padded 8 width n).map UInt8.ofNat

/-- What a header says besides the name. -/
structure OdcFields where
  dev : Nat
  mode : Nat
  uid : Nat
  gid : Nat
  mtime : Nat
  size : Nat

/-- A header as it is written. -/
def odcHeader (dev ino mode uid gid nlink rdev mtime namesize size : Nat) : List UInt8 :=
  odcMagic ++ octal 6 dev ++ octal 6 ino ++ octal 6 mode ++ octal 6 uid ++ octal 6 gid ++
    octal 6 nlink ++ octal 6 rdev ++ octal 11 mtime ++ octal 6 namesize ++ octal 11 size

/-- Why a member was not written. -/
inductive CpioWriteError
  | refused (kind : ErrorKind) (message : Text)
  | data (e : IoErr)
  deriving DecidableEq

/-- What is used of a file's metadata. -/
structure Metadata where
  isFile : Bool
  dev : Nat
  mode : Nat
  uid : Nat
  gid : Nat
  mtime : Int
  len : Nat

/-- Writes an archive. -/
structure CpioWriter (W : Type) where
  inner : W
  nextIno : Nat

instance : FiniteRead Unit Payload Cursor where
  read _ n c := (.ok (c.rest.take n), ⟨c.rest.drop n⟩)
  patience _ := 0
  size c := c.rest.length
  length_read h := by
    cases h
    exact List.length_take_le _ _
  patience_read _ := le_rfl
  patience_interrupted h _ := by cases h
  size_read h := by
    cases h
    exact (List.length_drop ..).le.trans (Nat.sub_le _ _)
  size_read_lt {c n r r' b bs} h := by
    obtain ⟨htake, rfl⟩ := Prod.mk.inj h
    have hlen := congrArg List.length (Except.ok.inj htake)
    rw [List.length_take, List.length_cons] at hlen
    rw [List.length_drop]
    omega

namespace CpioWriter

variable {W D : Type} [Sink W]

/-- An empty archive. -/
def new (inner : W) : CpioWriter W := ⟨inner, 0⟩

variable [Read Unit Payload D]

/-- What the steps below are: they fail with the reason that a member is not written. -/
abbrev Step (W : Type) (α : Type) := Fallible CpioWriteError (CpioWriter W) α

/-- Put some pieces below. -/
def put (pieces : List (List UInt8)) : Step W Unit :=
  Fallible.modify fun w => { w with inner := putAll pieces w.inner }

/-- Copies the data of a member of `size` bytes, all there may be of it. -/
def copyData (shown : Text) (size : Nat) (data : D) : Step W Unit :=
  match copyTake () copyChunkBytes size [] data with
  | (.error e, copied, _)  => do
    put [copied]
    Fallible.fail (.data e)
  | (.ok (), copied, data) => do
    put [copied]
    Fallible.failIf (copied.length < size) (.refused .unexpectedEof (shown ++
      ": file shrank while it was being sent (".toList ++ decimal copied.length ++
      " of ".toList ++ decimal size ++ " bytes)".toList))
    match readFull () 1 [] data with
    | (.error e, _)  => Fallible.fail (.data e)
    | (.ok probe, _) => Fallible.failIf (probe ≠ []) (.refused .invalidData (shown ++
        ": file grew while it was being sent".toList))

/-- Appends a member. -/
def writeEntry (name : List UInt8) (f : OdcFields) (data : D) : Step W Unit := do
  let shown := fromUtf8Lossy name
  Fallible.failIf (name = [] ∨ 0 ∈ name ∨ odcMaxShort < name.length + 1)
    (.refused .invalidInput (shown ++ ": unusable archive member name".toList))
  Fallible.failIf (odcMaxSize < f.size) (.refused .invalidInput (shown ++ ": ".toList ++
    decimal f.size ++ " bytes is too large for the cpio format (8 GiB limit)".toList))
  Fallible.modify fun w => { w with nextIno := w.nextIno + 1 }
  let w ← Fallible.get
  Fallible.failIf (odcMaxShort < w.nextIno)
    (.refused .invalidInput "too many files for one cpio archive")
  put [odcHeader (min f.dev odcMaxShort) w.nextIno (f.mode &&& odcMaxShort)
    (min f.uid odcMaxShort) (min f.gid odcMaxShort) 1 0 (min f.mtime odcMaxSize)
    (name.length + 1) f.size]
  put [name]
  put [[0]]
  copyData shown f.size data

/-- Appends a regular file, whose metadata gives all but the data. -/
def appendFile (name : Text) (metadata : Metadata) (data : D) : Step W Unit := do
  Fallible.failIf (!metadata.isFile)
    (.refused .invalidInput (name ++ ": not a regular file".toList))
  writeEntry (utf8 name) ⟨metadata.dev, metadata.mode, metadata.uid, metadata.gid,
    metadata.mtime.toNat, metadata.len⟩ data

/-- Appends a member of any mode. -/
def appendRaw (name : List UInt8) (mode : Nat) (data : List UInt8) : Step W Unit :=
  writeEntry name ⟨0, mode, 0, 0, 0, data.length⟩ (⟨data⟩ : Cursor)

/-- Ends the archive; the writer below, flushed. -/
def finish (w : CpioWriter W) : W :=
  Sink.flush (putAll [odcHeader 0 0 0 0 0 1 0 0 (trailer.length + 1) 0, asciiBytes trailer, [0]]
    w.inner)

end CpioWriter

/-- What a caller appends. -/
inductive Append (D : Type)
  | raw (name : List UInt8) (mode : Nat) (data : List UInt8)
  | file (name : Text) (metadata : Metadata) (data : D)

/-- A member of an archive. -/
structure Member where
  name : List UInt8
  mode : Nat
  data : List UInt8
  deriving DecidableEq

/-- What the header of a member says. -/
def Member.entry (m : Member) : CpioEntry :=
  ⟨fromUtf8Lossy m.name, m.mode &&& odcMaxShort, m.data.length⟩

namespace Append

variable {W D : Type} [Sink W] [Read Unit Payload D]

/-- One call. -/
def run : Append D → CpioWriter.Step W Unit
  | .raw name mode data      => CpioWriter.appendRaw name mode data
  | .file name metadata data => CpioWriter.appendFile name metadata data

/-- Calls, one after another, while they succeed. -/
def runAll : List (Append D) → CpioWriter.Step W Unit
  | []        => pure ()
  | op :: ops => do
    run op
    runAll ops

/-- The member that is appended; of a file, the data that its source gives. -/
def member : Append D → Member
  | .raw name mode data  => ⟨name, mode, data⟩
  | .file name metadata data =>
    ⟨utf8 name, metadata.mode, (copyTake () copyChunkBytes metadata.len [] data).2.1⟩

end Append

/-! ### The format -/

/-- A field of `width` octal digits that says `n`. -/
def Octal (width : Nat) (bs : List UInt8) (n : Nat) : Prop :=
  bs.length = width ∧ n < 8 ^ width ∧ (∀ b ∈ bs, b.toNat < 0x80) ∧
    value 8 (bs.map UInt8.toNat) = some n

theorem octal_octal {width n : Nat} (hw : 0 < width) (h : n < 8 ^ width) :
    Octal width (octal width n) n := by
  have hmem : ∀ c ∈ padded 8 width n, c < 0x80 := by
    intro c hc
    rw [padded, List.leftpad, List.mem_append] at hc
    rcases hc with hc | hc
    · rw [List.eq_of_mem_replicate hc]
      decide
    · obtain ⟨d, hd, rfl⟩ := digitVal_of_mem_numeral (by decide) (by decide) hc
      exact digitCode_lt d (by omega)
  have hcodes : (octal width n).map UInt8.toNat = padded 8 width n := by
    rw [octal, List.map_map]
    conv_rhs => rw [← List.map_id (padded 8 width n)]
    refine List.map_congr_left fun c hc => ?_
    have := hmem c hc
    simp only [Function.comp, UInt8.toNat_ofNat', id]
    omega
  refine ⟨by rw [octal, List.length_map, length_padded (by decide) hw h], h, fun b hb => ?_, ?_⟩
  · obtain ⟨c, hc, rfl⟩ := List.mem_map.mp hb
    have := hmem c hc
    rw [UInt8.toNat_ofNat']
    omega
  · rw [hcodes, value_padded (by decide) (by decide)]

/-- A member as it stands in an odc archive: of the header, only what says the mode, the name's
    size and the file's size matters. -/
structure OdcMember (name : List UInt8) (mode : Nat) (data raw : List UInt8) : Prop where
  name_ne_nil : name ≠ []
  name_nul : 0 ∉ name
  parts : ∃ front modeField middle sizeField lengthField,
    raw = odcMagic ++ (front ++ (modeField ++ (middle ++ (sizeField ++ lengthField)))) ++
      (name ++ [0]) ++ data ∧
    front.length = 12 ∧ Octal 6 modeField mode ∧ middle.length = 35 ∧
    Octal 6 sizeField (name.length + 1) ∧ Octal 11 lengthField data.length

/-- An archive with some members, none of them named as the trailer is. -/
inductive OdcArchive : List Member → List UInt8 → Prop
  | trailer {mode data raw rest} (h : OdcMember (asciiBytes trailer) mode data raw) :
      OdcArchive [] (raw ++ rest)
  | member {m raw ms rest} (h : OdcMember m.name (m.mode &&& odcMaxShort) m.data raw)
      (hlen : m.name.length ≤ maxPathBytes) (hname : m.name ≠ asciiBytes Proto.trailer)
      (hs : OdcArchive ms rest) : OdcArchive (m :: ms) (raw ++ rest)

/-! ### What is written -/

section Written

variable {W D : Type} [Sink W] [Read Unit Payload D]

/-- A header, a name and data make a member. -/
theorem odcMember_header {dev ino mode uid gid mtime : Nat} {name data : List UInt8}
    (hne : name ≠ []) (hnul : 0 ∉ name) (hdev : dev ≤ odcMaxShort) (hino : ino ≤ odcMaxShort)
    (hmode : mode ≤ odcMaxShort) (huid : uid ≤ odcMaxShort) (hgid : gid ≤ odcMaxShort)
    (hmtime : mtime ≤ odcMaxSize) (hname : name.length + 1 ≤ odcMaxShort)
    (hdata : data.length ≤ odcMaxSize) :
    OdcMember name mode data
      (odcHeader dev ino mode uid gid 1 0 mtime (name.length + 1) data.length ++
        (name ++ [0]) ++ data) := by
  have hshort : ∀ {n}, n ≤ odcMaxShort → Octal 6 (octal 6 n) n := fun h =>
    octal_octal (by decide) (Nat.lt_of_le_of_lt h (by decide))
  have hlong : ∀ {n}, n ≤ odcMaxSize → Octal 11 (octal 11 n) n := fun h =>
    octal_octal (by decide) (Nat.lt_of_le_of_lt h (by decide))
  refine ⟨hne, hnul, octal 6 dev ++ octal 6 ino, octal 6 mode, octal 6 uid ++ octal 6 gid ++
    octal 6 1 ++ octal 6 0 ++ octal 11 mtime, octal 6 (name.length + 1),
    octal 11 data.length, ?_, ?_, hshort hmode, ?_, hshort hname, hlong hdata⟩
  · simp only [odcHeader, List.append_assoc]
  · rw [List.length_append, (hshort hdev).1, (hshort hino).1]
  · have h1 : (octal 6 1).length = 6 := by decide
    have h0 : (octal 6 0).length = 6 := by decide
    simp only [List.length_append, (hshort huid).1, (hshort hgid).1, h1, h0, (hlong hmtime).1]

theorem put_ok {pieces : List (List UInt8)} {w w' : CpioWriter W} {u : Unit}
    (h : CpioWriter.put pieces w = (.ok u, w')) :
    Sink.bytes w'.inner = Sink.bytes w.inner ++ pieces.flatten := by
  obtain ⟨_, rfl⟩ := Prod.mk.inj h
  exact bytes_putAll pieces w.inner

/-- The source gives `data`, of `size` bytes, and then nothing. -/
def Gives (source : D) (size : Nat) (data : List UInt8) : Prop :=
  data.length = size ∧ ∃ source' source'',
    copyTake () copyChunkBytes size [] source = (.ok (), data, source') ∧
      readFull () 1 [] source' = (.ok [], source'')

/-- Data is copied in full. -/
private theorem copyData_ok {shown : Text} {size : Nat} {data : D} {w w' : CpioWriter W} {u : Unit}
    (h : CpioWriter.copyData shown size data w = (.ok u, w')) :
    Gives data size (copyTake () copyChunkBytes size [] data).2.1 ∧
      Sink.bytes w'.inner =
        Sink.bytes w.inner ++ (copyTake () copyChunkBytes size [] data).2.1 := by
  rcases hcopy : copyTake () copyChunkBytes size [] data with ⟨res, copied, data'⟩
  cases res with
  | error e =>
    simp only [CpioWriter.copyData, hcopy] at h
    obtain ⟨_, _, _, h₁⟩ := Fallible.bind_eq_ok h
    cases h₁
  | ok res =>
    simp only [CpioWriter.copyData, hcopy] at h
    obtain ⟨_, w₁, hput, h₁⟩ := Fallible.bind_eq_ok h
    obtain ⟨_, w₂, hshrank, h₂⟩ := Fallible.bind_eq_ok h₁
    obtain ⟨hlen, rfl⟩ := Fallible.failIf_eq_ok hshrank
    rcases hprobe : readFull () 1 [] data' with ⟨probed, data''⟩
    cases probed with
    | error e =>
      simp only [hprobe] at h₂
      cases h₂
    | ok probe =>
      simp only [hprobe] at h₂
      obtain ⟨hgrew, rfl⟩ := Fallible.failIf_eq_ok h₂
      simp only [decide_eq_false_iff_not, not_lt, not_not] at hlen hgrew
      obtain ⟨got, _, hgot, _, hstop⟩ := copyTake_trace hcopy
      rw [List.nil_append] at hgot
      refine ⟨⟨?_, data', data'', hcopy, hgrew ▸ hprobe⟩, by rw [put_ok hput]; simp⟩
      rw [hgot] at hlen ⊢
      rcases hstop with ⟨hl, _⟩ | ⟨hl, _⟩ <;> omega

/-- **What a successful call writes.** -/
theorem writeEntry_ok {name : List UInt8} {f : OdcFields} {data : D} {w w' : CpioWriter W}
    {u : Unit} (h : CpioWriter.writeEntry name f data w = (.ok u, w')) :
    ∃ raw, OdcMember name (f.mode &&& odcMaxShort)
        (copyTake () copyChunkBytes f.size [] data).2.1 raw ∧
      Gives data f.size (copyTake () copyChunkBytes f.size [] data).2.1 ∧
      Sink.bytes w'.inner = Sink.bytes w.inner ++ raw := by
  simp only [CpioWriter.writeEntry] at h
  obtain ⟨_, w₁, hname, h₁⟩ := Fallible.bind_eq_ok h
  obtain ⟨_, w₂, hsize, h₂⟩ := Fallible.bind_eq_ok h₁
  obtain ⟨_, w₃, hino, h₃⟩ := Fallible.bind_eq_ok h₂
  obtain ⟨_, w₄, hget, h₄⟩ := Fallible.bind_eq_ok h₃
  obtain ⟨_, w₅, hshort, h₅⟩ := Fallible.bind_eq_ok h₄
  obtain ⟨_, w₆, hheader, h₆⟩ := Fallible.bind_eq_ok h₅
  obtain ⟨_, w₇, hput, h₇⟩ := Fallible.bind_eq_ok h₆
  obtain ⟨_, w₈, hnul, h₈⟩ := Fallible.bind_eq_ok h₇
  clear h h₁ h₂ h₃ h₄ h₅ h₆ h₇
  obtain ⟨name_ok, rfl⟩ := Fallible.failIf_eq_ok hname
  obtain ⟨size_ok, rfl⟩ := Fallible.failIf_eq_ok hsize
  cases hino
  cases hget
  obtain ⟨ino_ok, rfl⟩ := Fallible.failIf_eq_ok hshort
  obtain ⟨hgives, hbytes⟩ := copyData_ok h₈
  simp only [decide_eq_false_iff_not, not_or, not_lt] at name_ok size_ok ino_ok
  refine ⟨_, odcMember_header name_ok.1 name_ok.2.1 (min_le_right f.dev _) ino_ok
    Nat.and_le_right (min_le_right f.uid _) (min_le_right f.gid _) (min_le_right f.mtime _)
    name_ok.2.2 (hgives.1.trans_le size_ok), hgives, ?_⟩
  rw [hbytes, put_ok hnul, put_ok hput, put_ok hheader, hgives.1]
  simp [List.append_assoc]

/-- A cursor is steady. -/
theorem steady_cursor : Steady (fun _ => False) (fun (c : Cursor) P => c.rest = P) where
  ok := by
    rintro ⟨⟩ n c c' bs P rfl h
    cases h
    exact ⟨_, (List.take_append_drop n _).symm, rfl⟩
  finished := by
    rintro ⟨⟩ n c c' P rfl hn h
    have htake := Except.ok.inj (Prod.mk.inj h).1
    exact (List.take_eq_nil_iff.mp htake).resolve_left (by omega)
  error h hr := by cases hr

/-- The same of a caller's operation. -/
theorem Append.run_ok {op : Append D} {w w' : CpioWriter W} {u : Unit}
    (h : op.run w = (.ok u, w')) :
    ∃ raw, OdcMember op.member.name (op.member.mode &&& odcMaxShort) op.member.data raw ∧
      Sink.bytes w'.inner = Sink.bytes w.inner ++ raw := by
  cases op with
  | raw name mode data =>
    obtain ⟨raw, hraw, _, hbytes⟩ := writeEntry_ok h
    rcases steady_cursor.copyTake () copyChunkBytes data.length [] (r := ⟨data⟩) rfl with
      ⟨r', hcopy, _⟩ | ⟨_, _, _, _, hf⟩
    · rw [hcopy, List.nil_append, List.take_length] at hraw
      exact ⟨raw, hraw, hbytes⟩
    · exact hf.elim
  | file name metadata data =>
    simp only [Append.run, CpioWriter.appendFile] at h
    obtain ⟨_, w₁, hfile, h₁⟩ := Fallible.bind_eq_ok h
    obtain ⟨_, rfl⟩ := Fallible.failIf_eq_ok hfile
    obtain ⟨raw, hraw, _, hbytes⟩ := writeEntry_ok h₁
    exact ⟨raw, hraw, hbytes⟩

/-- What some operations and the end of the archive put below: an archive of the members up to
    the first that is named as the trailer is. -/
theorem odcArchive_runAll {ops : List (Append D)} {w w' : CpioWriter W} {u : Unit}
    (h : Append.runAll ops w = (.ok u, w'))
    (hlen : ∀ op ∈ ops, op.member.name.length ≤ maxPathBytes) :
    ∃ raw, Sink.bytes w'.finish = Sink.bytes w.inner ++ raw ∧
      OdcArchive ((ops.map Append.member).takeWhile (·.name ≠ asciiBytes trailer)) raw := by
  induction ops generalizing w with
  | nil =>
    cases h
    have hmember : OdcMember (asciiBytes trailer) 0 [] (odcHeader 0 0 0 0 0 1 0 0
        ((asciiBytes trailer).length + 1) ([] : List UInt8).length ++
          (asciiBytes trailer ++ [0]) ++ []) :=
      odcMember_header (by decide) (by decide) (Nat.zero_le _) (Nat.zero_le _) (Nat.zero_le _)
        (Nat.zero_le _) (Nat.zero_le _) (Nat.zero_le _) (by decide) (Nat.zero_le _)
    refine ⟨_ ++ [], ?_, .trailer hmember⟩
    rw [CpioWriter.finish, Sink.bytes_flush, bytes_putAll]
    simp [asciiBytes]
  | cons op ops ih =>
    obtain ⟨_, w₁, hrun, h₁⟩ := Fallible.bind_eq_ok h
    obtain ⟨raw, hraw, hbytes⟩ := Append.run_ok hrun
    obtain ⟨rest, hrest, harchive⟩ := ih h₁ fun op hop => hlen op (List.mem_cons_of_mem _ hop)
    refine ⟨raw ++ rest, by rw [hrest, hbytes, List.append_assoc], ?_⟩
    rw [List.map_cons, List.takeWhile_cons]
    split
    · rename_i hname
      exact .member hraw (hlen op List.mem_cons_self) (by simpa using hname) harchive
    · rename_i hname
      have hname : op.member.name = asciiBytes trailer := by simpa using hname
      rw [hname] at hraw
      exact .trailer hraw

end Written

end Omdrop.Proto
