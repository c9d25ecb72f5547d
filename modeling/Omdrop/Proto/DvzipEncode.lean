import Omdrop.Stream.BlockWriter
import Omdrop.Proto.DvzipStream
import Omdrop.Proto.Framing

namespace Omdrop.Proto

open Omdrop.Stream

/-!
# Writing DVZip

`DvzipEncoder` collects what is written to it into blocks of `dvzipBlockBytes` and puts each on
the writer below it, compressed when that makes it smaller and stored when it does not.
`dvzip` is what a byte string comes to, whatever the writes.

`dvzip_roundTrip` joins it to the decoder.
-/

/-- A block of DVZip, in bytes. -/
def dvzipBlock : ℕ+ := ⟨dvzipBlockBytes, by decide⟩

/-- A number in four bytes, big-endian. -/
def beBytes (v : Nat) : List UInt8 :=
  [.ofNat (v / 16777216), .ofNat (v / 65536), .ofNat (v / 256), .ofNat v]

/-- Writes DVZip to a writer. -/
abbrev DvzipEncoder (W : Type) := BlockWriter dvzipBlock W

namespace DvzipEncoder

variable (F : Flate2) {W : Type} [Sink W]

/-- A block as it is put below: its header, then its payload. -/
def frame (block : List UInt8) : List (List UInt8) :=
  let compressed := F.deflate block
  if compressed.length < block.length then [beBytes compressed.length, compressed]
  else [beBytes (dvzipStored ||| block.length), block]

/-- Writes all of `data`. -/
def writeAll (data : List UInt8) (w : DvzipEncoder W) : DvzipEncoder W :=
  BlockWriter.writeAll (frame F) data w

/-- Flushes the writer below, and that only. -/
def flush (w : DvzipEncoder W) : DvzipEncoder W := { w with inner := Sink.flush w.inner }

/-- Puts the last block; the writer below, flushed. -/
def finish (w : DvzipEncoder W) : W :=
  Sink.flush (BlockWriter.emit (frame F) w.inner w.block)

end DvzipEncoder

/-- What a caller does with an encoder. -/
inductive EncoderOp
  | write (data : List UInt8)
  | flush

/-- What an operation writes. -/
def EncoderOp.written : EncoderOp → List UInt8
  | .write data => data
  | .flush      => []

/-- One operation. -/
def EncoderOp.run (F : Flate2) {W : Type} [Sink W] (w : DvzipEncoder W) :
    EncoderOp → DvzipEncoder W
  | .write data => DvzipEncoder.writeAll F data w
  | .flush      => DvzipEncoder.flush w

/-- A byte string in DVZip. -/
def dvzip (F : Flate2) (data : List UInt8) : List UInt8 :=
  BlockWriter.framed dvzipBlock (DvzipEncoder.frame F) data

/-- What some operations put on a writer. -/
def dvzipEncode (F : Flate2) {W : Type} [Sink W] (ops : List EncoderOp) (inner : W) : W :=
  (ops.foldl (EncoderOp.run F) (BlockWriter.new inner)).finish F

/-! ### The bytes -/

section Bytes

variable {F : Flate2} {W : Type} [Sink W]

private theorem wrote_run {start P : List UInt8} {w : DvzipEncoder W}
    (h : BlockWriter.Wrote (DvzipEncoder.frame F) start w P) (op : EncoderOp) :
    BlockWriter.Wrote (DvzipEncoder.frame F) start (op.run F w) (P ++ op.written) := by
  cases op with
  | write data => exact h.writeAll data
  | flush =>
    obtain ⟨P₀, hdvd, hbytes, hP⟩ := h
    exact ⟨P₀, hdvd, by simpa [EncoderOp.run, DvzipEncoder.flush] using hbytes,
      (List.append_nil P).trans hP⟩

private theorem wrote_ops {start P : List UInt8} {w : DvzipEncoder W}
    (h : BlockWriter.Wrote (DvzipEncoder.frame F) start w P) (ops : List EncoderOp) :
    BlockWriter.Wrote (DvzipEncoder.frame F) start (ops.foldl (EncoderOp.run F) w)
      (P ++ ops.flatMap EncoderOp.written) := by
  induction ops generalizing w P with
  | nil => simpa using h
  | cons op ops ih =>
    have hw := ih (wrote_run h op)
    rwa [List.append_assoc] at hw

/-- **The encoded bytes depend on the data alone.** -/
theorem bytes_dvzipEncode (ops : List EncoderOp) (inner : W) :
    Sink.bytes (dvzipEncode F ops inner) =
      Sink.bytes inner ++ dvzip F (ops.flatMap EncoderOp.written) := by
  have h := (wrote_ops (BlockWriter.wrote_new (DvzipEncoder.frame F) inner) ops).emit
  rw [dvzipEncode, DvzipEncoder.finish, Sink.bytes_flush, h, List.nil_append, dvzip]

@[simp] theorem length_beBytes (v : Nat) : (beBytes v).length = 4 := rfl

/-- A header says the number it was made of. -/
theorem headerValue_beBytes {v : Nat} (h : v < 2 ^ 32) : headerValue (beBytes v) = v := by
  simp only [headerValue, beBytes, List.foldl_cons, List.foldl_nil, UInt8.toNat_ofNat']
  omega

/-- The header of a stored block. -/
private theorem stored_or {n : Nat} (h : n ≤ dvzipBlockBytes) :
    dvzipStored ||| n = dvzipStored + n :=
  (Nat.two_pow_add_eq_or_of_lt (i := 31) (h.trans_lt (by decide)) 1).symm

/-- A block is put compressed and smaller, or stored. -/
theorem frame_cases (F : Flate2) {block : List UInt8} (hlen : block.length ≤ dvzipBlockBytes) :
    ((F.deflate block).length < dvzipBlockBytes ∧ (DvzipEncoder.frame F block).flatten =
        beBytes (F.deflate block).length ++ F.deflate block) ∨
      (DvzipEncoder.frame F block).flatten = beBytes (dvzipStored + block.length) ++ block := by
  simp only [DvzipEncoder.frame]
  split
  · rename_i hshrinks
    exact .inl ⟨hshrinks.trans_le hlen, by simp⟩
  · exact .inr (by simp [stored_or hlen])

/-- Framed blocks are well formed, and decode to what was framed. -/
private theorem blocks_dvzip {Zlib : List UInt8 → List UInt8 → Prop}
    (hdeflate : ∀ data, Zlib (F.deflate data) data) (data : List UInt8) :
    Blocks Zlib (dvzip F data) data := by
  unfold dvzip
  fun_induction BlockWriter.framed dvzipBlock (DvzipEncoder.frame F) data with
  | case1 => exact .nil
  | case2 data hne ih =>
    have hlen : (data.take dvzipBlock).length ≤ dvzipBlockBytes := List.length_take_le _ _
    conv_rhs => rw [← List.take_append_drop dvzipBlock data]
    rcases frame_cases F hlen with ⟨hlt, hframe⟩ | hframe
    · rw [hframe, List.append_assoc]
      have hstored : (F.deflate (data.take dvzipBlock)).length < dvzipStored :=
        hlt.trans (by decide)
      exact .compressed (length_beBytes _) (headerValue_beBytes (hstored.trans (by decide)))
        hstored (hdeflate _) ih
    · rw [hframe, List.append_assoc]
      exact .stored (length_beBytes _) (headerValue_beBytes
        ((Nat.add_le_add_left hlen _).trans_lt (by decide))) ih

/-- **No gzip.**  Encoded bytes do not start as a gzip member does: their first byte is part of
    a length, or the stored bit. -/
theorem take_dvzip_ne_gzipMagic (data : List UInt8) : (dvzip F data).take 2 ≠ gzipMagic := by
  have hfirst : ∀ {v rest}, v / 16777216 % 256 ≠ 0x1f →
      (beBytes v ++ rest).take 2 ≠ gzipMagic := by
    intro v rest hv h
    have hbyte : UInt8.ofNat (v / 16777216) = 0x1f := (List.cons.inj h).1
    have := congrArg UInt8.toNat hbyte
    rw [UInt8.toNat_ofNat'] at this
    exact hv this
  unfold dvzip
  rw [BlockWriter.framed]
  split
  · decide
  · have hlen : (data.take dvzipBlock).length ≤ 65536 := List.length_take_le _ _
    rcases frame_cases F hlen with ⟨hlt, hframe⟩ | hframe
    · have hlt : (F.deflate (data.take dvzipBlock)).length < 65536 := hlt
      rw [hframe, List.append_assoc]
      exact hfirst (by omega)
    · rw [hframe, List.append_assoc]
      exact hfirst (by change (0x80000000 + _) / 16777216 % 256 ≠ 0x1f; omega)

end Bytes

/-! ### The round trip -/

/-- **DVZip round trip.**  However a byte string is written, what is put below is `dvzip` of it;
    it does not start as a gzip member does; and over any steady source of it the decoder takes
    it for blocks and yields the byte string, whatever room its reads are given. -/
theorem dvzip_roundTrip {F : Flate2} {Zlib : List UInt8 → List UInt8 → Prop}
    (hzlib : F.zlib.Correct Zlib) (hdeflate : ∀ data, Zlib (F.deflate data) data) {R : Type}
    [FiniteRead Bool Payload R] {S : R → List UInt8 → Prop} (hS : Steady (fun _ => False) S)
    {W : Type} [Sink W] (ops : List EncoderOp) (inner : W) (source : R)
    (progress : ExtractProgress) (room : Nat → ℕ+)
    (hsource : S source (dvzip F (ops.flatMap EncoderOp.written))) :
    Sink.bytes (dvzipEncode F ops inner) =
      Sink.bytes inner ++ dvzip F (ops.flatMap EncoderOp.written) ∧
    (dvzip F (ops.flatMap EncoderOp.written)).take 2 ≠ gzipMagic ∧
    ∃ inner block d', DvzipDecoder.new progress source = .ok ⟨.blocks inner block⟩ ∧
      Drains () room 0 (⟨.blocks inner block⟩ : DvzipDecoder F R)
        (ops.flatMap EncoderOp.written) d' := by
  have hmagic := take_dvzip_ne_gzipMagic (F := F) (ops.flatMap EncoderOp.written)
  refine ⟨bytes_dvzipEncode ops inner, hmagic, ?_⟩
  obtain ⟨Rest, hdec, hinit⟩ := hzlib
  rcases DvzipDecoder.new_steady (F := F) hS hsource progress with ⟨inner, hcoming, hnew⟩ |
    ⟨_, _, hf⟩
  · rw [if_neg hmagic] at hnew
    have hdue : DvzipDecoder.BlocksDue (F := F) S Zlib Rest ⟨.blocks inner .header⟩
        (ops.flatMap EncoderOp.written) :=
      ⟨_, _, _, rfl, hcoming, .header (blocks_dvzip hdeflate _)⟩
    rcases (DvzipDecoder.steady_blocks hdec (fun i o h => (hinit i o).mp h) hS).drains () room 0
      hdue with ⟨d', hd, _⟩ | ⟨_, _, hf⟩
    · exact ⟨inner, .header, d', hnew, hd⟩
    · exact hf.elim
  · exact hf.elim

/-- The zlib stream of a hundred zeros. -/
def zeroStream : List UInt8 := [120, 156, 99, 96, 160, 61, 0, 0, 0, 100, 0, 1]

/-- Bytes, each of them marked. -/
def mark (data : List UInt8) : List UInt8 := data.flatMap (fun b => [1, b]) ++ [0]

/-- Marked bytes, back again. -/
def unmark : List UInt8 → Option (List UInt8)
  | [0]            => some []
  | 1 :: b :: rest => (unmark rest).map (b :: ·)
  | _              => none

/-- Compressors that know `zeroStream` and mark the bytes of anything else. -/
def markingFlate2 : Flate2 where
  zlib := .ofCode fun input => if input = zeroStream then some (.replicate 100 0) else unmark input
  gunzip := .ofCode fun _ => none
  deflate data := if data = .replicate 100 0 then zeroStream else mark data

private theorem unmark_mark (data : List UInt8) :
    unmark (mark data) = some data ∧ ∀ j < (mark data).length, unmark ((mark data).take j) = none := by
  induction data with
  | nil => exact ⟨rfl, fun j hj => by obtain rfl : j = 0 := Nat.lt_one_iff.mp hj; rfl⟩
  | cons b data ih =>
    have hmark : mark (b :: data) = 1 :: b :: mark data := rfl
    rw [hmark]
    refine ⟨by simp [unmark, ih.1], fun j hj => ?_⟩
    rcases j with _ | _ | j
    · rfl
    · rfl
    · simp [unmark, ih.2 j (by simpa using hj)]

/-- Marked bytes are a word, and so is `zeroStream`. -/
private theorem word_deflate (data : List UInt8) :
    StreamDecoder.Word (fun input => if input = zeroStream then some (.replicate 100 0)
      else unmark input) [] (markingFlate2.deflate data) data := by
  simp only [markingFlate2]
  split
  · rename_i hzero
    subst hzero
    have hpart : ∀ j < 12, (if zeroStream.take j = zeroStream then
        some (List.replicate 100 (0 : UInt8)) else unmark (zeroStream.take j)) = none := by decide
    exact ⟨by decide, rfl, fun j _ h1 => hpart j h1⟩
  · obtain ⟨hwhole, hpart⟩ := unmark_mark data
    have hne : ∀ j, (mark data).take j ≠ zeroStream := by
      intro j h
      cases data with
      | nil => rcases j with _ | j <;> simp [mark, zeroStream] at h
      | cons b data => rcases j with _ | j <;> simp [mark, zeroStream] at h
    have hall := hne (mark data).length
    rw [List.take_length] at hall
    refine ⟨by simp [mark], ?_, fun j h0 h1 => ?_⟩
    · exact (if_neg hall).trans hwhole
    · exact (if_neg (hne j)).trans (hpart j h1)

/-- A hundred zeros, written in two goes around a flush, sent as a body of known length in three
    arrivals with an interruption, and read three bytes at a time. -/
theorem dvzip_roundTrip_zeros :
    let ops : List EncoderOp := [.write (.replicate 30 0), .flush, .write (.replicate 70 0)]
    let socket : Socket Payload := ⟨[.data 0 [0, 0, 12, 120, 156, 99, 96],
      .failure .interrupted "", .data 160 [], .data 61 [0, 0, 0, 100, 0, 1, 77]]⟩
    let source := BodyReader.new (BufReader.withCapacity 8 socket) (.length 16) 100
      (.new fun _ => 0)
    dvzipEncode markingFlate2 ops [] = [0, 0, 0, 12] ++ zeroStream ∧
    ∃ inner block d', DvzipDecoder.new .new source = .ok ⟨.blocks inner block⟩ ∧
      Drains () (fun _ => 3) 0 (⟨.blocks inner block⟩ : DvzipDecoder markingFlate2 _)
        (.replicate 100 0) d' := by
  intro ops socket source
  have hwritten : ops.flatMap EncoderOp.written = .replicate 100 0 := by decide
  have hdvzip : dvzip markingFlate2 (.replicate 100 0) = [0, 0, 0, 12] ++ zeroStream := by
    decide +kernel
  have hsteady : Steady (fun _ => False) (BodyReader.Owes (fun _ => 0) [77]) :=
    (BodyReader.steady (R := BufReader (Socket Payload)) (fun _ => 0) [77]).imp
      fun e ⟨_, i, hi⟩ => Nat.not_lt_zero _ hi
  obtain ⟨hbytes, _, hdecode⟩ := dvzip_roundTrip (F := markingFlate2)
    (StreamDecoder.correct_ofCode _) word_deflate hsteady ops ([] : List UInt8) source .new
    (fun _ => 3) (by
      rw [hwritten, hdvzip]
      exact ⟨by simp [ByteStream.calm, Socket.Calm, source, socket, BodyReader.new,
        BufReader.withCapacity], rfl, by decide, [0, 0, 0, 12] ++ zeroStream, by decide +kernel,
        by decide, by decide⟩)
  rw [hwritten] at hbytes hdecode
  rw [hdvzip] at hbytes
  exact ⟨hbytes, hdecode⟩

end Omdrop.Proto
