import Mathlib
import Omdrop.Stream.BlockWriter
import Omdrop.Proto.Framing

namespace Omdrop.Send

open Omdrop.Stream Omdrop.Text Omdrop.Proto

/-!
# The sender's chunked bodies

`Chunked` collects what is written to it into chunks of `chunkBytes` and puts each on the
connection as it fills up; `finish` puts there what is left and the closing chunk.

`chunked_body_roundTrip` joins it to the receiver's `BodyReader`.
-/

/-- The size of a full chunk. -/
def chunkBytes : ℕ+ := (65536 : ℕ).toPNat'

/-- Chunked coding over a writer. -/
abbrev Chunked (W : Type) := BlockWriter chunkBytes W

namespace Chunked

variable {W : Type} [Sink W]

/-- One chunk as it stands on the connection, put there at once. -/
def frame (buf : List UInt8) : List (List UInt8) :=
  [sizeDigits buf.length ++ crlf ++ buf ++ crlf]

/-- Writes all of `data`. -/
def writeAll (data : List UInt8) (w : Chunked W) : Chunked W := BlockWriter.writeAll frame data w

/-- Flushing puts nothing on the connection. -/
def flush (w : Chunked W) : Chunked W := w

/-- Puts what is left and the closing chunk. -/
def finish (w : Chunked W) : W := Sink.put lastChunk (BlockWriter.emit frame w.inner w.block)

/-- Framed blocks are a sequence of chunks. -/
theorem chunkSeq_framed (data : List UInt8) :
    ChunkSeq (· = []) .size (BlockWriter.framed chunkBytes frame data) data := by
  fun_induction BlockWriter.framed chunkBytes frame data with
  | case1 => exact .close rfl
  | case2 data hne ih =>
    have hlen : (data.take chunkBytes).length < 2 ^ 64 :=
      (List.length_take_le _ _).trans_lt (by decide)
    have hpos : data.take chunkBytes ≠ [] := by
      rw [Ne, List.take_eq_nil_iff]
      exact not_or.mpr ⟨chunkBytes.pos.ne', hne⟩
    have hseq := ChunkSeq.chunk (isSizeLine_sizeDigits hlen) hpos ih
    rw [List.take_append_drop] at hseq
    simpa [frame] using hseq

end Chunked

/-- The body that some writes make. -/
def chunkedBody (writes : List (List UInt8)) : List UInt8 :=
  (writes.foldl (fun w data => Chunked.writeAll data w) (BlockWriter.new [])).finish

/-- Whatever the writes, their body is a sequence of chunks and the closing chunk. -/
private theorem chunkSeq_chunkedBody (writes : List (List UInt8)) :
    ChunkSeq Closing .size (chunkedBody writes) writes.flatten := by
  have hbytes : chunkedBody writes =
      BlockWriter.framed chunkBytes Chunked.frame writes.flatten ++ lastChunk := by
    have hnew : BlockWriter.Wrote Chunked.frame [] (BlockWriter.new [] : Chunked (List UInt8)) [] :=
      BlockWriter.wrote_new Chunked.frame ([] : List UInt8)
    exact congrArg (· ++ lastChunk) (hnew.foldl writes).emit
  have h := (Chunked.chunkSeq_framed writes.flatten).concat (by simp) (.close closing_lastChunk)
  rwa [List.append_nil, ← hbytes] at h

/-- **Chunked bodies.**  The receiver's reader, on a calm connection with the body of any writes
    and anything after it, delivers just what was written and leaves the rest on the connection;
    nothing but its deadline can stop it. -/
theorem chunked_body_roundTrip {R : Type} [BufRead Payload R] (writes : List (List UInt8))
    (after : List UInt8) (r : R) (limit : Nat) (clock : Nat → Nat) (patience : Option Patience)
    (whole : Bool) (room : Nat → ℕ+) (hcalm : ByteStream.calm r)
    (hbytes : ByteStream.bytes r = chunkedBody writes ++ after)
    (hlimit : writes.flatten.length ≤ limit) :
    let b := { BodyReader.new r .chunked limit (.new clock) with patience }
    (∃ b', drain whole room 0 [] b = (.ok writes.flatten, b') ∧ ByteStream.bytes b'.r = after) ∨
    ∃ b', drain whole room 0 [] b = (.error BodyReader.tooSlow, b') ∧ Slow clock := by
  refine BodyReader.drain_owes ?_ whole room
  exact ⟨hcalm, rfl, hlimit, chunkedBody writes, hbytes, chunkSeq_chunkedBody writes⟩

/-- Three writes, one of them empty, read a byte at a time from a connection that is interrupted
    once and goes on with another byte. -/
theorem chunked_body_roundTrip_small :
    let socket : Socket Payload :=
      ⟨[.data 51 [13], .failure .interrupted "", .data 10 [1, 2, 3, 13, 10, 48], .data 13 [10, 13],
        .data 10 [7]]⟩
    ∃ b', drain false (fun _ => 1) 0 [] (BodyReader.new (BufReader.withCapacity 4 socket) .chunked 3
      (.new fun _ => 0)) = (.ok [1, 2, 3], b') ∧ ByteStream.bytes b'.r = [7] := by
  intro socket
  rcases chunked_body_roundTrip [[1], [], [2, 3]] [7] (BufReader.withCapacity 4 socket) 3
      (fun _ => 0) none false (fun _ => 1) (by simp [ByteStream.calm, Socket.Calm, socket,
        BufReader.withCapacity]) (by decide +kernel) (by decide) with h | ⟨_, _, i, hi⟩
  · exact h
  · exact absurd hi (Nat.not_lt_zero _)

end Omdrop.Send
