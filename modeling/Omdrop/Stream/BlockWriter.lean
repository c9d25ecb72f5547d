import Mathlib.Data.PNat.Defs
import Mathlib.Data.List.Basic

namespace Omdrop.Stream

/-!
# Writers that fill blocks

A `BlockWriter` collects what is written to it into blocks of one size and puts each on the
writer below it as it fills up, framed.  `framed` is what a byte string comes to in this way,
without a writer; whatever the writes, their bytes end up so (`Wrote.emit`).
-/

/-- Where written bytes go: `bytes` is everything that has been put there. -/
class Sink (W : Type) where
  put : List UInt8 → W → W
  flush : W → W
  bytes : W → List UInt8
  bytes_put : ∀ bs w, bytes (put bs w) = bytes w ++ bs
  bytes_flush : ∀ w, bytes (flush w) = bytes w

attribute [simp] Sink.bytes_put Sink.bytes_flush

/-- A buffer in memory. -/
instance : Sink (List UInt8) where
  put bs w := w ++ bs
  flush w := w
  bytes w := w
  bytes_put _ _ := rfl
  bytes_flush _ := rfl

/-- Put some pieces, one after another. -/
def putAll {W : Type} [Sink W] (pieces : List (List UInt8)) (w : W) : W :=
  pieces.foldl (fun w piece => Sink.put piece w) w

@[simp] theorem bytes_putAll {W : Type} [Sink W] (pieces : List (List UInt8)) (w : W) :
    Sink.bytes (putAll pieces w) = Sink.bytes w ++ pieces.flatten := by
  induction pieces generalizing w with
  | nil => simp [putAll]
  | cons piece pieces ih =>
    have h := ih (Sink.put piece w)
    rw [Sink.bytes_put, List.append_assoc] at h
    simpa [putAll] using h

/-- A writer with the block that it is filling, which is never full. -/
structure BlockWriter (size : ℕ+) (W : Type) where
  inner : W
  block : List UInt8
  room : block.length < size

namespace BlockWriter

variable {size : ℕ+} {W : Type} [Sink W] (frame : List UInt8 → List (List UInt8))

/-- A writer to which nothing has been written. -/
def new (inner : W) : BlockWriter size W := ⟨inner, [], size.pos⟩

/-- Put a block, if there is anything in it, as the pieces that `frame` makes of it. -/
def emit (inner : W) (block : List UInt8) : W :=
  if block = [] then inner else putAll (frame block) inner

/-- One call: takes what there is room for and answers how much it was. -/
def write (data : List UInt8) (w : BlockWriter size W) : Nat × BlockWriter size W :=
  let take := min (size - w.block.length) data.length
  let block := w.block ++ data.take take
  if h : block.length < size then (take, ⟨w.inner, block, h⟩)
  else (take, ⟨emit frame w.inner block, [], size.pos⟩)

theorem write_fst (data : List UInt8) (w : BlockWriter size W) :
    (w.write frame data).1 = min (size - w.block.length) data.length := by
  simp only [write]
  split <;> rfl

/-- Calls, until all of `data` is taken. -/
def writeAll (data : List UInt8) (w : BlockWriter size W) : BlockWriter size W :=
  if data = [] then w
  else writeAll (data.drop (w.write frame data).1) (w.write frame data).2
termination_by data.length
decreasing_by
  have hroom := w.room
  have hpos := List.length_pos_iff.mpr ‹data ≠ []›
  rw [List.length_drop, write_fst]
  omega

/-! ### What the writer below holds -/

/-- The blocks of a byte string, each as it is framed. -/
def framed (size : ℕ+) (frame : List UInt8 → List (List UInt8)) (data : List UInt8) :
    List UInt8 :=
  if data = [] then [] else
    (frame (data.take size)).flatten ++ framed size frame (data.drop size)
termination_by data.length
decreasing_by
  have hpos := List.length_pos_iff.mpr ‹data ≠ []›
  have := size.pos
  rw [List.length_drop]
  omega

@[simp] theorem framed_nil : framed size frame [] = [] := by
  rw [framed, if_pos rfl]

/-- A string that fits in a block is one. -/
private theorem framed_of_length_le {data : List UInt8} (hne : data ≠ [])
    (hlen : data.length ≤ size) :
    framed size frame data = (frame data).flatten := by
  rw [framed, if_neg hne, List.take_of_length_le hlen, List.drop_of_length_le hlen, framed_nil,
    List.append_nil]

/-- After full blocks, the blocks start over. -/
theorem framed_append {P Q : List UInt8} (hP : (size : Nat) ∣ P.length) :
    framed size frame (P ++ Q) = framed size frame P ++ framed size frame Q := by
  fun_induction framed size frame P with
  | case1 => rw [List.nil_append, List.nil_append]
  | case2 P hne ih =>
    have hle : (size : Nat) ≤ P.length :=
      Nat.le_of_dvd (List.length_pos_iff.mpr hne) hP
    have hdrop : (size : Nat) ∣ (P.drop size).length := by
      rw [List.length_drop]
      exact Nat.dvd_sub hP (Nat.dvd_refl _)
    rw [framed, if_neg (by simp [hne]), List.take_append_of_le_length hle,
      List.drop_append_of_le_length hle, ih hdrop, List.append_assoc]

/-- `P` has been written to a writer that started on `start`: the full blocks of it are below,
    and the rest is the block being filled. -/
def Wrote (start : List UInt8) (w : BlockWriter size W) (P : List UInt8) : Prop :=
  ∃ P₀, (size : Nat) ∣ P₀.length ∧ Sink.bytes w.inner = start ++ framed size frame P₀ ∧
    P = P₀ ++ w.block

theorem wrote_new (inner : W) :
    Wrote frame (Sink.bytes inner) (new inner : BlockWriter size W) [] :=
  ⟨[], Nat.dvd_zero _, by simp [new], rfl⟩

variable {frame}

/-- Putting a block puts what it is framed as. -/
theorem bytes_emit (inner : W) {block : List UInt8} (hlen : block.length ≤ size) :
    Sink.bytes (emit frame inner block) = Sink.bytes inner ++ framed size frame block := by
  unfold emit
  split
  · rename_i hnil
    rw [hnil, framed_nil, List.append_nil]
  · rename_i hne
    rw [bytes_putAll, framed_of_length_le frame hne hlen]

variable {start : List UInt8} {w : BlockWriter size W} {P : List UInt8}

theorem Wrote.write (h : Wrote frame start w P) (data : List UInt8) :
    Wrote frame start (w.write frame data).2 (P ++ data.take (w.write frame data).1) := by
  obtain ⟨P₀, hdvd, hbytes, rfl⟩ := h
  have hroom := w.room
  rw [write_fst, List.append_assoc]
  simp only [BlockWriter.write]
  split
  · exact ⟨P₀, hdvd, hbytes, rfl⟩
  · rename_i hfull
    have hlen : (w.block ++ data.take (min (size - w.block.length) data.length)).length = size := by
      rw [List.length_append, List.length_take] at hfull ⊢
      omega
    refine ⟨P₀ ++ (w.block ++ data.take (min (size - w.block.length) data.length)), ?_, ?_, ?_⟩
    · rw [List.length_append, hlen]
      exact Nat.dvd_add hdvd (Nat.dvd_refl _)
    · rw [bytes_emit w.inner hlen.le, hbytes, framed_append frame hdvd, List.append_assoc]
    · rw [List.append_nil]

theorem Wrote.writeAll (h : Wrote frame start w P) (data : List UInt8) :
    Wrote frame start (w.writeAll frame data) (P ++ data) := by
  fun_induction BlockWriter.writeAll frame data w generalizing P with
  | case1 w => rwa [List.append_nil]
  | case2 data w hne ih =>
    have hw := ih (h.write data)
    rwa [List.append_assoc, List.take_append_drop] at hw

/-- Writes, one after another. -/
theorem Wrote.foldl (h : Wrote frame start w P) (writes : List (List UInt8)) :
    Wrote frame start (writes.foldl (fun w data => w.writeAll frame data) w)
      (P ++ writes.flatten) := by
  induction writes generalizing w P with
  | nil => simpa using h
  | cons data writes ih =>
    have hw := ih (h.writeAll data)
    rwa [List.append_assoc] at hw

/-- **What is below in the end.**  With the last block put, the framed blocks of all that was
    written. -/
theorem Wrote.emit (h : Wrote frame start w P) :
    Sink.bytes (emit frame w.inner w.block) = start ++ framed size frame P := by
  obtain ⟨P₀, hdvd, hbytes, rfl⟩ := h
  rw [bytes_emit w.inner w.room.le, hbytes, framed_append frame hdvd, List.append_assoc]

end BlockWriter

end Omdrop.Stream
