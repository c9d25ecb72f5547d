import Mathlib.Data.List.DropRight
import Mathlib.Tactic.IntervalCases
import Omdrop.Proto.Error
import Omdrop.Proto.Repr
import Omdrop.Stream.BufReader

namespace Omdrop.Proto

open Omdrop.Stream Omdrop.Text

/-!
# The chunked encoding

A chunked body is a sequence of chunks, each a size line, that many bytes and a CRLF, and then
a chunk of size zero with its trailer lines.  Here are the size lines as the receiver parses
them, and the encoding as a grammar:

* `IsSizeLine`, `Trailers` — the lines of the encoding;
* `ChunkSeq K st raw P` — `raw` is what may still come in the state `st`, and `P` the payload it
  brings; `K` says with what bytes the sequence may stop before a size line;
* `Closing` — the way a body stops that is complete: its closing chunk and trailers.
-/

/-- The longest chunk-size or trailer line. -/
def maxChunkLineBytes : Nat := 128

/-- The longest trailers. -/
def maxTrailerBytes : Nat := 8 * 1024

/-- The bytes that end a chunk. -/
def crlf : List UInt8 := [13, 10]

/-! ### Size lines -/

/-- ASCII white space. -/
def isAsciiSpace (b : UInt8) : Bool := b == 32 || b == 9 || b == 10 || b == 12 || b == 13

/-- The bytes without the white space around them. -/
def trimAscii (bs : List UInt8) : List UInt8 :=
  (bs.dropWhile isAsciiSpace).rdropWhile isAsciiSpace

/-- The size on a chunk-size line: what stands before any extension. -/
def sizeToken (line : List UInt8) : List UInt8 := trimAscii (line.takeWhile (· ≠ 59))

/-- The number a size token stands for, if it is one. -/
def tokenSize (token : List UInt8) : Option Nat :=
  if token = [] then none else value 16 (token.map UInt8.toNat)

/-- The message for a body over its limit. -/
def tooLarge (limit : Nat) : BodyError :=
  .tooLarge ("request body exceeds ".toList ++ decimal limit ++ "-byte limit".toList)

/-- The size a chunk-size line announces. -/
def chunkSize (limit : Nat) (line : List UInt8) : Except BodyError Nat :=
  let token := sizeToken line
  match tokenSize token with
  | none      => .error (.invalid ("invalid chunk size: ".toList ++ pyBytesRepr (token.take 40)))
  | some size => if size < 2 ^ 64 then .ok size else .error (tooLarge limit)

theorem chunkSize_eq_ok {limit size : Nat} {line : List UInt8} :
    chunkSize limit line = .ok size ↔
      tokenSize (sizeToken line) = some size ∧ size < 2 ^ 64 := by
  simp only [chunkSize]
  split
  · rename_i h
    simp [h]
  · rename_i n h
    split
    · rename_i hn
      simp only [h, Except.ok.injEq, Option.some.injEq, iff_self_and]
      rintro rfl
      exact hn
    · rename_i hn
      simp only [h, reduceCtorEq, Option.some.injEq, false_iff, not_and]
      rintro rfl
      exact hn

/-! ### Lines -/

/-- A line: it ends with its only newline. -/
def IsLine (line : List UInt8) : Prop := ∃ body, line = body ++ [newline] ∧ newline ∉ body

theorem IsLine.ne_nil {line : List UInt8} (h : IsLine line) : line ≠ [] := by
  obtain ⟨body, rfl, _⟩ := h
  simp

/-- A line that fits is the first line of what it begins. -/
theorem IsLine.firstLine_append {line : List UInt8} (h : IsLine line) {n : Nat}
    (hn : line.length ≤ n) (rest : List UInt8) : firstLine n (line ++ rest) = line := by
  obtain ⟨body, rfl, hbody⟩ := h
  rw [List.length_append, List.length_singleton] at hn
  rw [List.append_assoc, firstLine_of_notMem (k := body.length) (by omega) (by simpa using hbody)]
  simp only [List.take_left, List.drop_left]
  obtain ⟨m, hm⟩ : ∃ m, n - body.length = m + 1 := ⟨n - body.length - 1, by omega⟩
  rw [hm, List.singleton_append, firstLine, if_pos rfl]

/-- A first line that ends with a newline is a line. -/
theorem isLine_firstLine {n : Nat} {bs : List UInt8}
    (h : (firstLine n bs).getLast? = some newline) : IsLine (firstLine n bs) := by
  fun_induction firstLine n bs with
  | case1 => simp at h
  | case2 => simp at h
  | case3 => exact ⟨[], rfl, by simp⟩
  | case4 n b bs hb ih =>
    have hne : firstLine n bs ≠ [] := by
      intro h0
      rw [h0] at h
      simp [hb] at h
    rw [List.getLast?_cons_of_ne_nil hne] at h
    obtain ⟨body, hline, hbody⟩ := ih h
    exact ⟨b :: body, by rw [hline, List.cons_append], by simp [Ne.symm hb, hbody]⟩

/-- A first line that ends without a newline and has room to spare is all there was. -/
theorem firstLine_eq_self {n : Nat} {bs : List UInt8} (hlen : (firstLine n bs).length < n)
    (h : (firstLine n bs).getLast? ≠ some newline) : firstLine n bs = bs := by
  fun_induction firstLine n bs with
  | case1 => simp at hlen
  | case2 => rfl
  | case3 => simp at h
  | case4 n b bs hb ih =>
    rw [ih (by simpa using hlen)]
    intro h0
    have hne : firstLine n bs ≠ [] := by
      intro hnil
      simp [hnil] at h0
    rw [List.getLast?_cons_of_ne_nil hne] at h
    exact h h0

/-! ### The encoding -/

/-- A line that announces a chunk of `size` bytes. -/
structure IsSizeLine (line : List UInt8) (size : Nat) : Prop where
  isLine : IsLine line
  length_le : line.length ≤ maxChunkLineBytes
  size_eq : tokenSize (sizeToken line) = some size
  size_lt : size < 2 ^ 64

/-- The trailer lines after a closing chunk, of which `seen` bytes have gone by. -/
inductive Trailers : Nat → List UInt8 → Prop
  | last {seen line} (hline : line = crlf ∨ line = [newline])
      (hseen : seen + line.length ≤ maxTrailerBytes) : Trailers seen line
  | more {seen line rest} (hline : IsLine line) (hlen : line.length ≤ maxChunkLineBytes)
      (hseen : seen + line.length ≤ maxTrailerBytes) (hcrlf : line ≠ crlf)
      (hlf : line ≠ [newline]) (hrest : Trailers (seen + line.length) rest) :
      Trailers seen (line ++ rest)

theorem isLine_crlf : IsLine crlf := ⟨[13], rfl, by decide⟩

theorem isLine_newline : IsLine [newline] := ⟨[], rfl, by simp⟩

/-- The first of some trailer lines. -/
theorem Trailers.uncons {seen : Nat} {raw : List UInt8} (h : Trailers seen raw) :
    ∃ line rest, raw = line ++ rest ∧ IsLine line ∧ line.length ≤ maxChunkLineBytes ∧
      seen + line.length ≤ maxTrailerBytes ∧
      (line ≠ crlf → line ≠ [newline] → Trailers (seen + line.length) rest) := by
  cases h with
  | last hline hseen =>
    refine ⟨raw, [], by simp, ?_, ?_, hseen, ?_⟩
    · rcases hline with rfl | rfl
      · exact isLine_crlf
      · exact isLine_newline
    · rcases hline with rfl | rfl <;> decide
    · intro h1 h2
      exact absurd hline (not_or.mpr ⟨h1, h2⟩)
  | more hline hlen hseen _ _ hrest =>
    exact ⟨_, _, rfl, hline, hlen, hseen, fun _ _ => hrest⟩

/-- Two lines that begin the same bytes are the same line. -/
theorem IsLine.eq_of_append_eq {line line' rest rest' : List UInt8} (h : IsLine line)
    (h' : IsLine line') (heq : line ++ rest = line' ++ rest') : line = line' ∧ rest = rest' := by
  have hn : line.length ≤ max line.length line'.length := le_max_left _ _
  have hn' : line'.length ≤ max line.length line'.length := le_max_right _ _
  have hline := h.firstLine_append hn rest
  rw [heq, h'.firstLine_append hn' rest'] at hline
  subst hline
  exact ⟨rfl, List.append_cancel_left heq⟩

/-- Trailers that begin the same bytes are the same trailers. -/
theorem Trailers.eq_of_append_eq {seen : Nat} {raw raw' rest rest' : List UInt8}
    (h : Trailers seen raw) (h' : Trailers seen raw') (heq : raw ++ rest = raw' ++ rest') :
    raw = raw' ∧ rest = rest' := by
  have hlast : ∀ line : List UInt8, line = crlf ∨ line = [newline] → IsLine line := by
    rintro line (rfl | rfl)
    · exact isLine_crlf
    · exact isLine_newline
  induction h generalizing raw' with
  | last hline hseen =>
    cases h' with
    | last hline' hseen' => exact (hlast _ hline).eq_of_append_eq (hlast _ hline') heq
    | more hline' _ _ hcrlf hlf _ =>
      rw [List.append_assoc] at heq
      obtain ⟨rfl, _⟩ := (hlast _ hline).eq_of_append_eq hline' heq
      exact absurd hline (not_or.mpr ⟨hcrlf, hlf⟩)
  | more hline hlen hseen hcrlf hlf hrest ih =>
    rw [List.append_assoc] at heq
    cases h' with
    | last hline' hseen' =>
      obtain ⟨rfl, _⟩ := hline.eq_of_append_eq (hlast _ hline') heq
      exact absurd hline' (not_or.mpr ⟨hcrlf, hlf⟩)
    | more hline' _ _ _ _ hrest' =>
      rw [List.append_assoc] at heq
      obtain ⟨rfl, heq'⟩ := hline.eq_of_append_eq hline' heq
      obtain ⟨rfl, hr⟩ := ih hrest' heq'
      exact ⟨rfl, hr⟩

/-- The closing chunk and its trailers. -/
def Closing (raw : List UInt8) : Prop :=
  ∃ line trailers, raw = line ++ trailers ∧ IsSizeLine line 0 ∧ Trailers 0 trailers

/-- Where a chunked body stands: before a size line, `left` bytes before the end of a chunk,
    before the CRLF after one, or past the trailers. -/
inductive Chunk
  | size
  | data (left : Nat)
  | ending
  | done
  deriving DecidableEq, Repr

/-- What may come in a state, with the payload it brings. -/
inductive ChunkSeq (K : List UInt8 → Prop) : Chunk → List UInt8 → List UInt8 → Prop
  | close {raw} (h : K raw) : ChunkSeq K .size raw []
  | size {line left raw P} (hline : IsSizeLine line left) (hpos : 0 < left)
      (h : ChunkSeq K (.data left) raw P) : ChunkSeq K .size (line ++ raw) P
  | data {left d raw P} (hpos : 0 < left) (hd : d.length = left) (h : ChunkSeq K .ending raw P) :
      ChunkSeq K (.data left) (d ++ raw) (d ++ P)
  | ending {raw P} (h : ChunkSeq K .size raw P) : ChunkSeq K .ending (crlf ++ raw) P
  | done : ChunkSeq K .done [] []

/-- A whole chunk. -/
theorem ChunkSeq.chunk {K : List UInt8 → Prop} {line d raw P : List UInt8}
    (hline : IsSizeLine line d.length) (hd : d ≠ []) (h : ChunkSeq K .size raw P) :
    ChunkSeq K .size (line ++ (d ++ (crlf ++ raw))) (d ++ P) :=
  have hpos := List.length_pos_iff.mpr hd
  .size hline hpos (.data hpos rfl (.ending h))

/-- Complete chunks may be followed by anything that may come before a size line. -/
theorem ChunkSeq.concat {K : List UInt8 → Prop} {st : Chunk} {raw raw' P P' : List UInt8}
    (h : ChunkSeq (· = []) st raw P) (hst : st ≠ .done) (h' : ChunkSeq K .size raw' P') :
    ChunkSeq K st (raw ++ raw') (P ++ P') := by
  induction h with
  | close h =>
    rw [h]
    exact h'
  | size hline hpos _ ih =>
    rw [List.append_assoc]
    exact .size hline hpos (ih (by simp))
  | data hpos hd _ ih =>
    rw [List.append_assoc, List.append_assoc]
    exact .data hpos hd (ih (by simp))
  | ending _ ih =>
    rw [List.append_assoc]
    exact .ending (ih (by simp))
  | done => exact absurd rfl hst

/-- The chunk of size zero that closes a body without trailers. -/
def lastChunk : List UInt8 := [48, 13, 10, 13, 10]

theorem closing_lastChunk : Closing lastChunk :=
  ⟨[48, 13, 10], crlf, rfl, ⟨⟨[48, 13], rfl, by decide⟩, by decide, by decide, by decide⟩,
    .last (.inl rfl) (by decide)⟩

/-! ### Size lines as they are written -/

/-- A size as a sender writes it. -/
def sizeDigits (n : Nat) : List UInt8 := (numeral 16 n).map UInt8.ofNat

theorem mem_sizeDigits {n : Nat} {b : UInt8} (h : b ∈ sizeDigits n) :
    b ≠ newline ∧ b ≠ 59 ∧ isAsciiSpace b = false := by
  obtain ⟨c, hc, rfl⟩ := List.mem_map.mp h
  obtain ⟨d, hd, rfl⟩ := digitVal_of_mem_numeral (by decide) (by decide) hc
  interval_cases d <;> decide

private theorem toNat_sizeDigits (n : Nat) : (sizeDigits n).map UInt8.toNat = numeral 16 n := by
  rw [sizeDigits, List.map_map]
  refine (List.map_congr_left fun c hc => ?_).trans (List.map_id _)
  obtain ⟨d, hd, rfl⟩ := digitVal_of_mem_numeral (by decide) (by decide) hc
  have := digitCode_lt d hd
  simp only [Function.comp_apply, UInt8.toNat_ofNat', id_eq]
  omega

/-- **The size line of a chunk.** -/
theorem isSizeLine_sizeDigits {n : Nat} (h : n < 2 ^ 64) :
    IsSizeLine (sizeDigits n ++ crlf) n where
  isLine := by
    refine ⟨sizeDigits n ++ [13], by rw [List.append_assoc]; rfl, ?_⟩
    rw [List.mem_append, not_or]
    exact ⟨fun hmem => (mem_sizeDigits hmem).1 rfl, by decide⟩
  length_le := by
    have hlen : (numeral 16 n).length ≤ 16 :=
      length_numeral_le (by decide) (by decide) (h.trans_le (by decide))
    rw [List.length_append, sizeDigits, List.length_map]
    exact (Nat.add_le_add_right hlen 2).trans (by decide)
  size_eq := by
    have hne : sizeDigits n ≠ [] := by
      rw [sizeDigits, ne_eq, List.map_eq_nil_iff]
      exact numeral_ne_nil n
    have htake : (sizeDigits n ++ crlf).takeWhile (· ≠ 59) = sizeDigits n ++ crlf := by
      rw [List.takeWhile_eq_self_iff]
      intro b hb
      rcases List.mem_append.mp hb with hb | hb
      · simpa using (mem_sizeDigits hb).2.1
      · simp only [crlf, List.mem_cons, List.not_mem_nil, or_false] at hb
        rcases hb with rfl | rfl <;> decide
    have htrim : trimAscii (sizeDigits n ++ crlf) = sizeDigits n := by
      have hdrop : (sizeDigits n ++ crlf).dropWhile isAsciiSpace = sizeDigits n ++ crlf := by
        obtain ⟨b, bs, hb⟩ := List.exists_cons_of_ne_nil hne
        rw [hb, List.cons_append, List.dropWhile_cons_of_neg]
        rw [(mem_sizeDigits (hb ▸ List.mem_cons_self)).2.2]
        simp
      have hlast : (sizeDigits n).rdropWhile isAsciiSpace = sizeDigits n := by
        rw [List.rdropWhile_eq_self_iff]
        intro hne'
        rw [(mem_sizeDigits (List.getLast_mem hne')).2.2]
        simp
      rw [trimAscii, hdrop, show crlf = [13] ++ [10] from rfl, ← List.append_assoc,
        List.rdropWhile_concat_pos _ _ _ (by decide), List.rdropWhile_concat_pos _ _ _ (by decide),
        hlast]
    rw [sizeToken, htake, htrim, tokenSize, if_neg hne, toNat_sizeDigits,
      value_numeral (by decide) (by decide)]
  size_lt := h

end Omdrop.Proto
