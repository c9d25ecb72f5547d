import Omdrop.Stream.Parser
import Omdrop.Proto.CpioStream

namespace Omdrop.Proto

open Omdrop.Stream Omdrop.Text

/-!
# What the bytes of an archive say

A parser of the odc and newc formats that knows nothing of readers: `Outline` is what an archive's
bytes come to, member after member, and `outline` takes the bytes apart.  `Parses` compares a step
of the reader with a parser; from it, a caller of the reader `Sees` the outline of the bytes,
whatever it asks for (`sees_of_stands`).  As a trailer ends an archive in front of any bytes
(`rest?_members_append`), an archive that is cut before its trailer's end is refused (`cpio_reads`).
-/

/-! ### Headers -/

/-- A field of a header: the offset after the magic, and the width. -/
structure HeaderField where
  offset : Nat
  width : Nat
  deriving DecidableEq

/-- Where a header has its fields, in which radix they are written, and to what boundary a header
    and a member's data are filled up. -/
structure Layout where
  length : Nat
  radix : Nat
  mode : HeaderField
  namesize : HeaderField
  size : HeaderField
  align : Nat
  deriving DecidableEq

namespace Layout

/-- The old portable format. -/
def odc : Layout := ⟨70, 8, ⟨12, 6⟩, ⟨53, 6⟩, ⟨59, 11⟩, 1⟩

/-- The new format, with checksums or without. -/
def newc : Layout := ⟨104, 16, ⟨8, 8⟩, ⟨88, 8⟩, ⟨48, 8⟩, 4⟩

/-- The format that a magic stands for. -/
def ofMagic (magic : List UInt8) : Option Layout :=
  if magic = odcMagic then some odc
  else if magic = newcMagic ∨ magic = newcCrcMagic then some newc
  else none

/-- How many bytes fill up `n` of them. -/
def fill (l : Layout) (n : Nat) : Nat := (l.align - n % l.align) % l.align

/-- The number in a field, of which every byte is a digit. -/
def number (l : Layout) (f : HeaderField) (h : List UInt8) : Option Nat :=
  value l.radix (((h.drop f.offset).take f.width).map UInt8.toNat)

end Layout

/-- What a header says before the name. -/
structure Head where
  layout : Layout
  mode : Nat
  namesize : Nat
  size : Nat
  deriving DecidableEq

/-- The fields after a magic. -/
def parseFields (l : Layout) : Parser Head := do
  let h ← .take l.length
  let mode ← .ofOption (l.number l.mode h)
  let namesize ← .ofOption (l.number l.namesize h)
  let size ← .ofOption (l.number l.size h)
  pure ⟨l, mode, namesize, size⟩

/-- A name of 1 to `maxPathBytes + 1` bytes, the last of them NUL, and what fills the header up. -/
def parseName (k : Head) : Parser Text := do
  .check (1 ≤ k.namesize ∧ k.namesize ≤ maxPathBytes + 1)
  let name ← .take k.namesize
  .check (name.getLast? = some 0)
  let _ ← .take (k.layout.fill (6 + k.layout.length + k.namesize))
  pure (fromUtf8Lossy (name.takeWhile (· ≠ 0)))

/-- A header. -/
def parseHeader : Parser (Head × Text) := do
  let magic ← .take 6
  let l ← .ofOption (Layout.ofMagic magic)
  let k ← parseFields l
  let path ← parseName k
  pure (k, path)

theorem local_parseFields (l : Layout) : (parseFields l).Local :=
  (Parser.Local.take _).bind fun _ => (Parser.Local.ofOption _).bind fun _ =>
    (Parser.Local.ofOption _).bind fun _ => (Parser.Local.ofOption _).bind fun _ => .pure _

theorem local_parseName (k : Head) : (parseName k).Local :=
  (Parser.Local.ofOption _).bind fun _ => (Parser.Local.take _).bind fun _ =>
    (Parser.Local.ofOption _).bind fun _ => (Parser.Local.take _).bind fun _ => .pure _

theorem local_parseHeader : parseHeader.Local :=
  (Parser.Local.take _).bind fun _ => (Parser.Local.ofOption _).bind fun l =>
    (local_parseFields l).bind fun k => (local_parseName k).bind fun _ => .pure _

/-- A header is not empty. -/
private theorem length_parseHeader_lt {P P' : List UInt8} {k : Head × Text}
    (h : parseHeader P = some (k, P')) : P'.length < P.length := by
  obtain ⟨magic, P₁, htake, h'⟩ := Parser.bind_eq_some h
  have hle : P'.length ≤ P₁.length :=
    ((Parser.Local.ofOption _).bind fun l => (local_parseFields l).bind fun k =>
      (local_parseName k).bind fun _ => .pure _).length_le h'
  by_cases hlen : 6 ≤ P.length
  · rw [Parser.take_of_le hlen, Option.some.injEq, Prod.mk.injEq] at htake
    rw [← htake.2, List.length_drop] at hle
    omega
  · rw [Parser.take_of_lt (by omega)] at htake
    simp at htake

/-! ### Archives -/

/-- What an archive comes to.  A member has as much of its data as there is; the end leaves the
    bytes after it. -/
inductive Outline
  | finished (rest : List UInt8)
  | refused
  | member (entry : CpioEntry) (data : List UInt8) (o : Outline)

/-- The members from here on, up to the trailer. -/
def members (P : List UInt8) : Outline :=
  match _h : parseHeader P with
  | none => .refused
  | some ((k, path), P') =>
    if path = trailer then .finished P'
    else .member ⟨path, k.mode, k.size⟩ (P'.take k.size)
      (if k.size + k.layout.fill k.size ≤ P'.length then
        members (P'.drop (k.size + k.layout.fill k.size))
      else .refused)
termination_by P.length
decreasing_by
  have := length_parseHeader_lt _h
  rw [List.length_drop]
  omega

/-- What an archive's bytes say: no bytes at all are an archive without members. -/
def outline (P : List UInt8) : Outline := if P = [] then .finished [] else members P

namespace Outline

/-- The bytes after the trailer, where there is one. -/
def rest? : Outline → Option (List UInt8)
  | .finished rest => some rest
  | .refused       => none
  | .member _ _ o  => o.rest?

/-- How many members there are. -/
def length : Outline → Nat
  | .finished _ | .refused => 0
  | .member _ _ o          => o.length + 1

end Outline

theorem members_of_none {P : List UInt8} (h : parseHeader P = none) : members P = .refused := by
  rw [members]
  split
  · rfl
  · rename_i h'
    rw [h] at h'
    simp at h'

theorem members_of_some {P P' : List UInt8} {k : Head} {path : Text}
    (h : parseHeader P = some ((k, path), P')) :
    members P = if path = trailer then .finished P'
      else .member ⟨path, k.mode, k.size⟩ (P'.take k.size)
        (if k.size + k.layout.fill k.size ≤ P'.length then
          members (P'.drop (k.size + k.layout.fill k.size))
        else .refused) := by
  rw [members]
  split
  · rename_i h'
    rw [h] at h'
    simp at h'
  · rename_i h'
    rw [h, Option.some.injEq, Prod.mk.injEq, Prod.mk.injEq] at h'
    obtain ⟨⟨rfl, rfl⟩, rfl⟩ := h'
    rfl

/-- **The end is in the bytes.**  Members up to a trailer are the same in front of any bytes. -/
theorem rest?_members_append {P rest : List UInt8} (h : (members P).rest? = some rest)
    (T : List UInt8) : (members (P ++ T)).rest? = some (rest ++ T) := by
  fun_induction members P with
  | case1 P hnone => simp [Outline.rest?] at h
  | case2 P k P' hsome =>
    -- the trailer
    rw [members_of_some (local_parseHeader.append hsome T), if_pos rfl]
    rw [Outline.rest?, Option.some.injEq] at h
    rw [Outline.rest?, h]
  | case3 P k path P' hsome hpath ih =>
    -- a member, and the others behind it
    rw [members_of_some (local_parseHeader.append hsome T), if_neg hpath]
    by_cases hlen : k.size + k.layout.fill k.size ≤ P'.length
    · rw [Outline.rest?, if_pos hlen] at h
      rw [Outline.rest?, if_pos (by rw [List.length_append]; omega),
        List.drop_append_of_le_length hlen]
      exact ih hlen h
    · rw [Outline.rest?, if_neg hlen, Outline.rest?] at h
      simp at h

/-! ### The reader's steps -/

/-- Bytes that are text are that text with nothing replaced. -/
private theorem fromUtf8Lossy_of_fromUtf8 {bs : List UInt8} {t : Text} (h : fromUtf8 bs = some t) :
    fromUtf8Lossy bs = t := by
  unfold fromUtf8 at h
  unfold fromUtf8Lossy
  generalize decodeUtf8 bs = cs at h
  induction cs generalizing t with
  | nil =>
    simp only [List.mapM_nil, Option.pure_def, Option.some.injEq] at h
    rw [← h, List.map_nil]
  | cons c cs ih =>
    simp only [List.mapM_cons, Option.bind_eq_bind, Option.bind_eq_some_iff, Option.pure_def,
      Option.some.injEq, id_eq] at h
    obtain ⟨c', rfl, t', hcs, rfl⟩ := h
    rw [List.map_cons, ih hcs, Option.getD_some]

/-- Text in the ASCII range has the same numbers as its bytes. -/
private theorem value_bytes {radix : Nat} {bs : List UInt8} (h : ∀ b ∈ bs, b.toNat < 0x80) :
    value radix ((bs.map fun b => Char.ofNat b.toNat).map Char.toNat) =
      value radix (bs.map UInt8.toNat) := by
  rw [List.map_map]
  congr 1
  exact List.map_congr_left fun b hb => toNat_ofNat_of_lt_128 (h b hb)

/-- **A field is a number where all its bytes are digits.** -/
theorem field_cases [Unicode] {raw : List UInt8} {radix width : Nat} (hwidth : raw.length ≤ width)
    (hradix : 0 < radix) (hfits : radix ^ width ≤ 2 ^ 64) (what : Text) :
    (∃ n, value radix (raw.map UInt8.toNat) = some n ∧ field raw radix what = .ok n ∧
      n < radix ^ width) ∨
    value radix (raw.map UInt8.toNat) = none ∧ ∃ e, field raw radix what = .error e := by
  cases hvalue : value radix (raw.map UInt8.toNat) with
  | some n =>
    obtain ⟨hdigits, hn⟩ := lt_of_valueFrom hvalue
    rw [Nat.zero_add, Nat.one_mul, List.length_map] at hn
    have hn : n < radix ^ width := hn.trans_le (Nat.pow_le_pow_right hradix hwidth)
    have hascii : ∀ b ∈ raw, b.toNat < 0x80 := fun b hb =>
      (hdigits b.toNat (List.mem_map_of_mem hb)).2
    refine .inl ⟨n, rfl, ?_, hn⟩
    simp only [field, fromUtf8_ascii hascii, value_bytes hascii, hvalue]
    rw [Option.filter_some, if_pos (decide_eq_true (hn.trans_le hfits))]
  | none =>
    refine .inr ⟨rfl, ?_⟩
    unfold field
    cases htext : fromUtf8 raw with
    | none => exact ⟨_, rfl⟩
    | some text =>
      dsimp only
      cases hn : value radix (text.map Char.toNat) with
      | none => exact ⟨_, rfl⟩
      | some n =>
        -- text of digits alone is its own bytes
        have hdigits := (lt_of_valueFrom hn).1
        have hascii : ∀ c ∈ text, IsAscii c := fun c hc =>
          hdigits c.toNat (List.mem_map_of_mem hc)
        have hraw := bytes_of_fromUtf8Lossy (fromUtf8Lossy_of_fromUtf8 htext) hascii
        rw [hraw, List.map_map] at hvalue
        have hsame : text.map (UInt8.toNat ∘ fun c => UInt8.ofNat c.toNat) =
            text.map Char.toNat := by
          refine List.map_congr_left fun c hc => ?_
          show (UInt8.ofNat c.toNat).toNat = c.toNat
          have hc := (hascii c hc).2
          rw [UInt8.toNat_ofNat']
          omega
        rw [hsame, hn] at hvalue
        simp at hvalue

namespace CpioReader

section Steps

variable {R α β α' β' : Type} [Read Unit Payload R] {S : R → List UInt8 → Prop}
  {fr : CpioReader Unit}

/-- A step of a reader that stands as `fr` does what the parser `p` does: they take the same
    bytes and come to results that `Q` relates, in the frame that the step leaves, or both
    refuse. -/
def Parses (S : R → List UInt8 → Prop) (fr : CpioReader Unit) (x : Step R α) (p : Parser β)
    (Q : α → β → CpioReader Unit → Prop) : Prop :=
  ∀ P, Fallible.Triple (At S fr P) x
    (fun a r => ∃ b P', p P = some (b, P') ∧ Q a b r.frame ∧ S r.inner P') (fun _ _ => p P = none)

namespace Parses

variable {x : Step R α} {p : Parser β} {Q Q' : α → β → CpioReader Unit → Prop}

omit [Read Unit Payload R] in
/-- One after the other. -/
theorem bind {f : α → Step R α'} {g : β → Parser β'} {Q' : α' → β' → CpioReader Unit → Prop}
    (hx : Parses S fr x p Q) (hf : ∀ a b fr', Q a b fr' → Parses S fr' (f a) (g b) Q') :
    Parses S fr (x >>= f) (p >>= g) Q' := by
  intro P r hr
  have h := hx P r hr
  rcases hx' : x r with ⟨res, r'⟩
  rw [hx'] at h
  cases res with
  | ok a =>
    obtain ⟨b, P', hp, hQ, hs⟩ := h
    rw [Fallible.bind_of_ok hx', Parser.bind_of_some hp]
    exact hf a b r'.frame hQ P' r' ⟨rfl, hs⟩
  | error e =>
    rw [Fallible.bind_of_error hx']
    exact Parser.bind_of_none h

omit [Read Unit Payload R] in
theorem imp (hx : Parses S fr x p Q) (h : ∀ a b fr', Q a b fr' → Q' a b fr') :
    Parses S fr x p Q' := by
  intro P
  refine (hx P).imp (fun _ h => h) ?_ (fun _ _ h => h)
  rintro a r ⟨b, P', hp, hQ, hs⟩
  exact ⟨b, P', hp, h _ _ _ hQ, hs⟩

omit [Read Unit Payload R] in
theorem pure {a : α} {b : β} (h : Q a b fr) : Parses S fr (Pure.pure a) (Pure.pure b) Q := by
  rintro P r ⟨rfl, hs⟩
  exact ⟨b, P, rfl, h, hs⟩

omit [Read Unit Payload R] in
/-- A check of one is the opposite check of the other. -/
theorem check {p q : Bool} (h : q = !p) (e : ArchiveError) :
    Parses S fr (Fallible.failIf p e) (Parser.check q) (fun _ _ fr' => fr' = fr ∧ q = true) := by
  rintro P r ⟨rfl, hs⟩
  rw [h, Fallible.failIf_apply]
  cases p with
  | true => exact Parser.check_false
  | false => exact ⟨(), P, Parser.check_true, ⟨rfl, rfl⟩, hs⟩

omit [Read Unit Payload R] in
/-- A change that is about the frame alone. -/
theorem modify {f : CpioReader R → CpioReader R} (g : CpioReader Unit → CpioReader Unit)
    (hf : ∀ r, (f r).frame = g r.frame ∧ (f r).inner = r.inner) {p : Parser β}
    {x : Unit → Step R α} (hx : Parses S (g fr) (x ()) p Q) :
    Parses S fr (Fallible.modify f >>= x) p Q := by
  rintro P r ⟨rfl, hs⟩
  rw [Fallible.bind_of_ok (Fallible.modify_apply f r)]
  exact hx P (f r) ⟨(hf r).1, by rw [(hf r).2]; exact hs⟩

end Parses

/-- Bytes in full. -/
theorem parses_readExact (hS : Steady (fun _ => False) S) (n : Nat) (message : Text) :
    Parses S fr (readExact n message) (.take n)
      (fun a b fr' => a = b ∧ fr' = fr ∧ b.length = n) := by
  intro P
  by_cases hn : n ≤ P.length
  · have hlen : (P.take n).length = n := by
      rw [List.length_take]
      omega
    have h : Fallible.Triple (At S fr (P.take n ++ P.drop n)) (readExact n message)
        (fun bs r => bs = P.take n ∧ At S fr (P.drop n) r) (Broke fun _ => False) :=
      readExact_at hS hlen message
    rw [List.take_append_drop] at h
    refine h.imp (fun _ h => h) ?_ (fun _ _ ⟨_, _, _, hf⟩ => hf.elim)
    rintro bs r ⟨rfl, hfr, hs⟩
    exact ⟨_, _, Parser.take_of_le hn, ⟨rfl, hfr, hlen⟩, hs⟩
  · -- a short read is refused
    refine (readUpTo_at hS n).imp (fun _ h => h) (fun _ _ h => h)
      (fun _ _ ⟨_, _, _, hf⟩ => hf.elim) |>.bind fun bs => ?_
    rintro r ⟨rfl, hat⟩
    have hshort : (P.take n).length < n := by
      rw [List.length_take]
      omega
    apply Fallible.After.bind
    apply Fallible.After.failIf
    · intro hlong
      simp only [decide_eq_false_iff_not] at hlong
      exact absurd hshort hlong
    · intro _
      exact Parser.take_of_lt (by omega)

omit [Read Unit Payload R] in
/-- A field of a header. -/
theorem parses_number [Unicode] {l : Layout} {f : HeaderField} (hradix : 0 < l.radix)
    (hfits : l.radix ^ f.width ≤ 2 ^ 64) (h : List UInt8) (what : Text) :
    Parses (R := R) S fr (number ((h.drop f.offset).take f.width) l.radix what)
      (.ofOption (l.number f h)) (fun a b fr' => a = b ∧ fr' = fr ∧ b < l.radix ^ f.width) := by
  rintro P r ⟨rfl, hs⟩
  rcases field_cases (List.length_take_le ..) hradix hfits what with
    ⟨n, hvalue, hfield, hn⟩ | ⟨hvalue, e, hfield⟩
  · unfold number Layout.number
    rw [hfield, hvalue]
    exact ⟨n, P, rfl, ⟨rfl, rfl, hn⟩, hs⟩
  · unfold number Layout.number
    rw [hfield, hvalue]
    exact Parser.ofOption_none

/-- The format that a reader is in. -/
def layoutOf (newc : Bool) : Layout := if newc then .newc else .odc

/-- What the fields of a header come to. -/
structure Heads (newc : Bool) (fields : Nat × Nat × Nat) (k : Head) : Prop where
  layout_eq : k.layout = layoutOf newc
  mode_eq : fields.1 = k.mode
  namesize_eq : fields.2.1 = k.namesize
  size_eq : fields.2.2 = k.size
  mode_lt : k.mode < 2 ^ 32

/-- The fields of a header, in either format. -/
theorem parses_fields [Unicode] (hS : Steady (fun _ => False) S) (newc : Bool) :
    Parses (R := R) S fr
      (do
        let h ← readExact (layoutOf newc).length "truncated cpio header"
        Fallible.modify ({ · with newc })
        let mode ← number ((h.drop (layoutOf newc).mode.offset).take (layoutOf newc).mode.width)
          (layoutOf newc).radix "mode"
        let namesize ← number
          ((h.drop (layoutOf newc).namesize.offset).take (layoutOf newc).namesize.width)
          (layoutOf newc).radix "name size"
        let size ← number ((h.drop (layoutOf newc).size.offset).take (layoutOf newc).size.width)
          (layoutOf newc).radix "file size"
        pure (mode, namesize, size))
      (parseFields (layoutOf newc))
      (fun fields k fr' => Heads newc fields k ∧ fr' = { fr with newc }) := by
  have hradix : 0 < (layoutOf newc).radix := by cases newc <;> decide
  have hfits : (layoutOf newc).radix ^ (layoutOf newc).mode.width ≤ 2 ^ 32 ∧
      (layoutOf newc).radix ^ (layoutOf newc).namesize.width ≤ 2 ^ 64 ∧
      (layoutOf newc).radix ^ (layoutOf newc).size.width ≤ 2 ^ 64 := by
    cases newc <;> decide
  obtain ⟨hmode, hnamesize, hsize⟩ := hfits
  apply (parses_readExact hS _ _).bind
  rintro h _ _ ⟨rfl, rfl, -⟩
  refine Parses.modify ({ · with newc }) ?_ ?_
  · intro r
    exact ⟨rfl, rfl⟩
  apply (parses_number hradix (hmode.trans (by decide)) h _).bind
  rintro mode _ _ ⟨rfl, rfl, hlt⟩
  apply (parses_number hradix hnamesize h _).bind
  rintro namesize _ _ ⟨rfl, rfl, -⟩
  apply (parses_number hradix hsize h _).bind
  rintro size _ _ ⟨rfl, rfl, -⟩
  exact .pure ⟨⟨rfl, rfl, rfl, rfl, hlt.trans_le hmode⟩, rfl⟩

/-- **The header after a magic** is the one of its format. -/
theorem parses_header [Unicode] (hS : Steady (fun _ => False) S) (magic : List UInt8) :
    Parses (R := R) S fr (header magic)
      (do let l ← .ofOption (Layout.ofMagic magic); parseFields l)
      (fun fields k fr' => ∃ newc, Heads newc fields k ∧ fr' = { fr with newc }) := by
  unfold header Layout.ofMagic
  by_cases hodc : magic = odcMagic
  · rw [if_pos hodc, if_pos hodc]
    exact (parses_fields hS false).imp fun _ _ _ h => ⟨false, h⟩
  · rw [if_neg hodc, if_neg hodc]
    by_cases hnewc : magic = newcMagic ∨ magic = newcCrcMagic
    · rw [if_pos hnewc, if_pos hnewc]
      exact (parses_fields hS true).imp fun _ _ _ h => ⟨true, h⟩
    · rw [if_neg hnewc, if_neg hnewc]
      exact fun P r _ => rfl

/-- What fills up a header. -/
private theorem parses_headerPad (hS : Steady (fun _ => False) S) (namesize : Nat) :
    Parses (R := R) S fr (headerPad namesize)
      (.take ((layoutOf fr.newc).fill (6 + (layoutOf fr.newc).length + namesize)))
      (fun _ _ fr' => fr' = fr) := by
  rintro P r hr
  have hnewc : r.newc = fr.newc := congrArg CpioReader.newc hr.1
  unfold headerPad
  cases hfr : fr.newc with
  | true =>
    rw [hnewc, hfr, if_pos rfl]
    have hfill : (layoutOf true).fill (6 + (layoutOf true).length + namesize) =
        padding (110 + namesize) := rfl
    rw [hfill]
    apply Fallible.After.bind
    refine (parses_readExact hS _ _ P r hr).imp ?_ fun _ _ h => h
    rintro bs r' ⟨bs', P', hp, ⟨-, hfr', -⟩, hs⟩
    exact ⟨bs', P', hp, hfr', hs⟩
  | false =>
    rw [hnewc, hfr, if_neg (by simp)]
    -- an odc header is not filled up
    have hfill : (layoutOf false).fill (6 + (layoutOf false).length + namesize) = 0 :=
      Nat.mod_one _
    rw [hfill]
    exact ⟨[], P, Parser.take_of_le (Nat.zero_le _), hr⟩

/-- What a reader makes of a header: the end, or a member whose data is to come. -/
def Finds (fr : CpioReader Unit) (entry : Option CpioEntry) (found : Head × Text)
    (fr' : CpioReader Unit) : Prop :=
  if found.2 = trailer then entry = none ∧ fr' = { fr with done := true }
  else entry = some ⟨found.2, found.1.mode, found.1.size⟩ ∧
    fr' = { fr with left := found.1.size, pad := found.1.layout.fill found.1.size }

/-- The member whose fields have been read. -/
private theorem parses_member (hS : Steady (fun _ => False) S) {fields : Nat × Nat × Nat} {k : Head}
    (hk : Heads fr.newc fields k) :
    Parses (R := R) S fr (member fields.1 fields.2.1 fields.2.2)
      (do let path ← parseName k; pure (k, path)) (Finds fr) := by
  obtain ⟨mode, namesize, size⟩ := fields
  obtain ⟨hlayout, rfl, rfl, rfl, hmode⟩ := hk
  unfold member parseName
  simp only [bind_assoc]
  refine (Parses.check ?_ _).bind fun _ _ fr₁ h₁ => ?_
  · rw [Bool.eq_iff_iff]
    simp
    omega
  rw [h₁.1]
  apply (parses_readExact hS _ _).bind
  rintro name _ _ ⟨rfl, rfl, -⟩
  refine (Parses.check ?_ _).bind fun _ _ fr₂ h₂ => ?_
  · simp
  rw [h₂.1, hlayout]
  apply (parses_headerPad hS _).bind
  rintro _ _ _ rfl P r ⟨rfl, hs⟩
  rw [pure_bind]
  refine (?_ : Fallible.After _ _ (found _ _ _ r))
  generalize fromUtf8Lossy (name.takeWhile (· ≠ 0)) = path
  unfold found
  by_cases hpath : path = trailer
  · rw [if_pos hpath]
    exact ⟨_, P, rfl, by rw [Finds, if_pos hpath]; exact ⟨rfl, rfl⟩, hs⟩
  · rw [if_neg hpath]
    have hpad : (if r.newc then padding k.size else 0) = k.layout.fill k.size := by
      rw [hlayout]
      show _ = (layoutOf r.newc).fill k.size
      cases r.newc with
      | true => rfl
      | false => exact (Nat.mod_one _).symm
    rw [Nat.mod_eq_of_lt hmode, hpad]
    exact ⟨_, P, rfl, by rw [Finds, if_neg hpath]; exact ⟨rfl, rfl⟩, hs⟩

/-- A member whose magic has been read. -/
private theorem parses_entry [Unicode] (hS : Steady (fun _ => False) S) (magic : List UInt8) :
    Parses (R := R) S fr
      (do let (mode, namesize, size) ← header magic; member mode namesize size)
      (do let l ← .ofOption (Layout.ofMagic magic)
          let k ← parseFields l
          let path ← parseName k
          pure (k, path))
      (fun entry found fr' => ∃ newc, Finds { fr with newc } entry found fr') := by
  rw [← bind_assoc]
  apply (parses_header hS magic).bind
  rintro ⟨mode, namesize, size⟩ k _ ⟨newc, hk, rfl⟩
  let fr' : CpioReader Unit := { fr with newc }
  have hmember : Parses (R := R) S fr' (member mode namesize size)
      (do let path ← parseName k; pure (k, path)) (Finds fr') :=
    @parses_member _ _ _ fr' hS (mode, namesize, size) k hk
  exact hmember.imp fun _ _ _ h => ⟨newc, h⟩

/-- What is left of a member is passed over, where it is all there. -/
private theorem skip_after (hS : Steady (fun _ => False) S) {P : List UInt8} {r : CpioReader R}
    (hs : S r.inner P) :
    Fallible.After
      (fun _ r' => r.left + r.pad ≤ P.length ∧ r'.frame = { r.frame with left := 0, pad := 0 } ∧
        S r'.inner (P.drop (r.left + r.pad)))
      (fun _ _ => P.length < r.left + r.pad) (skip r) := by
  by_cases hlen : r.left + r.pad ≤ P.length
  · have hskip : Fallible.Triple
        (At S r.frame (P.take (r.left + r.pad) ++ P.drop (r.left + r.pad))) skip
        (fun _ s => At S { r.frame with left := 0, pad := 0 } (P.drop (r.left + r.pad)) s)
        (Broke fun _ => False) := skip_at hS (List.length_take_of_le hlen)
    rw [List.take_append_drop] at hskip
    exact (hskip r ⟨rfl, hs⟩).imp (fun _ r' h => ⟨hlen, h⟩) fun _ _ ⟨_, _, _, hf⟩ => hf.elim
  · unfold skip
    rw [if_neg (by omega)]
    rcases hS.copyTake () copyChunkBytes (r.left + r.pad) [] hs with
      ⟨r', hr, _⟩ | ⟨e, out, r', _, hf⟩
    · -- the source ends too early
      rw [hr]
      show Fallible.After _ _ (if (_ : List UInt8).length < _ then _ else _)
      rw [if_pos (by rw [List.nil_append, List.length_take]; omega)]
      show P.length < r.left + r.pad
      omega
    · exact hf.elim

end Steps

/-- What is to come where a header is due: the members, and at the start perhaps none at all. -/
def due (started : Bool) (P : List UInt8) : Outline := if started then members P else outline P

/-- A reader stands before `unread` and `missing` bytes of the current member's data, of which the
    source has no more than `unread`, and before what `o` says then. -/
def Stands {R : Type} (S : R → List UInt8 → Prop) (r : CpioReader R) (unread : List UInt8)
    (missing : Nat) (o : Outline) : Prop :=
  ∃ P, S r.inner P ∧ unread = P.take r.left ∧ missing = r.left - P.length ∧
    if r.done then r.left = 0 ∧ ∃ rest, o = .finished rest
    else o = if r.left + r.pad ≤ P.length then due r.started (P.drop (r.left + r.pad))
      else .refused

section Calls

variable {R : Type} [Read Unit Payload R] {S : R → List UInt8 → Prop} {r r' : CpioReader R}
  {unread : List UInt8} {missing : Nat} {o : Outline}

omit [Read Unit Payload R] in
/-- A new reader stands before the whole archive. -/
theorem stands_new {r : R} {P : List UInt8} (hs : S r P) : Stands S (new r) [] 0 (outline P) :=
  ⟨P, hs, rfl, (Nat.zero_sub _).symm, rfl⟩

/-- The next member that an outline has, and where it leaves the reader. -/
inductive Comes (S : R → List UInt8 → Prop) : Outline → Option CpioEntry → CpioReader R → Prop
  | finished {rest r'} (h : Stands S r' [] 0 (.finished rest)) : Comes S (.finished rest) none r'
  | member {e data o r'} (h : Stands S r' data (e.size - data.length) o) :
      Comes S (.member e data o) (some e) r'

omit [Read Unit Payload R] in
/-- Remembering the first magic changes nothing else. -/
private theorem started_spec (magic : List UInt8) (r : CpioReader R) :
    let r' := if r.started then r else { r with magic, started := true }
    r'.done = r.done ∧ r'.started = true ∧ r'.left = r.left ∧ r'.inner = r.inner := by
  by_cases h : r.started
  · simp [h]
  · simp [h]

/-- The header that a magic begins. -/
private theorem comes_of_header [Unicode] (hS : Steady (fun _ => False) S) {magic P : List UInt8}
    (hmagic : magic.length = 6) (hdone : r.done = false) (hstarted : r.started = true)
    (hleft : r.left = 0) (hs : S r.inner P) :
    Fallible.After (Comes S (members (magic ++ P))) (fun _ _ => members (magic ++ P) = .refused)
      ((do let (mode, namesize, size) ← header magic; member mode namesize size) r) := by
  refine (parses_entry hS magic P r ⟨rfl, hs⟩).imp ?_ ?_
  · rintro entry r' ⟨⟨k, path⟩, P', hp, ⟨newc, hfinds⟩, hs'⟩
    have hheader : parseHeader (magic ++ P) = some ((k, path), P') := by
      rw [parseHeader, Parser.bind_of_some (Parser.take_append hmagic)]
      exact hp
    rw [members_of_some hheader]
    unfold Finds at hfinds
    by_cases hpath : path = trailer
    · rw [if_pos hpath] at hfinds ⊢
      obtain ⟨rfl, hfr⟩ := hfinds
      have hleft' : r'.left = 0 := (congrArg CpioReader.left hfr :).trans hleft
      have hdone' : r'.done = true := congrArg CpioReader.done hfr
      refine .finished ⟨P', hs', by rw [hleft', List.take_zero], by rw [hleft', Nat.zero_sub], ?_⟩
      rw [if_pos hdone']
      exact ⟨hleft', P', rfl⟩
    · rw [if_neg hpath] at hfinds ⊢
      obtain ⟨rfl, hfr⟩ := hfinds
      have hleft' : r'.left = k.size := congrArg CpioReader.left hfr
      have hpad' : r'.pad = k.layout.fill k.size := congrArg CpioReader.pad hfr
      have hdone' : r'.done = false := (congrArg CpioReader.done hfr :).trans hdone
      have hstarted' : r'.started = true := (congrArg CpioReader.started hfr :).trans hstarted
      refine .member ⟨P', hs', by rw [hleft'], ?_, ?_⟩
      · rw [hleft', List.length_take]
        show k.size - min k.size P'.length = k.size - P'.length
        omega
      · rw [hdone', if_neg (by simp), hleft', hpad', hstarted', due, if_pos rfl]
  · intro _ _ hp
    rw [members_of_none]
    rw [parseHeader, Parser.bind_of_some (Parser.take_append hmagic)]
    exact hp

/-- **The next member is the outline's.** -/
theorem Stands.nextEntry [Unicode] (hS : Steady (fun _ => False) S)
    (h : Stands S r unread missing o) :
    Fallible.After (Comes S o) (fun _ _ => o = .refused) (nextEntry r) := by
  obtain ⟨P, hs, rfl, rfl, ho⟩ := h
  unfold CpioReader.nextEntry
  rw [Fallible.bind_of_ok (Fallible.get_apply r)]
  by_cases hdone : r.done
  · rw [if_pos hdone] at ho
    obtain ⟨hleft, rest, rfl⟩ := ho
    rw [if_pos hdone]
    refine .finished ⟨P, hs, by rw [hleft, List.take_zero], by rw [hleft, Nat.zero_sub], ?_⟩
    rw [if_pos hdone]
    exact ⟨hleft, rest, rfl⟩
  · rw [if_neg hdone] at ho
    rw [if_neg hdone]
    apply Fallible.After.bind
    refine (skip_after hS hs).imp ?_ fun _ _ hshort => by rw [ho, if_neg (by omega)]
    rintro _ r₁ ⟨hlen, hfr₁, hs₁⟩
    rw [if_pos hlen] at ho
    generalize P.drop (r.left + r.pad) = P₁ at ho hs₁
    -- the magic is the next six bytes, if there are as many
    apply Fallible.After.bind
    refine (readUpTo_at hS 6 r₁ ⟨rfl, hs₁⟩).imp ?_ fun _ _ ⟨_, _, _, hf⟩ => hf.elim
    rintro _ r₂ ⟨rfl, hfr₂, hs₂⟩
    have hfr : r₂.frame = { r.frame with left := 0, pad := 0 } := hfr₂.trans hfr₁
    have hleft : r₂.left = 0 := congrArg CpioReader.left hfr
    have hdone₂ : r₂.done = r.done := (congrArg CpioReader.done hfr :)
    by_cases hempty : P₁.take 6 = [] ∧ r.started = false
    · rw [if_pos hempty]
      have hnil : P₁ = [] := by
        simpa using hempty.1
      rw [ho, due, hempty.2, if_neg (by simp), outline, if_pos hnil]
      refine .finished ⟨P₁.drop 6, hs₂, ?_, ?_, ?_⟩
      · exact (congrArg (List.take · _) hleft).symm
      · exact ((congrArg (· - _) hleft).trans (Nat.zero_sub _)).symm
      · exact ⟨hleft, [], rfl⟩
    · rw [if_neg hempty]
      have hmembers : o = members P₁ := by
        rw [ho, due, outline]
        by_cases hst : r.started
        · rw [if_pos hst]
        · rw [if_neg hst, if_neg]
          rintro rfl
          exact hempty ⟨rfl, by simpa using hst⟩
      rw [Fallible.bind_of_ok (Fallible.modify_apply _ r₂)]
      apply Fallible.After.bind
      apply Fallible.After.failIf
      · intro hlong
        have hlong : 6 ≤ P₁.length := by
          simpa using hlong
        obtain ⟨hd, hst, hl, hi⟩ := started_spec (P₁.take 6) r₂
        have hheader := comes_of_header hS (List.length_take_of_le hlong)
          (hd.trans (hdone₂.trans (by simpa using hdone))) hst (hl.trans hleft)
          (by rw [hi]; exact hs₂)
        rw [List.take_append_drop] at hheader
        rw [hmembers]
        exact hheader
      · intro hshort
        rw [hmembers, members_of_none]
        rw [parseHeader, Parser.bind_of_none]
        apply Parser.take_of_lt
        simpa using hshort

/-- **Data is the outline's**, as far as the source has it; past that it is refused. -/
theorem Stands.readData (hS : Steady (fun _ => False) S) (h : Stands S r unread missing o)
    {n : Nat} {res : Except IoErr (List UInt8)} (hr : r.readData n = (res, r')) :
    (∃ bs unread', res = .ok bs ∧ unread = bs ++ unread' ∧ bs.length ≤ n ∧
      (bs = [] → n = 0 ∨ unread = [] ∧ missing = 0) ∧ Stands S r' unread' missing o) ∨
    ∃ e, res = .error e ∧ (e.isInterrupted = true ∨ 0 < n ∧ unread = [] ∧ 0 < missing) ∧
      Stands S r' unread missing o := by
  obtain ⟨P, hs, rfl, rfl, ho⟩ := h
  unfold CpioReader.readData at hr
  by_cases h0 : min n r.left = 0
  · rw [if_pos h0] at hr
    obtain ⟨rfl, rfl⟩ := Prod.mk.inj hr
    refine .inl ⟨[], _, rfl, rfl, Nat.zero_le _, fun _ => ?_, P, hs, rfl, rfl, ho⟩
    rcases Nat.min_eq_zero_iff.mp h0 with hn | hleft
    · exact .inl hn
    · exact .inr ⟨by rw [hleft, List.take_zero], by rw [hleft, Nat.zero_sub]⟩
  · rw [if_neg h0] at hr
    have hpos : 0 < n ∧ 0 < r.left := by omega
    split at hr
    · rename_i e inner hread
      obtain ⟨rfl, rfl⟩ := Prod.mk.inj hr
      rcases hS.error hs hread with ⟨hi, hs'⟩ | ⟨_, hf⟩
      · exact .inr ⟨e, rfl, .inl hi, P, hs', rfl, rfl, ho⟩
      · exact hf.elim
    · rename_i inner hread
      obtain ⟨rfl, rfl⟩ := Prod.mk.inj hr
      -- nothing more to read, and data is left
      obtain rfl := hS.finished hs (Nat.pos_of_ne_zero h0) hread
      obtain ⟨P', hP, hs'⟩ := hS.ok hs hread
      rw [List.nil_append] at hP
      subst hP
      refine .inr ⟨_, rfl, .inr ⟨hpos.1, List.take_nil, hpos.2⟩, [], hs', rfl, rfl, ho⟩
    · rename_i b bs inner hread
      obtain ⟨rfl, rfl⟩ := Prod.mk.inj hr
      obtain ⟨P', rfl, hs'⟩ := hS.ok hs hread
      have hle := Read.length_read hread
      have hmin : (b :: bs).length ≤ r.left := hle.trans (Nat.min_le_right _ _)
      refine .inl ⟨b :: bs, P'.take (r.left - (b :: bs).length), rfl, ?_,
        hle.trans (Nat.min_le_left _ _), fun h => absurd h (by simp), P', hs', rfl, ?_, ?_⟩
      · rw [List.take_append, List.take_of_length_le hmin]
      · show r.left - ((b :: bs) ++ P').length = r.left - (b :: bs).length - P'.length
        rw [List.length_append]
        omega
      · by_cases hdone : r.done
        · rw [if_pos hdone] at ho
          omega
        · rw [if_neg hdone] at ho
          show if r.done = true then _ else o = if r.left - (b :: bs).length + r.pad ≤ P'.length then
            due r.started (P'.drop (r.left - (b :: bs).length + r.pad)) else .refused
          rw [if_neg hdone, ho, List.length_append]
          by_cases hlen : r.left + r.pad ≤ (b :: bs).length + P'.length
          · rw [if_pos hlen, if_pos (by omega), List.drop_append, List.drop_of_length_le (by omega),
              List.nil_append]
            congr 2
            omega
          · rw [if_neg hlen, if_neg (by omega)]

end Calls

end CpioReader

/-! ### Callers -/

/-- What a caller sees of an outline of which `unread` is at hand of the current member's data and
    `missing` bytes are not there at all: the members in order and then the end, or an error where
    the bytes are refused, and of each member's data what it asks for, but for calls that are
    interrupted.  Of what follows an error nothing is said. -/
inductive Sees : Outline → List UInt8 → Nat → List (CpioCall × CpioAnswer) → Prop
  | nil {o unread missing} : Sees o unread missing []
  | member {e data o unread missing calls} (h : Sees o data (e.size - data.length) calls) :
      Sees (.member e data o) unread missing ((.next, .entry (.ok (some e))) :: calls)
  | finished {rest unread missing calls} (h : Sees (.finished rest) [] 0 calls) :
      Sees (.finished rest) unread missing ((.next, .entry (.ok none)) :: calls)
  | refused {unread missing e calls} :
      Sees .refused unread missing ((.next, .entry (.error e)) :: calls)
  | read {o n bs unread missing calls} (hle : bs.length ≤ n)
      (hnil : bs = [] → n = 0 ∨ bs ++ unread = [] ∧ missing = 0) (h : Sees o unread missing calls) :
      Sees o (bs ++ unread) missing ((.read n, .data (.ok bs)) :: calls)
  | failed {o n e unread missing calls}
      (he : e.isInterrupted = true ∨ 0 < n ∧ unread = [] ∧ 0 < missing)
      (h : Sees o unread missing calls) :
      Sees o unread missing ((.read n, .data (.error e)) :: calls)

/-- **The reader reads the outline.**  Whatever a caller asks for, over any steady source. -/
theorem sees_of_stands [Unicode] {R : Type} [Read Unit Payload R] {S : R → List UInt8 → Prop}
    (hS : Steady (fun _ => False) S) {r : CpioReader R} {unread : List UInt8} {missing : Nat}
    {o : Outline} (h : r.Stands S unread missing o) (calls : List CpioCall) :
    Sees o unread missing (calls.zip ((cpioMachine R).answers r calls)) := by
  induction calls generalizing r unread missing o with
  | nil => exact .nil
  | cons call calls ih =>
    rw [Machine.answers_cons, List.zip_cons_cons]
    cases call with
    | next =>
      have hnext := h.nextEntry hS
      rcases hr : CpioReader.nextEntry r with ⟨res, r'⟩
      rw [hr] at hnext
      simp only [cpioMachine, hr]
      cases res with
      | ok entry =>
        cases hnext with
        | finished h' => exact .finished (ih h')
        | member h' => exact .member (ih h')
      | error e =>
        obtain rfl : o = .refused := hnext
        exact .refused
    | read n =>
      rcases hr : r.readData n with ⟨res, r'⟩
      simp only [cpioMachine, hr]
      rcases h.readData hS hr with ⟨bs, unread', rfl, rfl, hle, hnil, h'⟩ | ⟨e, rfl, he, h'⟩
      · exact .read hle hnil (ih h')
      · exact .failed he (ih h')

/-- Does a call ask for the next member? -/
def CpioCall.isNext : CpioCall → Bool
  | .next   => true
  | .read _ => false

/-- How a caller is told that there are no more members: at the end, or by an error. -/
def ending : List CpioAnswer → Option (Option ArchiveError)
  | []                         => none
  | .entry (.ok none) :: _     => some none
  | .entry (.error e) :: _     => some (some e)
  | .entry (.ok (some _)) :: as => ending as
  | .data _ :: as              => ending as

/-- **Iterations end.**  Asked for more members than there are, a reader says that there are no
    more, and whether the archive was whole. -/
theorem Sees.ending {o : Outline} {unread : List UInt8} {missing : Nat}
    {calls : List CpioCall} {answers : List CpioAnswer} (hlen : answers.length = calls.length)
    (h : Sees o unread missing (calls.zip answers)) (hmore : o.length < calls.countP CpioCall.isNext) :
    ∃ res, Proto.ending answers = some res ∧ (res = none ↔ o.rest?.isSome) := by
  induction calls generalizing o unread missing answers with
  | nil => simp at hmore
  | cons call calls ih =>
    obtain ⟨a, answers, rfl⟩ := List.exists_cons_of_length_eq_add_one hlen
    have htail : answers.length = calls.length := by
      simpa using hlen
    rw [List.zip_cons_cons] at h
    cases h with
    | member h =>
      rw [List.countP_cons_of_pos rfl] at hmore
      have hend := ih htail h (by simpa [Outline.length] using hmore)
      exact hend
    | finished h => exact ⟨none, rfl, by simp [Outline.rest?]⟩
    | refused => exact ⟨some _, rfl, by simp [Outline.rest?]⟩
    | read hle hnil h =>
      rw [List.countP_cons_of_neg (by simp [CpioCall.isNext])] at hmore
      have hend := ih htail h hmore
      exact hend
    | failed he h =>
      rw [List.countP_cons_of_neg (by simp [CpioCall.isNext])] at hmore
      have hend := ih htail h hmore
      exact hend

/-- **Reading CPIO.**  However the bytes of an archive are chopped up and however much of each
    member's data is read, the reader reads their outline, and comes to the end or to an error as
    the outline does.  An archive that is cut before the end of its trailer comes to an error,
    unless nothing is left of it. -/
theorem cpio_reads [Unicode] (P : List UInt8) :
    (∀ s : Socket Payload, s.Calm → s.bytes = P → ∀ calls : List CpioCall,
      Sees (outline P) [] 0 (calls.zip ((cpioMachine _).answers (.new s) calls)) ∧
      ((outline P).length < calls.countP CpioCall.isNext →
        ∃ res, ending ((cpioMachine _).answers (.new s) calls) = some res ∧
          (res = none ↔ (outline P).rest?.isSome))) ∧
    ∀ rest Q, (outline P).rest? = some rest → Q <+: P → Q ≠ [] →
      Q.length + rest.length < P.length → (outline Q).rest? = none := by
  constructor
  · rintro s hcalm rfl calls
    have hsees := sees_of_stands (ByteStream.steady (R := Socket Payload) _)
      (CpioReader.stands_new ⟨hcalm, rfl⟩) calls
    exact ⟨hsees, hsees.ending (Machine.length_answers _ _ _)⟩
  · rintro rest Q hP ⟨T, rfl⟩ hne hcut
    -- a trailer in the part would end the whole there
    by_contra hsome
    obtain ⟨rest', hQ⟩ := Option.ne_none_iff_exists'.mp hsome
    rw [outline, if_neg hne] at hQ
    have happend := rest?_members_append hQ T
    rw [outline, if_neg (by simp [hne]), happend, Option.some.injEq] at hP
    rw [← hP, List.length_append, List.length_append] at hcut
    omega

/-- An archive of both formats: a newc member of three bytes and an odc trailer, and one byte
    behind it. -/
def mixedArchive : List UInt8 :=
  newcMagic ++ asciiBytes (hex 8 1 ++ hex 8 0o100644 ++ hex 8 0 ++ hex 8 0 ++ hex 8 1 ++ hex 8 0 ++
    hex 8 3 ++ hex 8 0 ++ hex 8 0 ++ hex 8 0 ++ hex 8 0 ++ hex 8 2 ++ hex 8 0) ++ [97, 0] ++
    [1, 2, 3, 0] ++ odcHeader 0 0 0 0 0 1 0 0 11 0 ++ asciiBytes trailer ++ [0, 9]

/-- It reads as it stands, and not at all when it is cut. -/
theorem cpio_reads_mixed :
    letI := Unicode.ascii
    (∀ s : Socket Payload, s.Calm → s.bytes = mixedArchive → ∀ calls : List CpioCall,
      Sees (.member ⟨"a", 0o100644, 3⟩ [1, 2, 3] (.finished [9])) [] 0
        (calls.zip ((cpioMachine _).answers (.new s) calls))) ∧
    ∀ k < 203, 0 < k → (outline (mixedArchive.take k)).rest? = none := by
  let _ := Unicode.ascii
  have hmember : parseHeader mixedArchive = some ((⟨.newc, 0o100644, 2, 3⟩, ['a']),
      mixedArchive.drop 112) := by
    decide +kernel
  have htrailer : parseHeader (mixedArchive.drop 116) = 
      some ((⟨.odc, 0, 11, 0⟩, trailer), [9]) := by
    decide +kernel
  have houtline : outline mixedArchive =
      .member ⟨"a", 0o100644, 3⟩ [1, 2, 3] (.finished [9]) := by
    have hend : members (mixedArchive.drop 116) = .finished [9] := by
      rw [members_of_some htrailer, if_pos rfl]
    have hfill : 3 + Layout.newc.fill 3 ≤ (mixedArchive.drop 112).length ∧
        (mixedArchive.drop 112).drop (3 + Layout.newc.fill 3) = mixedArchive.drop 116 ∧
        (mixedArchive.drop 112).take 3 = [1, 2, 3] := by
      decide +kernel
    rw [outline, if_neg (by decide), members_of_some hmember, if_neg (by decide)]
    show Outline.member _ ((mixedArchive.drop 112).take 3)
      (if 3 + Layout.newc.fill 3 ≤ _ then members _ else _) = _
    rw [if_pos hfill.1, hfill.2.1, hfill.2.2, hend]
    rfl
  have hreads := cpio_reads mixedArchive
  rw [houtline] at hreads
  refine ⟨fun s hcalm hs calls => (hreads.1 s hcalm hs calls).1, fun k hk hpos => ?_⟩
  have hlen : mixedArchive.length = 204 := by
    decide +kernel
  refine hreads.2 [9] _ rfl (List.take_prefix k _) ?_ ?_
  · rw [ne_eq, ← List.length_eq_zero_iff, List.length_take]
    omega
  · rw [List.length_take, List.length_singleton]
    omega

/-- A trailer that says it has a byte of data, and that byte. -/
def trailerWithData : List UInt8 :=
  odcHeader 0 0 0 0 0 1 0 0 11 1 ++ asciiBytes trailer ++ [0, 120]

/-- **A trailer's data is not missed.**  Cut before the byte of data that its trailer says it has,
    an archive is read to its end. -/
theorem cut_trailer_read :
    letI := Unicode.ascii
    parseHeader trailerWithData = some ((⟨.odc, 0, 11, 1⟩, trailer), [120]) ∧
    ∃ Q, trailerWithData = Q ++ [120] ∧
      ∃ s : Socket Payload, s.Calm ∧ s.bytes = Q ∧
        (cpioMachine _).answers (.new s) [.next] = [.entry (.ok none)] := by
  let _ := Unicode.ascii
  refine ⟨by decide +kernel, trailerWithData.dropLast, by decide +kernel, _,
    Socket.calm_once _, Socket.bytes_once _, ?_⟩
  have hnone : (CpioReader.nextEntry
      (.new (Socket.once trailerWithData.dropLast : Socket Payload))).1 = .ok none := by
    decide +kernel
  simp only [Machine.answers_cons, Machine.answers_nil, cpioMachine, hnone]

end Omdrop.Proto
