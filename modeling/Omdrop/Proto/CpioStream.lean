import Mathlib.Data.List.TakeWhile
import Omdrop.Machine.Run
import Omdrop.Proto.CpioWrite

namespace Omdrop.Proto

open Omdrop.Stream Omdrop.Text

/-!
# What an archive reads as

A reader before an odc archive, over a steady source, answers its members one by one, however
much of each member's data is read in between (`Owes`).  `Follows` says what a caller may see of
an archive, and `cpio_roundTrip` that a caller of the reader sees what was written.
-/

namespace CpioReader

variable {R : Type}

/-- A reader without its source. -/
def frame (r : CpioReader R) : CpioReader Unit := { r with inner := () }

/-- The reader stands as `fr` does, and its source still has `raw` to say. -/
def At (S : R → List UInt8 → Prop) (fr : CpioReader Unit) (raw : List UInt8)
    (r : CpioReader R) : Prop :=
  r.frame = fr ∧ S r.inner raw

/-- The source failed in a way that is fatal. -/
def Broke (fatal : IoErr → Prop) (e : ArchiveError) (_ : CpioReader R) : Prop :=
  ∃ io, e = .ofIo io ∧ io.isInterrupted = false ∧ fatal io

section Steps

variable [Read Unit Payload R] {fatal : IoErr → Prop} {S : R → List UInt8 → Prop}
  {fr : CpioReader Unit} {raw rest : List UInt8}

theorem readUpTo_at (hS : Steady fatal S) (n : Nat) :
    Fallible.Triple (At S fr raw) (readUpTo n)
      (fun bs r => bs = raw.take n ∧ At S fr (raw.drop n) r) (Broke fatal) := by
  rintro r ⟨hfr, hs⟩
  rcases hS.readFull () n [] hs with ⟨r', hr, hs'⟩ | ⟨e, r', hr, hf⟩
  · simp only [readUpTo, hr]
    exact ⟨List.nil_append _, hfr, hs'⟩
  · simp only [readUpTo, hr]
    obtain ⟨_, _, _, _, _, hn⟩ := readFull_failed hr
    exact ⟨e, rfl, hn, hf⟩

theorem readExact_at (hS : Steady fatal S) {n : Nat} (hn : raw.length = n) (message : Text) :
    Fallible.Triple (At S fr (raw ++ rest)) (readExact n message)
      (fun bs r => bs = raw ∧ At S fr rest r) (Broke fatal) := by
  refine (readUpTo_at hS n).bind fun bs => ?_
  rw [List.take_left' hn, List.drop_left' hn]
  rintro r ⟨rfl, hat⟩
  refine (Fallible.Triple.pass (P := At S fr rest) ?_).bind (fun _ => .pure fun r h => ⟨rfl, h⟩)
    r hat
  simpa using hn.ge

omit [Read Unit Payload R] in
theorem number_at [Unicode] {P : CpioReader R → Prop} {E : ArchiveError → CpioReader R → Prop}
    {width n : Nat} {bs : List UInt8} (h : Octal width bs n) (hw : width ≤ 11) (what : Text) :
    Fallible.Triple P (number bs 8 what) (fun m r => m = n ∧ P r) E := by
  obtain ⟨_, hlt, hascii, hvalue⟩ := h
  have hn : n < 2 ^ 64 :=
    hlt.trans_le ((Nat.pow_le_pow_right (by decide) hw).trans (by decide))
  have hcodes : (bs.map fun b => Char.ofNat b.toNat).map Char.toNat = bs.map UInt8.toNat := by
    rw [List.map_map]
    exact List.map_congr_left fun b hb => toNat_ofNat_of_lt_128 (hascii b hb)
  have hfield : field bs 8 what = .ok n := by
    simp only [field, fromUtf8_ascii hascii, hcodes, hvalue]
    rw [Option.filter_some, if_pos (decide_eq_true hn)]
  simp only [number, hfield]
  exact .pure fun r hr => ⟨rfl, hr⟩

/-- What is left of a member is passed over. -/
theorem skip_at (hS : Steady fatal S) (hlen : raw.length = fr.left + fr.pad) :
    Fallible.Triple (At S fr (raw ++ rest)) skip
      (fun _ r => At S { fr with left := 0, pad := 0 } rest r) (Broke fatal) := by
  rintro r ⟨rfl, hs⟩
  have hlen : raw.length = r.left + r.pad := hlen
  unfold skip
  by_cases h0 : r.left + r.pad = 0
  · rw [if_pos h0]
    rw [h0, List.length_eq_zero_iff] at hlen
    subst hlen
    have hl : r.left = 0 := by omega
    have hp : r.pad = 0 := by omega
    refine ⟨?_, hs⟩
    simp [frame, hl, hp]
  · rw [if_neg h0]
    rcases hS.copyTake () copyChunkBytes (r.left + r.pad) [] hs with
      ⟨r', hr, hs'⟩ | ⟨e, out, r', hr, hf⟩
    · rw [← hlen, List.drop_left] at hs'
      simp only [hr, List.nil_append]
      rw [List.take_left' hlen, if_neg (by omega)]
      exact ⟨rfl, hs'⟩
    · simp only [hr]
      obtain ⟨_, _, _, _, _, hn⟩ := copyTake_failed hr
      exact ⟨e, rfl, hn, hf⟩

/-- An odc header. -/
private theorem header_at [Unicode] (hS : Steady fatal S) {mode namesize size : Nat}
    {front modeField middle sizeField lengthField : List UInt8} (hfront : front.length = 12)
    (hmode : Octal 6 modeField mode) (hmiddle : middle.length = 35)
    (hname : Octal 6 sizeField namesize) (hsize : Octal 11 lengthField size) :
    Fallible.Triple
      (At S fr ((front ++ (modeField ++ (middle ++ (sizeField ++ lengthField)))) ++ rest))
      (header odcMagic)
      (fun res r => res = (mode, namesize, size) ∧ At S { fr with newc := false } rest r)
      (Broke fatal) := by
  have hlen : (front ++ (modeField ++ (middle ++ (sizeField ++ lengthField)))).length = 70 := by
    simp only [List.length_append, hfront, hmode.1, hmiddle, hname.1, hsize.1]
  generalize hh : front ++ (modeField ++ (middle ++ (sizeField ++ lengthField))) = h at hlen
  have h12 : (h.drop 12).take 6 = modeField := by
    rw [← hh, List.drop_left' hfront, List.take_left' hmode.1]
  have h53 : (h.drop 53).take 6 = sizeField := by
    rw [← hh, ← List.append_assoc, ← List.append_assoc,
      List.drop_left' (by simp only [List.length_append, hfront, hmode.1, hmiddle]),
      List.take_left' hname.1]
  have h59 : (h.drop 59).take 11 = lengthField := by
    rw [← hh, ← List.append_assoc, ← List.append_assoc, ← List.append_assoc,
      List.drop_left' (by simp only [List.length_append, hfront, hmode.1, hmiddle, hname.1]),
      List.take_of_length_le hsize.1.le]
  unfold header
  rw [if_pos rfl]
  refine (readExact_at hS hlen _).bind fun bs => ?_
  rintro r ⟨rfl, hat⟩
  rw [h12, h53, h59]
  refine Fallible.Triple.bind (Q := fun _ => At S { fr with newc := false } rest)
    (.modify fun r ⟨hfr, hs⟩ => ⟨by rw [← hfr]; rfl, hs⟩) (fun _ => ?_) r hat
  refine (number_at hmode (by decide) _).bind fun m => ?_
  rintro r ⟨rfl, hat⟩
  refine ((number_at hname (by decide) _).bind fun n => ?_) r hat
  rintro r ⟨rfl, hat⟩
  refine ((number_at hsize (by decide) _).bind fun k => ?_) r hat
  rintro r ⟨rfl, hat⟩
  exact ⟨rfl, hat⟩

/-- A name up to its NUL. -/
private theorem takeWhile_name {name : List UInt8} (h : 0 ∉ name) :
    (name ++ [0]).takeWhile (· ≠ 0) = name := by
  rw [List.takeWhile_append_of_pos]
  · simp
  · intro b hb
    simp only [ne_eq, decide_eq_true_eq]
    rintro rfl
    exact h hb

/-- A member's name. -/
private theorem member_at (hS : Steady fatal S) {name : List UInt8} (hne : name ≠ [])
    (hnul : 0 ∉ name)
    (hlen : name.length ≤ maxPathBytes) (hnewc : fr.newc = false) (mode size : Nat) :
    Fallible.Triple (At S fr ((name ++ [0]) ++ rest)) (member mode (name.length + 1) size)
      (fun e r => if name = asciiBytes trailer then e = none ∧ At S { fr with done := true } rest r
        else e = some ⟨fromUtf8Lossy name, mode % 2 ^ 32, size⟩ ∧
          At S { fr with left := size, pad := 0 } rest r) (Broke fatal) := by
  have htrailer : fromUtf8Lossy name = trailer ↔ name = asciiBytes trailer := by
    constructor
    · intro h
      exact bytes_of_fromUtf8Lossy h (by decide)
    · rintro rfl
      decide +kernel
  unfold member
  refine (Fallible.Triple.pass (P := At S fr (name ++ [0] ++ rest)) ?_).bind fun _ => ?_
  · simpa using hlen
  refine (readExact_at hS (by simp) _).bind fun bs => ?_
  rintro r ⟨rfl, hat⟩
  refine ((Fallible.Triple.pass (P := At S fr rest) ?_).bind fun _ => ?_) r hat
  · simp
  rw [takeWhile_name hnul]
  rintro r ⟨rfl, hs⟩
  have hnewc : r.newc = false := hnewc
  have hpad : headerPad (name.length + 1) r = (.ok (), r) := by simp [headerPad, hnewc]
  rw [Fallible.bind_of_ok hpad]
  by_cases hname : name = asciiBytes trailer
  · rw [found, if_pos (htrailer.mpr hname)]
    simp only [Fallible.After, if_pos hname]
    exact ⟨trivial, rfl, hs⟩
  · rw [found, if_neg (mt htrailer.mp hname)]
    simp only [Fallible.After, if_neg hname]
    exact ⟨trivial, by simp [frame, hnewc], hs⟩

/-- **The next member**, or the end of the archive at a member that is named as the trailer is. -/
theorem nextEntry_at [Unicode] (hS : Steady fatal S) {skipped name data mraw : List UInt8}
    {mode : Nat} (hdone : fr.done = false) (hlen : skipped.length = fr.left + fr.pad)
    (hmember : OdcMember name mode data mraw) (hname : name.length ≤ maxPathBytes) :
    Fallible.Triple (At S fr (skipped ++ (mraw ++ rest))) nextEntry
      (fun e r => if name = asciiBytes trailer then e = none ∧ r.done = true ∧ r.left = 0 ∧ r.pad = 0
        else e = some ⟨fromUtf8Lossy name, mode, data.length⟩ ∧ r.done = false ∧
          r.left = data.length ∧ r.pad = 0 ∧ S r.inner (data ++ rest)) (Broke fatal) := by
  obtain ⟨hne, hnul, front, modeField, middle, sizeField, lengthField, hraw, hfront, hmode, hmiddle,
    hsize, hlength⟩ := hmember
  have hmagic : (mraw ++ rest).take 6 = odcMagic := by
    rw [hraw, List.append_assoc, List.append_assoc, List.append_assoc]
    exact List.take_left' rfl
  have hdrop : (mraw ++ rest).drop 6 =
      (front ++ (modeField ++ (middle ++ (sizeField ++ lengthField)))) ++
        ((name ++ [0]) ++ (data ++ rest)) := by
    rw [hraw, List.append_assoc, List.append_assoc, List.append_assoc]
    exact List.drop_left' rfl
  rintro r ⟨rfl, hs⟩
  have hdone : r.done = false := hdone
  unfold nextEntry
  rw [Fallible.bind_of_ok (Fallible.get_apply r), if_neg (by simp [hdone])]
  refine ((skip_at hS hlen).bind fun _ => ?_) r ⟨rfl, hs⟩
  refine (readUpTo_at hS 6).bind fun magic => ?_
  rw [hmagic, hdrop]
  rintro r₁ ⟨rfl, hfr, hs₁⟩
  rw [if_neg (fun h => absurd h.1 (by decide))]
  -- the first member also leaves its magic
  have hmodify := Fallible.modify_apply (ε := ArchiveError) (fun r : CpioReader R =>
    if r.started then r else { r with magic := odcMagic, started := true }) r₁
  have hr₂ : ∀ r₂ : CpioReader R, r₂ = (if r₁.started then r₁ else
      { r₁ with magic := odcMagic, started := true }) →
      r₂.left = 0 ∧ r₂.pad = 0 ∧ r₂.done = false ∧ r₂.inner = r₁.inner := by
    rintro r₂ rfl
    have hl := congrArg CpioReader.left hfr
    have hp := congrArg CpioReader.pad hfr
    have hd := congrArg CpioReader.done hfr
    split <;> exact ⟨hl, hp, hd.trans hdone, rfl⟩
  rw [Fallible.bind_of_ok hmodify]
  generalize hgen : (if r₁.started then r₁ else
    { r₁ with magic := odcMagic, started := true }) = r₂
  obtain ⟨hl, hp, hd, hin⟩ := hr₂ r₂ hgen.symm
  rw [← hin] at hs₁
  have hpass : Fallible.failIf (decide (odcMagic.length < 6))
      (ArchiveError.invalid "truncated cpio header") r₂ = (.ok (), r₂) := rfl
  rw [Fallible.bind_of_ok hpass]
  refine ((header_at hS hfront hmode hmiddle hsize hlength).bind fun res => ?_) r₂ ⟨rfl, hs₁⟩
  rintro r₃ ⟨rfl, hat⟩
  have hmode32 : mode % 2 ^ 32 = mode :=
    Nat.mod_eq_of_lt (hmode.2.1.trans (by decide))
  refine (member_at hS hne hnul hname rfl mode data.length).imp (fun _ h => h) ?_ (fun _ _ h => h)
    r₃ hat
  intro e r₄ h
  split at h
  · rename_i htrailer
    rw [if_pos htrailer]
    exact ⟨h.1, congrArg CpioReader.done h.2.1, (congrArg CpioReader.left h.2.1).trans hl,
      (congrArg CpioReader.pad h.2.1).trans hp⟩
  · rename_i htrailer
    rw [if_neg htrailer]
    exact ⟨hmode32 ▸ h.1, (congrArg CpioReader.done h.2.1).trans hd,
      congrArg CpioReader.left h.2.1, congrArg CpioReader.pad h.2.1, h.2.2⟩

end Steps

/-- Data is answered from the front of what is left, or the call is interrupted before any of
    it. -/
private theorem readData_at [Read Unit Payload R] {fatal : IoErr → Prop} {S : R → List UInt8 → Prop}
    (hS : Steady fatal S) {r r' : CpioReader R} {unread rest : List UInt8} {n : Nat}
    {res : Except IoErr (List UInt8)} (hlen : r.left = unread.length)
    (hs : S r.inner (unread ++ rest)) (h : r.readData n = (res, r')) :
    (∃ bs unread', res = .ok bs ∧ unread = bs ++ unread' ∧ bs.length ≤ n ∧
      (bs = [] → n = 0 ∨ unread = []) ∧ r' = { r with inner := r'.inner, left := unread'.length } ∧
      S r'.inner (unread' ++ rest)) ∨
    ∃ e, res = .error e ∧ (e.isInterrupted = true ∧ r' = { r with inner := r'.inner } ∧
      S r'.inner (unread ++ rest) ∨ e.isInterrupted = false ∧ fatal e) := by
  unfold readData at h
  split at h
  · rename_i h0
    cases h
    refine .inl ⟨[], unread, rfl, rfl, Nat.zero_le _, fun _ => ?_, by rw [← hlen], hs⟩
    rw [hlen, Nat.min_eq_zero_iff, List.length_eq_zero_iff] at h0
    exact h0
  · rename_i h0
    split at h
    · rename_i e inner hr
      cases h
      exact .inr ⟨e, rfl, (hS.error hs hr).imp_left fun ⟨hi, hs'⟩ => ⟨hi, rfl, hs'⟩⟩
    · rename_i inner hr
      -- the data does not run out
      have hnil := hS.finished hs (Nat.pos_of_ne_zero h0) hr
      rw [List.append_eq_nil_iff] at hnil
      rw [hlen, hnil.1] at h0
      simp at h0
    · rename_i b bs inner hr
      cases h
      obtain ⟨P', hP, hs'⟩ := hS.ok hs hr
      have hle := Read.length_read hr
      have hpre : b :: bs <+: unread :=
        List.prefix_of_prefix_length_le ⟨P', hP.symm⟩ (List.prefix_append unread rest)
          (by rw [← hlen]; omega)
      obtain ⟨unread', rfl⟩ := hpre
      rw [List.append_assoc, List.append_cancel_left_eq] at hP
      refine .inl ⟨b :: bs, unread', rfl, rfl, by omega, fun h => absurd h (by simp), ?_,
        hP ▸ hs'⟩
      simp [hlen]

/-- `r` is inside an archive: `unread` is left of the current member, and then the members `ms`
    are to come. -/
structure Owes (S : R → List UInt8 → Prop) (r : CpioReader R) (unread : List UInt8)
    (ms : List Member) : Prop where
  pad_eq : r.pad = 0
  left_eq : r.left = unread.length
  archive : if r.done then unread = [] ∧ ms = []
    else ∃ raw, OdcArchive ms raw ∧ S r.inner (unread ++ raw)

section Calls

variable [Read Unit Payload R] {fatal : IoErr → Prop} {S : R → List UInt8 → Prop}
  {r r' : CpioReader R} {unread : List UInt8} {ms : List Member}

omit [Read Unit Payload R] in
theorem owes_new {r : R} {raw : List UInt8} (ha : OdcArchive ms raw) (hs : S r raw) :
    Owes S (new r) [] ms :=
  ⟨rfl, rfl, raw, ha, hs⟩

/-- The next header is the next member's, or there is none. -/
theorem Owes.nextEntry [Unicode] (hS : Steady fatal S) (h : Owes S r unread ms)
    {res : Except ArchiveError (Option CpioEntry)} (hr : nextEntry r = (res, r')) :
    (match ms with
      | []      => res = .ok none ∧ Owes S r' [] []
      | m :: ms => res = .ok (some m.entry) ∧ Owes S r' m.data ms) ∨
    ∃ e, res = .error (.ofIo e) ∧ e.isInterrupted = false ∧ fatal e := by
  have harchive := h.archive
  split at harchive
  · -- behind the trailer there is no entry
    rename_i hdone
    obtain ⟨rfl, rfl⟩ := harchive
    unfold CpioReader.nextEntry at hr
    rw [Fallible.bind_of_ok (Fallible.get_apply r), if_pos hdone] at hr
    cases hr
    exact .inl ⟨rfl, h⟩
  · rename_i hdone
    obtain ⟨raw, ha, hs⟩ := harchive
    have hlen : unread.length = r.frame.left + r.frame.pad := by
      change unread.length = r.left + r.pad
      rw [h.left_eq, h.pad_eq, Nat.add_zero]
    cases ha with
    -- the entry is the trailer
    | trailer hm =>
      have hnext := nextEntry_at hS (Bool.eq_false_iff.mpr hdone) hlen hm (by decide) r ⟨rfl, hs⟩
      rw [hr] at hnext
      cases res with
      | ok e =>
        simp only [Fallible.After, if_true] at hnext
        obtain ⟨rfl, hd, hl, hp⟩ := hnext
        exact .inl ⟨rfl, hp, hl, by rw [if_pos hd]; exact ⟨rfl, rfl⟩⟩
      | error e =>
        obtain ⟨io, rfl, hn, hf⟩ := hnext
        exact .inr ⟨io, rfl, hn, hf⟩
    -- the entry is a member
    | member hm hle hname ha =>
      have hnext := nextEntry_at hS (Bool.eq_false_iff.mpr hdone) hlen hm hle r ⟨rfl, hs⟩
      rw [hr] at hnext
      cases res with
      | ok e =>
        simp only [Fallible.After, if_neg hname] at hnext
        obtain ⟨rfl, hd, hl, hp, hs'⟩ := hnext
        exact .inl ⟨rfl, hp, hl, by rw [if_neg (by simp [hd])]; exact ⟨_, ha, hs'⟩⟩
      | error e =>
        obtain ⟨io, rfl, hn, hf⟩ := hnext
        exact .inr ⟨io, rfl, hn, hf⟩

/-- Data is the front of what is left of the current member. -/
theorem Owes.readData (hS : Steady fatal S) (h : Owes S r unread ms) {n : Nat}
    {res : Except IoErr (List UInt8)} (hr : r.readData n = (res, r')) :
    (∃ bs unread', res = .ok bs ∧ unread = bs ++ unread' ∧ bs.length ≤ n ∧
      (bs = [] → n = 0 ∨ unread = []) ∧ Owes S r' unread' ms) ∨
    ∃ e, res = .error e ∧ (e.isInterrupted = true ∧ Owes S r' unread ms ∨
      e.isInterrupted = false ∧ fatal e) := by
  have harchive := h.archive
  split at harchive
  · rename_i hdone
    obtain ⟨rfl, rfl⟩ := harchive
    have hleft : r.left = 0 := h.left_eq
    simp only [CpioReader.readData, hleft, Nat.min_zero, if_true] at hr
    cases hr
    exact .inl ⟨[], [], rfl, rfl, Nat.zero_le _, fun _ => .inr rfl, h⟩
  · rename_i hdone
    obtain ⟨raw, ha, hs⟩ := harchive
    rcases readData_at hS h.left_eq hs hr with ⟨bs, unread', rfl, hun, hle, hnil, hr', hs'⟩ |
      ⟨e, rfl, ⟨hi, hr', hs'⟩ | hf⟩
    · refine .inl ⟨bs, unread', rfl, hun, hle, hnil, ?_, ?_, ?_⟩
      · rw [hr']; exact h.pad_eq
      · rw [hr']
      · rw [hr', if_neg hdone]
        exact ⟨raw, ha, hs'⟩
    · refine .inr ⟨e, rfl, .inl ⟨hi, ?_, ?_, ?_⟩⟩
      · rw [hr']; exact h.pad_eq
      · rw [hr']; exact h.left_eq
      · rw [hr', if_neg hdone]
        exact ⟨raw, ha, hs'⟩
    · exact .inr ⟨e, rfl, .inr hf⟩

end Calls

end CpioReader

/-! ### Callers -/

/-- What a caller asks of a reader. -/
inductive CpioCall
  | next
  | read (n : Nat)

/-- What it is answered. -/
inductive CpioAnswer
  | entry (res : Except ArchiveError (Option CpioEntry))
  | data (res : Except IoErr (List UInt8))

/-- The reader, one call at a time. -/
def cpioMachine [Unicode] (R : Type) [Read Unit Payload R] :
    Machine (CpioReader R) CpioCall CpioAnswer where
  step r call :=
    match call with
    | .next   => ((CpioReader.nextEntry r).2, .entry (CpioReader.nextEntry r).1)
    | .read n => ((r.readData n).2, .data (r.readData n).1)

/-- What a caller may see of an archive of which `unread` is left of the current member, and then
    `ms` to come: the members in order and then the end, and of each member's data what it asks
    for, but for calls that are interrupted. -/
inductive Follows : List Member → List UInt8 → List (CpioCall × CpioAnswer) → Prop
  | nil {ms unread} : Follows ms unread []
  | next {m ms unread calls} (h : Follows ms m.data calls) :
      Follows (m :: ms) unread ((.next, .entry (.ok (some m.entry))) :: calls)
  | finished {unread calls} (h : Follows [] [] calls) :
      Follows [] unread ((.next, .entry (.ok none)) :: calls)
  | read {ms n bs unread calls} (hle : bs.length ≤ n)
      (hnil : bs = [] → n = 0 ∨ bs ++ unread = []) (h : Follows ms unread calls) :
      Follows ms (bs ++ unread) ((.read n, .data (.ok bs)) :: calls)
  | interrupted {ms unread n e calls} (hi : e.isInterrupted = true) (h : Follows ms unread calls) :
      Follows ms unread ((.read n, .data (.error e)) :: calls)

/-- A caller of a reader inside an archive follows it. -/
private theorem follows_of_owes [Unicode] {R : Type} [Read Unit Payload R]
    {S : R → List UInt8 → Prop}
    (hS : Steady (fun _ => False) S) {r : CpioReader R} {unread : List UInt8} {ms : List Member}
    (h : r.Owes S unread ms) (calls : List CpioCall) :
    Follows ms unread (calls.zip ((cpioMachine R).answers r calls)) := by
  induction calls generalizing r unread ms with
  | nil => exact .nil
  | cons call calls ih =>
    cases call with
    | next =>
      rcases hr : CpioReader.nextEntry r with ⟨res, r'⟩
      simp only [Machine.answers_cons, cpioMachine, hr, List.zip_cons_cons]
      rcases h.nextEntry hS hr with hstep | ⟨_, _, _, hf⟩
      · cases ms with
        | nil =>
          obtain ⟨rfl, h'⟩ := hstep
          exact .finished (ih h')
        | cons m ms =>
          obtain ⟨rfl, h'⟩ := hstep
          exact .next (ih h')
      · exact hf.elim
    | read n =>
      rcases hr : r.readData n with ⟨res, r'⟩
      simp only [Machine.answers_cons, cpioMachine, hr, List.zip_cons_cons]
      rcases h.readData hS hr with ⟨bs, unread', rfl, rfl, hle, hnil, h'⟩ |
        ⟨e, rfl, ⟨hi, h'⟩ | ⟨_, hf⟩⟩
      · exact .read hle hnil (ih h')
      · exact .interrupted hi (ih h')
      · exact hf.elim

/-- Asked for one member more than there are, two archives that are answered alike are equally
    long. -/
theorem Follows.length_eq {ps ms : List Member} {unread unread' : List UInt8}
    {answers : List CpioAnswer} (hlen : answers.length = ps.length + 1)
    (hp : Follows ps unread ((List.replicate (ps.length + 1) .next).zip answers))
    (hm : Follows ms unread' ((List.replicate (ps.length + 1) .next).zip answers)) :
    ms.length = ps.length := by
  induction ps generalizing ms unread unread' answers with
  | nil =>
    obtain ⟨a, rfl⟩ := List.length_eq_one_iff.mp hlen
    cases hp with
    | finished _ =>
      cases hm with
      | finished _ => rfl
  | cons p ps ih =>
    obtain ⟨a, answers, rfl⟩ := List.exists_cons_of_length_eq_add_one hlen
    rw [List.length_cons, List.replicate_succ, List.zip_cons_cons] at hp hm
    generalize hcall : CpioCall.next = call at hp hm
    cases hp with
    | next hp =>
      generalize hentry : CpioAnswer.entry (.ok (some p.entry)) = a at hm
      cases hm with
      | next hm => exact congrArg (· + 1) (ih (by simpa using hlen) hp hm)
      | finished _ => cases hentry
    | read => cases hcall
    | interrupted => cases hcall

/-! ### The round trip -/

/-- **CPIO round trip.**  Written without a failure, under names of at most 4096 bytes, members
    come back in order and then the end, however the archive is chopped up and however much of
    each member's data is read, if and only if none of them is named as the trailer is. -/
theorem cpio_roundTrip [Unicode] {W D : Type} [Sink W] [Read Unit Payload D]
    (ops : List (Append D)) (inner : W) {w : CpioWriter W} {u : Unit}
    (h : Append.runAll ops (.new inner) = (.ok u, w))
    (hlen : ∀ op ∈ ops, op.member.name.length ≤ maxPathBytes) :
    ∃ archive, Sink.bytes w.finish = Sink.bytes inner ++ archive ∧
      ((∀ (s : Socket Payload), s.Calm → s.bytes = archive → ∀ calls : List CpioCall,
          Follows (ops.map Append.member) [] (calls.zip ((cpioMachine _).answers (.new s) calls))) ↔
        ∀ op ∈ ops, op.member.name ≠ asciiBytes trailer) := by
  obtain ⟨archive, hbytes, harchive⟩ := odcArchive_runAll h hlen
  have hfollows : ∀ s : Socket Payload, s.Calm → s.bytes = archive → ∀ calls : List CpioCall,
      Follows ((ops.map Append.member).takeWhile (·.name ≠ asciiBytes trailer)) []
        (calls.zip ((cpioMachine _).answers (.new s) calls)) := fun s hcalm hs calls =>
    follows_of_owes (ByteStream.steady _) (CpioReader.owes_new harchive ⟨hcalm, hs⟩) calls
  refine ⟨archive, hbytes, fun hall op hop hname => ?_, fun hnames s hcalm hs calls => ?_⟩
  · -- the archive, in one piece, and a caller that asks for one member more than it has
    have hs : Socket.bytes (Socket.once archive : Socket Payload) = archive := Socket.bytes_once _
    have hlength := Follows.length_eq (by simp)
      (hfollows _ (Socket.calm_once archive) hs (.replicate _ .next))
      (hall _ (Socket.calm_once archive) hs (.replicate _ .next))
    have hself := (List.takeWhile_prefix _).eq_of_length hlength.symm
    have := List.takeWhile_eq_self_iff.mp hself op.member (List.mem_map_of_mem hop)
    simp [hname] at this
  · have hall : (ops.map Append.member).takeWhile (·.name ≠ asciiBytes trailer) =
        ops.map Append.member := by
      rw [List.takeWhile_eq_self_iff]
      intro m hm
      obtain ⟨op, hop, rfl⟩ := List.mem_map.mp hm
      simpa using hnames op hop
    have := hfollows s hcalm hs calls
    rwa [hall] at this

/-- A member and a file. -/
theorem cpio_roundTrip_two :
    letI := Unicode.ascii
    let ops : List (Append Cursor) := [.raw [97] 0o120777 [1, 2, 3],
      .file "b" ⟨true, 2049, 0o100600, 1000, 1000, -1, 2⟩ ⟨[4, 5]⟩]
    ∃ w, Append.runAll ops (.new ([] : List UInt8)) = (.ok (), w) ∧
      ∀ s : Socket Payload, s.Calm → s.bytes = w.finish → ∀ calls : List CpioCall,
        Follows [⟨[97], 0o120777, [1, 2, 3]⟩, ⟨[98], 0o100600, [4, 5]⟩] []
          (calls.zip ((cpioMachine _).answers (.new s) calls)) := by
  intro ops
  have hok : (Append.runAll ops (.new ([] : List UInt8))).1 = .ok () := by decide +kernel
  have hrun : Append.runAll ops (.new ([] : List UInt8)) =
      (.ok (), (Append.runAll ops (.new ([] : List UInt8))).2) := Prod.ext hok rfl
  let _ := Unicode.ascii
  obtain ⟨archive, hbytes, hiff⟩ := cpio_roundTrip ops [] hrun (by decide +kernel)
  have hfollows := hiff.mpr (by decide +kernel)
  refine ⟨_, hrun, fun s hcalm hs calls => ?_⟩
  have hmembers : ops.map Append.member =
      [⟨[97], 0o120777, [1, 2, 3]⟩, ⟨[98], 0o100600, [4, 5]⟩] := by
    decide +kernel
  rw [← hmembers]
  exact hfollows s hcalm (hs.trans hbytes) calls

/-- A member named as the trailer is ends the archive before itself. -/
theorem cpio_roundTrip_trailer :
    letI := Unicode.ascii
    let ops : List (Append Cursor) := [.raw (asciiBytes trailer) 0o100644 [120]]
    ∃ w, Append.runAll ops (.new ([] : List UInt8)) = (.ok (), w) ∧
      (∀ op ∈ ops, op.member.name.length ≤ maxPathBytes) ∧
      ∃ s : Socket Payload, s.Calm ∧ s.bytes = w.finish ∧
        ¬ Follows (ops.map Append.member) []
          ([.next].zip ((cpioMachine _).answers (.new s) [.next])) := by
  intro ops
  let _ := Unicode.ascii
  have hok : (Append.runAll ops (.new ([] : List UInt8))).1 = .ok () := by decide +kernel
  refine ⟨_, Prod.ext hok rfl, by decide +kernel, _, Socket.calm_once _, Socket.bytes_once _, ?_⟩
  have hnone : (CpioReader.nextEntry (.new (Socket.once
      (Append.runAll ops (.new ([] : List UInt8))).2.finish : Socket Payload))).1 = .ok none := by
    decide +kernel
  simp only [Machine.answers_cons, cpioMachine, hnone]
  intro h
  generalize ([] : List UInt8) = unread at h
  cases h

end Omdrop.Proto
