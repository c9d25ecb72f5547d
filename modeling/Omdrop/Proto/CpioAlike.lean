import Omdrop.Stream.Alike
import Omdrop.Proto.CpioGrammar
import Omdrop.Proto.CpioTrace

namespace Omdrop.Proto

open Omdrop.Stream Omdrop.Text

/-!
# Two readers of an archive side by side

Over sources that give the same answers, two readers do the same, whatever comes of it
(`alike_nextEntry`, `alike_readData`).  What a reader may hold in `left` and `pad` is bounded by
the width of the fields (`nextEntry_bounds`).
-/

namespace CpioReader

variable {R T : Type}

/-- Two readers stand alike, over sources that `same` relates. -/
def Twin (same : R → T → Prop) (r : CpioReader R) (t : CpioReader T) : Prop :=
  t.frame = r.frame ∧ same r.inner t.inner

/-- The sources that a failure leaves. -/
def Left (gone : R → T → Prop) (_ : ArchiveError) (r : CpioReader R) (t : CpioReader T) : Prop :=
  gone r.inner t.inner

section Alike

variable [Read Unit Payload R] [Read Unit Payload T] {same gone : R → T → Prop}

theorem alike_readUpTo (h : Stream.Alike same fun _ => gone) (n : Nat) :
    Fallible.Alike (Twin same) (readUpTo (R := R) n) (readUpTo (R := T) n)
      (fun _ => Twin same) (Left gone) := by
  rintro r t ⟨hframe, hrt⟩
  rcases hr : Stream.readFull () n [] r.inner with ⟨res, inner⟩
  obtain ⟨inner', ht, hrel⟩ := (h.readFull n [] hrt).exists hr
  unfold readUpTo
  rw [hr, ht]
  cases res with
  | ok bs => exact ⟨rfl, hframe, hrel⟩
  | error e => exact ⟨rfl, hrel⟩

theorem alike_readExact (h : Stream.Alike same fun _ => gone) (hsub : ∀ r t, same r t → gone r t) (n : Nat)
    (message : Text) : Fallible.Alike (Twin same) (readExact (R := R) n message)
      (readExact (R := T) n message) (fun _ => Twin same) (Left gone) :=
  (alike_readUpTo h n).bind fun _ => (Fallible.Alike.failIf fun _ _ hst => hsub _ _ hst.2).bind
    fun _ => .pure fun _ _ hst => hst

omit [Read Unit Payload R] [Read Unit Payload T] in
theorem alike_number [Unicode] (hsub : ∀ r t, same r t → gone r t) (raw : List UInt8)
    (radix : Nat) (what : Text) : Fallible.Alike (Twin same) (number (R := R) raw radix what)
      (number (R := T) raw radix what) (fun _ => Twin same) (Left gone) := by
  unfold number
  split
  · exact .pure fun _ _ hst => hst
  · exact .fail fun _ _ hst => hsub _ _ hst.2

private theorem alike_skip (h : Stream.Alike same fun _ => gone)
    (hsub : ∀ r t, same r t → gone r t) :
    Fallible.Alike (Twin same) (skip (R := R)) (skip (R := T)) (fun _ => Twin same)
      (Left gone) := by
  rintro r t ⟨hframe, hrt⟩
  have hleft : t.left = r.left := congrArg CpioReader.left hframe
  have hpad : t.pad = r.pad := congrArg CpioReader.pad hframe
  unfold skip
  rw [hleft, hpad]
  by_cases h0 : r.left + r.pad = 0
  · rw [if_pos h0, if_pos h0]
    exact ⟨rfl, hframe, hrt⟩
  · rw [if_neg h0, if_neg h0]
    obtain ⟨res, out, inner, inner', hr, ht, hrel⟩ :=
      h.copyTake copyChunkBytes (r.left + r.pad) [] hrt
    rw [hr, ht]
    cases res with
    | error e => exact ⟨rfl, hrel⟩
    | ok _ =>
      dsimp only
      split
      · exact ⟨rfl, hsub _ _ hrel⟩
      · refine ⟨rfl, ?_, hrel⟩
        show ({ t.frame with left := 0, pad := 0 } : CpioReader Unit) =
          { r.frame with left := 0, pad := 0 }
        rw [hframe]

omit [Read Unit Payload R] [Read Unit Payload T] in
/-- A change of the frame alone. -/
theorem alike_modify {f : CpioReader R → CpioReader R} {g : CpioReader T → CpioReader T}
    (k : CpioReader Unit → CpioReader Unit) (hf : ∀ r, (f r).frame = k r.frame ∧ (f r).inner = r.inner)
    (hg : ∀ t, (g t).frame = k t.frame ∧ (g t).inner = t.inner) :
    Fallible.Alike (Twin same) (Fallible.modify f) (Fallible.modify g) (fun _ => Twin same)
      (Left gone) := by
  refine .modify fun r t ⟨hframe, hrt⟩ => ⟨?_, ?_⟩
  · rw [(hf r).1, (hg t).1, hframe]
  · rw [(hf r).2, (hg t).2]
    exact hrt

private theorem alike_header [Unicode] (h : Stream.Alike same fun _ => gone)
    (hsub : ∀ r t, same r t → gone r t)
    (magic : List UInt8) : Fallible.Alike (Twin same) (header (R := R) magic)
      (header (R := T) magic) (fun _ => Twin same) (Left gone) := by
  have hfields (n : Nat) (newc : Bool) (radix : Nat) (a b c : List UInt8 → List UInt8) :
      Fallible.Alike (Twin same)
        (do let h ← readExact (R := R) n "truncated cpio header"
            Fallible.modify ({ · with newc })
            let mode ← number (a h) radix "mode"
            let namesize ← number (b h) radix "name size"
            let size ← number (c h) radix "file size"
            pure (mode, namesize, size))
        (do let h ← readExact (R := T) n "truncated cpio header"
            Fallible.modify ({ · with newc })
            let mode ← number (a h) radix "mode"
            let namesize ← number (b h) radix "name size"
            let size ← number (c h) radix "file size"
            pure (mode, namesize, size)) (fun _ => Twin same) (Left gone) := by
    refine (alike_readExact h hsub _ _).bind fun h => ?_
    refine Fallible.Alike.bind (alike_modify ({ · with newc }) ?_ ?_) fun _ => ?_
    · intro r
      exact ⟨rfl, rfl⟩
    · intro t
      exact ⟨rfl, rfl⟩
    refine (alike_number hsub _ _ _).bind fun mode => (alike_number hsub _ _ _).bind fun n => ?_
    exact (alike_number hsub _ _ _).bind fun size => .pure fun _ _ hst => hst
  unfold header
  split
  · exact hfields _ _ _ (fun h => (h.drop 12).take 6) (fun h => (h.drop 53).take 6)
      fun h => (h.drop 59).take 11
  · split
    · exact hfields _ _ _ (fun h => (h.drop 8).take 8) (fun h => (h.drop 88).take 8)
        fun h => (h.drop 48).take 8
    · exact .fail fun _ _ hst => hsub _ _ hst.2

private theorem alike_member (h : Stream.Alike same fun _ => gone)
    (hsub : ∀ r t, same r t → gone r t)
    (mode namesize size : Nat) : Fallible.Alike (Twin same) (member (R := R) mode namesize size)
      (member (R := T) mode namesize size) (fun _ => Twin same) (Left gone) := by
  have hcheck (p : Bool) (e : ArchiveError) : Fallible.Alike (Twin same)
      (Fallible.failIf p e : Step R Unit) (Fallible.failIf p e : Step T Unit)
      (fun _ => Twin same) (Left gone) := .failIf fun _ _ hst => hsub _ _ hst.2
  refine (hcheck _ _).bind fun _ => (alike_readExact h hsub _ _).bind fun name => ?_
  refine (hcheck _ _).bind fun _ => Fallible.Alike.bind (Q := fun _ => Twin same) ?_ fun _ => ?_
  · -- what fills up the header
    intro r t hrt
    have hnewc : t.newc = r.newc := congrArg CpioReader.newc hrt.1
    unfold headerPad
    rw [hnewc]
    split
    · exact (alike_readExact h hsub _ _).bind
        (fun _ => Fallible.Alike.pure (Q := fun _ => Twin same) fun _ _ hst => hst) r t hrt
    · exact ⟨rfl, hrt⟩
  · intro r t hrt
    have hnewc : t.newc = r.newc := congrArg CpioReader.newc hrt.1
    unfold found
    split
    · refine ⟨rfl, ?_, hrt.2⟩
      show ({ t.frame with done := true } : CpioReader Unit) = { r.frame with done := true }
      rw [hrt.1]
    · have hpad : (if t.newc then padding size else 0) = if r.newc then padding size else 0 := by
        rw [hnewc]
      refine ⟨rfl, ?_, hrt.2⟩
      rw [hpad]
      generalize (if r.newc then padding size else 0) = pad
      show ({ t.frame with left := size, pad } : CpioReader Unit) =
        { r.frame with left := size, pad }
      rw [hrt.1]

/-- **The next member, side by side.** -/
theorem alike_nextEntry [Unicode] (h : Stream.Alike same fun _ => gone)
    (hsub : ∀ r t, same r t → gone r t) : Fallible.Alike (Twin same) (nextEntry (R := R))
      (nextEntry (R := T)) (fun _ => Twin same) (Left gone) := by
  intro r t hrt
  have hdone : t.done = r.done := congrArg CpioReader.done hrt.1
  have hstarted : t.started = r.started := congrArg CpioReader.started hrt.1
  unfold nextEntry
  rw [Fallible.bind_of_ok (Fallible.get_apply r), Fallible.bind_of_ok (Fallible.get_apply t), hdone,
    hstarted]
  split
  · exact ⟨rfl, hrt⟩
  · refine ((alike_skip h hsub).bind fun _ => (alike_readUpTo h _).bind fun magic => ?_) r t hrt
    split
    · refine Fallible.Alike.bind (alike_modify ({ · with done := true }) ?_ ?_) fun _ => ?_
      · intro r
        exact ⟨rfl, rfl⟩
      · intro t
        exact ⟨rfl, rfl⟩
      · exact .pure fun _ _ hst => hst
    · refine (alike_modify (fun r => if r.started then r else { r with magic, started := true })
        (fun r => ?_) (fun t => ?_)).bind fun _ => ?_
      · by_cases hr : r.started
        · have hf : r.frame.started = true := hr
          rw [if_pos hr, if_pos hf]
          exact ⟨rfl, rfl⟩
        · have hf : ¬ r.frame.started = true := hr
          rw [if_neg hr, if_neg hf]
          exact ⟨rfl, rfl⟩
      · by_cases ht : t.started
        · have hf : t.frame.started = true := ht
          rw [if_pos ht, if_pos hf]
          exact ⟨rfl, rfl⟩
        · have hf : ¬ t.frame.started = true := ht
          rw [if_neg ht, if_neg hf]
          exact ⟨rfl, rfl⟩
      · refine (Fallible.Alike.failIf fun _ _ hst => hsub _ _ hst.2).bind fun _ => ?_
        exact (alike_header h hsub magic).bind fun fields => alike_member h hsub _ _ _

/-- Data, side by side. -/
theorem alike_readData (h : Stream.Alike same fun _ => gone) (hsub : ∀ r t, same r t → gone r t) (n : Nat)
    {r : CpioReader R} {t : CpioReader T} (hrt : Twin same r t) :
    Fallible.Same (fun _ => Twin same) (fun _ r t => gone r.inner t.inner) (r.readData n)
      (t.readData n) := by
  have hleft : t.left = r.left := congrArg CpioReader.left hrt.1
  unfold readData
  rw [hleft]
  by_cases h0 : min n r.left = 0
  · rw [if_pos h0, if_pos h0]
    exact ⟨rfl, hrt⟩
  · rw [if_neg h0, if_neg h0]
    rcases hr : Read.read () (min n r.left) r.inner with ⟨res, inner⟩
    obtain ⟨inner', ht, hrel⟩ := (h () (min n r.left) r.inner t.inner hrt.2).exists hr
    rw [ht]
    cases res with
    | error e =>
      refine ⟨rfl, ?_⟩
      dsimp only [Fallible.Related] at hrel
      split at hrel
      · exact hsub _ _ hrel
      · exact hrel
    | ok bs =>
      cases bs with
      | nil => exact ⟨rfl, hsub _ _ hrel⟩
      | cons b bs =>
        refine ⟨rfl, ?_, hrel⟩
        show ({ t.frame with left := r.left - (b :: bs).length } : CpioReader Unit) =
          { r.frame with left := r.left - (b :: bs).length }
        rw [hrt.1]

end Alike

/-! ### How much a member may say it has -/

section Bounds

variable [Read Unit Payload R]

/-- A member's size is an odc field's number at most. -/
private theorem header_bounds [Unicode] {magic : List UInt8} {mode namesize size : Nat}
    {r r' : CpioReader R} (h : header magic r = (.ok (mode, namesize, size), r')) :
    size < 2 ^ 33 := by
  have hfield (width radix : Nat) (raw : List UInt8) (hwidth : raw.length ≤ width)
      (hradix : 0 < radix) (hfits : radix ^ width ≤ 2 ^ 33) {r r' : CpioReader R} {n : Nat}
      {what : Text} (hn : number raw radix what r = (.ok n, r')) : n < 2 ^ 33 := by
    have hok := (number_eq_ok hn).1
    rcases field_cases hwidth hradix (hfits.trans (by decide)) what with
      ⟨m, _, hfield, hm⟩ | ⟨_, e, hfield⟩
    · rw [hfield, Except.ok.injEq] at hok
      exact hok ▸ hm.trans_le hfits
    · rw [hfield] at hok
      cases hok
  unfold header at h
  split at h
  · obtain ⟨bs, r₁, _, h⟩ := Fallible.bind_eq_ok h
    obtain ⟨_, r₂, _, h⟩ := Fallible.bind_eq_ok h
    obtain ⟨m, r₃, _, h⟩ := Fallible.bind_eq_ok h
    obtain ⟨n, r₄, _, h⟩ := Fallible.bind_eq_ok h
    obtain ⟨k, r₅, hk, h⟩ := Fallible.bind_eq_ok h
    cases h
    exact hfield 11 8 _ (List.length_take_le ..) (by decide) (by decide) hk
  · split at h
    · obtain ⟨bs, r₁, _, h⟩ := Fallible.bind_eq_ok h
      obtain ⟨_, r₂, _, h⟩ := Fallible.bind_eq_ok h
      obtain ⟨m, r₃, _, h⟩ := Fallible.bind_eq_ok h
      obtain ⟨n, r₄, _, h⟩ := Fallible.bind_eq_ok h
      obtain ⟨k, r₅, hk, h⟩ := Fallible.bind_eq_ok h
      cases h
      exact hfield 8 16 _ (List.length_take_le ..) (by decide) (by decide) hk
    · cases h

private theorem member_bounds {mode namesize size : Nat} {e : CpioEntry} {r r' : CpioReader R}
    (h : member mode namesize size r = (.ok (some e), r')) :
    e.size = size ∧ r'.left = size ∧ r'.pad ≤ 3 := by
  obtain ⟨_, r₁, _, h⟩ := Fallible.bind_eq_ok h
  obtain ⟨name, r₂, _, h⟩ := Fallible.bind_eq_ok h
  obtain ⟨_, r₃, _, h⟩ := Fallible.bind_eq_ok h
  obtain ⟨_, r₄, _, h⟩ := Fallible.bind_eq_ok h
  unfold found at h
  split at h
  · cases h
  · cases h
    refine ⟨rfl, rfl, ?_⟩
    show (if r₄.newc then padding size else 0) ≤ 3
    unfold padding
    split <;> omega

/-- **A member's data and its padding are small numbers.** -/
theorem nextEntry_bounds [Unicode] {e : CpioEntry} {r r' : CpioReader R}
    (h : nextEntry r = (.ok (some e), r')) :
    e.size < 2 ^ 33 ∧ r'.left = e.size ∧ r'.pad ≤ 3 := by
  simp only [nextEntry] at h
  rw [Fallible.bind_of_ok (Fallible.get_apply r)] at h
  split at h
  · cases h
  · obtain ⟨_, r₁, _, h⟩ := Fallible.bind_eq_ok h
    obtain ⟨magic, r₂, _, h⟩ := Fallible.bind_eq_ok h
    split at h
    · cases h
    · obtain ⟨_, r₃, _, h⟩ := Fallible.bind_eq_ok h
      obtain ⟨_, r₄, _, h⟩ := Fallible.bind_eq_ok h
      obtain ⟨⟨mode, namesize, size⟩, r₅, hheader, h⟩ := Fallible.bind_eq_ok h
      obtain ⟨hsize, hleft, hpad⟩ := member_bounds h
      rw [hleft, hsize]
      exact ⟨header_bounds hheader, rfl, hpad⟩

/-- What a reader answers of its data comes off what is left. -/
theorem readData_bounds {n : Nat} {bs : List UInt8} {r r' : CpioReader R}
    (h : r.readData n = (.ok bs, r')) :
    bs.length ≤ r.left ∧ r'.left = r.left - bs.length ∧ r'.pad = r.pad := by
  unfold readData at h
  split at h
  · cases h
    exact ⟨Nat.zero_le _, rfl, rfl⟩
  · split at h
    · cases h
    · cases h
    · rename_i hread
      cases h
      exact ⟨(Read.length_read hread).trans (Nat.min_le_right _ _), rfl, rfl⟩

end Bounds

end CpioReader

end Omdrop.Proto
