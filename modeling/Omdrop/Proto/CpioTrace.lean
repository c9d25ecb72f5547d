import Omdrop.Proto.CpioStream

namespace Omdrop.Proto

open Omdrop.Stream Omdrop.Text

/-!
# An archive read twice

What a reader makes of an archive depends on the archive's bytes alone.  `Tracks` compares a step
of one reader, over any source, with the same step of another over a steady one: if the first
succeeded, then the second comes to the same result before the same bytes.
`nextEntry_tracks` is that for the next member, and `size_nextEntry_lt` that there are finitely
many of them.
-/


namespace CpioReader

section Tracks

variable {Q R α β : Type} [Read Unit Payload Q] [Read Unit Payload R]
  {fatal : IoErr → Prop} {S : R → List UInt8 → Prop}

/-- Where `x₁` succeeds, it has read some bytes, and `x₂` comes to the same before these bytes
    and any others. -/
def Tracks (fatal : IoErr → Prop) (S : R → List UInt8 → Prop) (x₁ : Step Q α)
    (x₂ : Step R α) : Prop :=
  ∀ r a r', x₁ r = (.ok a, r') → ∃ got, Delivers r.inner got r'.inner ∧
    ∀ rest, Fallible.Triple (At S r.frame (got ++ rest)) x₂
      (fun b s => b = a ∧ At S r'.frame rest s) (Broke fatal)

omit [Read Unit Payload R] in
/-- A value tracks itself. -/
theorem Tracks.pure (a : α) : Tracks (Q := Q) fatal S (Pure.pure a) (Pure.pure a) := by
  intro r b r' h
  cases h
  exact ⟨[], .refl _, fun rest => .pure fun s hs => ⟨rfl, hs⟩⟩

omit [Read Unit Payload R] in
/-- Two steps in a row track two. -/
theorem Tracks.bind {x₁ : Step Q α} {x₂ : Step R α} {f₁ : α → Step Q β} {f₂ : α → Step R β}
    (hx : Tracks fatal S x₁ x₂) (hf : ∀ a, Tracks fatal S (f₁ a) (f₂ a)) :
    Tracks fatal S (x₁ >>= f₁) (x₂ >>= f₂) := by
  intro r b r' h
  obtain ⟨a, r₁, hx₁, hf₁⟩ := Fallible.bind_eq_ok h
  obtain ⟨got, hd, hx₂⟩ := hx r a r₁ hx₁
  obtain ⟨got', hd', hf₂⟩ := hf a r₁ b r' hf₁
  refine ⟨got ++ got', hd.trans hd', fun rest => ?_⟩
  rw [List.append_assoc]
  apply (hx₂ (got' ++ rest)).bind
  rintro _ s ⟨rfl, hs⟩
  exact hf₂ rest s hs

omit [Read Unit Payload R] in
/-- A check tracks itself. -/
theorem Tracks.failIf (p : Bool) (e : ArchiveError) :
    Tracks (Q := Q) fatal S (Fallible.failIf p e) (Fallible.failIf p e) := by
  intro r b r' h
  obtain ⟨hp, rfl⟩ := Fallible.failIf_eq_ok h
  exact ⟨[], .refl _, fun rest => (Fallible.Triple.pass hp).imp (fun _ h => h)
    (fun _ _ h => ⟨rfl, h⟩) fun _ _ h => h⟩

omit [Read Unit Payload R] in
/-- A change that leaves the source alone. -/
theorem Tracks.modify {f₁ : CpioReader Q → CpioReader Q} {f₂ : CpioReader R → CpioReader R}
    (h₁ : ∀ r, (f₁ r).inner = r.inner) (h₂ : ∀ r, (f₂ r).inner = r.inner)
    (hf : ∀ r s, r.frame = s.frame → (f₁ r).frame = (f₂ s).frame) :
    Tracks fatal S (Fallible.modify f₁) (Fallible.modify f₂) := by
  intro r b r' h
  cases h
  refine ⟨[], by rw [h₁]; exact .refl _, fun rest => .modify fun s hs => ⟨rfl, ?_, ?_⟩⟩
  · exact (hf r s hs.1.symm).symm
  · rw [h₂]
    exact hs.2

omit [Read Unit Payload R] in
/-- What `readUpTo` read: all that was wanted, or what there was until the end. -/
theorem readUpTo_trace {n : Nat} {bs : List UInt8} {r r' : CpioReader Q}
    (h : readUpTo n r = (.ok bs, r')) : r'.frame = r.frame ∧ ∃ r₁, Delivers r.inner bs r₁ ∧
      (bs.length = n ∧ r₁ = r'.inner ∨ bs.length < n ∧ Ended () r₁ r'.inner) := by
  unfold readUpTo at h
  split at h
  · rename_i inner hfull
    cases h
    obtain ⟨got, r₁, hout, hd, hstop⟩ := readFull_trace hfull
    rw [List.nil_append] at hout
    rw [hout]
    exact ⟨rfl, r₁, hd, hstop⟩
  · cases h

/-- Reading so many bytes does the same on either source. -/
theorem tracks_readExact (hS : Steady fatal S) (n : Nat) (message : Text) :
    Tracks (Q := Q) fatal S (readExact n message) (readExact n message) := by
  intro r bs r' h
  simp only [readExact] at h
  obtain ⟨bs', r₁, hread, h'⟩ := Fallible.bind_eq_ok h
  obtain ⟨_, r₂, hcheck, h''⟩ := Fallible.bind_eq_ok h'
  obtain ⟨hlen, rfl⟩ := Fallible.failIf_eq_ok hcheck
  cases h''
  obtain ⟨hframe, r₃, hd, ⟨hgot, rfl⟩ | ⟨hgot, _⟩⟩ := readUpTo_trace hread
  · rw [hframe]
    exact ⟨bs, hd, fun rest => readExact_at hS hgot message⟩
  · -- a short read is refused
    rw [decide_eq_false_iff_not] at hlen
    exact absurd hgot hlen

omit [Read Unit Payload Q] [Read Unit Payload R] in
/-- A number that is read is that of its field. -/
theorem number_eq_ok [Unicode] {R : Type} {raw : List UInt8} {radix n : Nat} {what : Text}
    {r r' : CpioReader R} (h : number raw radix what r = (.ok n, r')) :
    field raw radix what = .ok n ∧ r' = r := by
  unfold number at h
  cases hfield : field raw radix what with
  | error e => rw [hfield] at h; cases h
  | ok m =>
    rw [hfield] at h
    cases h
    exact ⟨rfl, rfl⟩

omit [Read Unit Payload R] in
/-- A number does the same on either source. -/
theorem tracks_number [Unicode] (raw : List UInt8) (radix : Nat) (what : Text) :
    Tracks (Q := Q) fatal S (number raw radix what) (number raw radix what) := by
  intro r n r' h
  obtain ⟨hfield, rfl⟩ := number_eq_ok h
  refine ⟨[], .refl _, fun rest => ?_⟩
  simp only [number, hfield]
  exact .pure fun _ hs => ⟨rfl, hs⟩

/-- Skipping does the same on either source. -/
private theorem tracks_skip (hS : Steady fatal S) : Tracks (Q := Q) fatal S skip skip := by
  intro r u r' h
  unfold skip at h
  split at h
  · rename_i h0
    cases h
    refine ⟨[], .refl _, fun rest => ?_⟩
    have hskip : Fallible.Triple (At S r.frame ([] ++ rest)) skip
        (fun _ q => At S { r.frame with left := 0, pad := 0 } rest q) (Broke fatal) :=
      skip_at hS h0.symm
    refine hskip.imp (fun _ hs => hs) (fun _ s hs => ⟨rfl, ?_, hs.2⟩) fun _ _ h => h
    rw [hs.1]
    have hl : r.left = 0 := by omega
    have hp : r.pad = 0 := by omega
    simp [frame, hl, hp]
  · split at h
    · cases h
    · rename_i skipped inner hcopy
      split at h
      · cases h
      · rename_i hlen
        cases h
        obtain ⟨got, r₁, hout, hd, hstop⟩ := copyTake_trace hcopy
        rw [List.nil_append] at hout
        subst hout
        rcases hstop with ⟨hgot, rfl⟩ | ⟨hgot, _⟩
        · exact ⟨_, hd, fun rest => (skip_at hS hgot).imp (fun _ hs => hs)
            (fun _ _ hs => ⟨rfl, hs⟩) fun _ _ h => h⟩
        · exact absurd hgot hlen

/-- A header does the same on either source. -/
private theorem tracks_header [Unicode] (hS : Steady fatal S) (magic : List UInt8) :
    Tracks (Q := Q) fatal S (header magic) (header magic) := by
  -- both formats read their fields the same way
  have hnewc (newc : Bool) : Tracks (Q := Q) fatal S (Fallible.modify ({ · with newc }))
      (Fallible.modify ({ · with newc })) := by
    refine .modify (fun _ => rfl) (fun _ => rfl) fun r s hrs => ?_
    show ({ r.frame with newc } : CpioReader Unit) = { s.frame with newc }
    rw [hrs]
  unfold header
  split
  · refine (tracks_readExact hS _ _).bind fun h => (hnewc _).bind fun _ => ?_
    refine (tracks_number _ _ _).bind fun mode => (tracks_number _ _ _).bind fun namesize => ?_
    exact (tracks_number _ _ _).bind fun size => .pure _
  · split
    · refine (tracks_readExact hS _ _).bind fun h => (hnewc _).bind fun _ => ?_
      refine (tracks_number _ _ _).bind fun mode => (tracks_number _ _ _).bind fun namesize => ?_
      exact (tracks_number _ _ _).bind fun size => .pure _
    · intro r a r' h
      cases h

/-- The padding after a header does the same on either source. -/
private theorem tracks_headerPad (hS : Steady fatal S) (namesize : Nat) :
    Tracks (Q := Q) fatal S (headerPad namesize) (headerPad namesize) := by
  intro r u r' h
  unfold headerPad at h
  split at h
  · rename_i hnewc
    have hpad := (tracks_readExact (Q := Q) hS (padding (110 + namesize))
      "truncated cpio header").bind fun _ => .pure ()
    obtain ⟨got, hd, ht⟩ := hpad r u r' h
    refine ⟨got, hd, fun rest s hs => ?_⟩
    have hs' : s.newc = true := (congrArg CpioReader.newc hs.1).trans hnewc
    rw [headerPad, if_pos hs']
    exact ht rest s hs
  · rename_i hnewc
    cases h
    refine ⟨[], .refl _, fun rest s hs => ?_⟩
    have hs' : ¬ s.newc = true := by
      rw [show s.newc = r.newc from congrArg CpioReader.newc hs.1]
      exact hnewc
    rw [headerPad, if_neg hs']
    exact ⟨rfl, hs⟩

omit [Read Unit Payload R] in
/-- An entry that is found is the same on either source. -/
private theorem tracks_found (path : Text) (mode size : Nat) :
    Tracks (Q := Q) fatal S (found path mode size) (found path mode size) := by
  intro r e r' h
  unfold found at h
  split at h
  · rename_i hpath
    cases h
    refine ⟨[], .refl _, fun rest s hs => ?_⟩
    rw [found, if_pos hpath]
    refine ⟨rfl, ?_, hs.2⟩
    show ({ s.frame with done := true } : CpioReader Unit) = { r.frame with done := true }
    rw [hs.1]
  · rename_i hpath
    cases h
    refine ⟨[], .refl _, fun rest s hs => ?_⟩
    rw [found, if_neg hpath]
    refine ⟨rfl, ?_, hs.2⟩
    have hnewc : s.newc = r.newc := congrArg CpioReader.newc hs.1
    show ({ s.frame with left := size, pad := if s.newc then padding size else 0 } :
      CpioReader Unit) = { r.frame with left := size, pad := if r.newc then padding size else 0 }
    rw [hs.1, hnewc]

/-- A member does the same on either source. -/
private theorem tracks_member (hS : Steady fatal S) (mode namesize size : Nat) :
    Tracks (Q := Q) fatal S (member mode namesize size) (member mode namesize size) :=
  (Tracks.failIf _ _).bind fun _ => (tracks_readExact hS _ _).bind fun _ =>
    (Tracks.failIf _ _).bind fun _ => (tracks_headerPad hS _).bind fun _ => tracks_found _ _ _

/-- What is left to do once the magic has been read. -/
def afterMagic [Unicode] {R : Type} [Read Unit Payload R] (magic : List UInt8) :
    Step R (Option CpioEntry) := do
  Fallible.modify fun r => if r.started then r else { r with magic, started := true }
  Fallible.failIf (magic.length < 6) (.invalid "truncated cpio header")
  let (mode, namesize, size) ← header magic
  member mode namesize size

/-- All after the magic does the same on either source. -/
private theorem tracks_afterMagic [Unicode] (hS : Steady fatal S) (magic : List UInt8) :
    Tracks (Q := Q) fatal S (afterMagic magic) (afterMagic magic) := by
  refine Tracks.bind (.modify ?_ ?_ ?_) fun _ => (Tracks.failIf _ _).bind fun _ =>
    (tracks_header hS magic).bind fun fields => tracks_member hS _ _ _
  · intro r
    split <;> rfl
  · intro r
    split <;> rfl
  · intro r s hrs
    have hstarted : r.started = s.started := congrArg CpioReader.started hrs
    cases hr : r.started
    · rw [hr] at hstarted
      rw [← hstarted]
      show ({ r.frame with magic, started := true } : CpioReader Unit) =
        { s.frame with magic, started := true }
      rw [hrs]
    · rw [hr] at hstarted
      rw [← hstarted]
      exact hrs

omit [Read Unit Payload R] in
/-- A magic that is read is of six bytes. -/
private theorem afterMagic_eq_ok [Unicode] {magic : List UInt8} {entry : Option CpioEntry}
    {r r' : CpioReader Q} (h : afterMagic magic r = (.ok entry, r')) : 6 ≤ magic.length := by
  obtain ⟨_, r₁, _, h₁⟩ := Fallible.bind_eq_ok h
  obtain ⟨_, r₂, hcheck, _⟩ := Fallible.bind_eq_ok h₁
  simpa using (Fallible.failIf_eq_ok hcheck).1

/-- **The next member is in the bytes.**  Where the first reader finds a member or the trailer,
    so does the second; a member's header is not empty.  Else the archive has no bytes. -/
theorem nextEntry_tracks [Unicode] (hS : Steady fatal S) {r r' : CpioReader Q}
    {entry : Option CpioEntry} (h : nextEntry r = (.ok entry, r')) :
    (∃ got, Delivers r.inner got r'.inner ∧ (entry.isSome → got ≠ []) ∧
      ∀ rest, Fallible.Triple (At S r.frame (got ++ rest)) nextEntry
        (fun b s => b = entry ∧ At S r'.frame rest s) (Broke fatal)) ∨
    entry = none ∧ r.done = false ∧ r.started = false ∧
      ∃ skipped r₁, Delivers r.inner skipped r₁ ∧ Ended () r₁ r'.inner := by
  simp only [nextEntry] at h
  rw [Fallible.bind_of_ok (Fallible.get_apply r)] at h
  split at h
  · rename_i hdone
    cases h
    refine .inl ⟨[], .refl _, by simp, fun rest s hs => ?_⟩
    have hs' : s.done = true := (congrArg CpioReader.done hs.1).trans hdone
    rw [nextEntry, Fallible.bind_of_ok (Fallible.get_apply s), if_pos hs']
    exact ⟨rfl, hs⟩
  · rename_i hdone
    obtain ⟨_, r₁, hskip, h₁⟩ := Fallible.bind_eq_ok h
    obtain ⟨magic, r₂, hmagic, h₂⟩ := Fallible.bind_eq_ok h₁
    obtain ⟨skipped, hd₁, hskip₂⟩ := tracks_skip hS r _ r₁ hskip
    obtain ⟨hframe, r₃, hd₂, hstop⟩ := readUpTo_trace hmagic
    split at h₂
    · -- no bytes at all
      rename_i hempty
      cases h₂
      refine .inr ⟨rfl, by simpa using hdone, hempty.2, skipped ++ magic, r₃, hd₁.trans hd₂, ?_⟩
      rcases hstop with ⟨hlen, _⟩ | ⟨_, hend⟩
      · rw [hempty.1] at hlen
        cases hlen
      · exact hend
    · rename_i hsome
      have hlong := afterMagic_eq_ok h₂
      obtain ⟨hlen, rfl⟩ : magic.length = 6 ∧ r₃ = r₂.inner := by
        rcases hstop with hfull | ⟨hlen, _⟩
        · exact hfull
        · omega
      obtain ⟨got, hd₃, hafter⟩ := tracks_afterMagic hS magic r₂ entry r' h₂
      refine .inl ⟨skipped ++ (magic ++ got), hd₁.trans (hd₂.trans hd₃), ?_, fun rest s hs => ?_⟩
      · intro _ hnil
        simp only [List.append_eq_nil_iff] at hnil
        rw [hnil.2.1] at hlong
        exact absurd hlong (by decide)
      · have hdone₂ : s.done = r.done := congrArg CpioReader.done hs.1
        have hstarted₂ : s.started = r.started := congrArg CpioReader.started hs.1
        simp only [nextEntry]
        rw [Fallible.bind_of_ok (Fallible.get_apply s), hdone₂, if_neg hdone]
        rw [List.append_assoc, List.append_assoc] at hs
        refine ((hskip₂ (magic ++ (got ++ rest))).bind fun _ => ?_) s hs
        rintro s₁ ⟨-, hs₁⟩
        refine ((readUpTo_at hS 6).bind fun magic₂ => ?_) s₁ hs₁
        rw [List.take_left' hlen, List.drop_left' hlen]
        rintro s₂ ⟨rfl, hs₂⟩
        rw [hstarted₂, if_neg hsome]
        rw [← hframe] at hs₂
        exact hafter rest s₂ hs₂

end Tracks

/-- **Members cost bytes.** -/
theorem size_nextEntry_lt [Unicode] {R : Type} [FiniteRead Unit Payload R] {r r' : CpioReader R}
    {entry : CpioEntry} (h : nextEntry r = (.ok (some entry), r')) :
    FiniteRead.size r'.inner < FiniteRead.size r.inner := by
  -- any steady source will do for the comparison
  rcases nextEntry_tracks steady_cursor h with ⟨got, hd, hne, _⟩ | ⟨hnone, _⟩
  · exact hd.size_lt (hne rfl)
  · cases hnone

end CpioReader

end Omdrop.Proto
