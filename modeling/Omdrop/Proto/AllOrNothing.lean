import Omdrop.Proto.Extract

namespace Omdrop.Proto

open Omdrop.Stream Omdrop.Text

/-!
# All or nothing

Whatever becomes of an upload, the directory is left with all of its files or with none: every
step of `extract` keeps `Holding` for the files it has in hand, and every way out of it gives
back what it does not keep (`extract_allOrNothing`).
-/

variable {d₀ : Dest} {files paths : List FileName}

/-- Keeps what is held, whatever comes of it. -/
abbrev Dest.Keeps {α : Type} (d₀ : Dest) (files paths : List FileName) (x : Dest.Step α) : Prop :=
  Fallible.Triple (Holding d₀ files paths) x (fun _ => Holding d₀ files paths)
    fun _ => Holding d₀ files paths

/-- Only the order of the files has changed. -/
theorem Holding.perm_both {d : Dest} {files' paths' : List FileName}
    (h : Holding d₀ files paths d) (hfiles : files.Perm files') (hpaths : paths.Perm paths') :
    Holding d₀ files' paths' d := by
  obtain ⟨made, hcreated, habsent, hmade, honly, hsame⟩ := h.registry
  refine ⟨h.entries.perm hfiles, made, hcreated, habsent, ?_, ?_, hsame⟩
  · intro p hp
    exact hmade p (hpaths.mem_iff.mpr hp)
  · intro p hp hreg
    exact hpaths.mem_iff.mp (honly p hp hreg)

/-! ### Writing -/

private theorem keeps_failIf (p : Bool) (e : ArchiveError) :
    Dest.Keeps d₀ files paths (Fallible.failIf p e) := by
  intro d hd
  rw [Fallible.failIf_apply]
  split <;> exact hd

private theorem keeps_checkDisk (faults : Faults) (label : Text) (minFree untilCheck n : Nat) :
    Dest.Keeps d₀ files paths (checkDisk faults label minFree untilCheck n) := by
  unfold checkDisk
  split
  · have hfree : Dest.Keeps d₀ files paths (Dest.freeBytes faults) := by
      intro d hd
      have hd' : Holding d₀ files paths (Dest.freeBytes faults d).2 := hd.freeBytes
      rcases hr : Dest.freeBytes faults d with ⟨_ | _, d'⟩ <;> (rw [hr] at hd'; exact hd')
    exact hfree.bind fun free => (keeps_failIf _ _).bind fun _ => .pure fun _ h => h
  · exact .pure fun _ h => h

theorem keeps_writePiece (faults : Faults) (label : Text) (minFree : Nat) {path : FileName}
    (hp : path ∈ files) (untilCheck : Nat) (piece : List UInt8) :
    Dest.Keeps d₀ files paths (writePiece faults label minFree path untilCheck piece) := by
  refine (keeps_checkDisk _ _ _ _ _).bind fun untilCheck => ?_
  refine Fallible.Triple.bind (Q := fun _ => Holding d₀ files paths) ?_ fun _ => .pure fun _ h => h
  intro d hd
  have hd' : Holding d₀ files paths (Dest.write faults path piece d).2 := hd.write hp
  rcases hr : Dest.write faults path piece d with ⟨_ | _, d'⟩ <;> (rw [hr] at hd'; exact hd')

section Members

variable {F : Flate2} {R : Type} [FiniteRead Bool Payload R] {faults : Faults}
  {limits : ExtractLimits}

theorem Holding.writeMember {label : Text} {path : FileName} {untilCheck : Nat}
    {s : Extraction F R} (hp : path ∈ files) (h : Holding d₀ files paths s.dest) :
    Holding d₀ files paths (writeMember faults limits label path untilCheck s).2.dest := by
  fun_induction Proto.writeMember faults limits label path untilCheck s with
  | case1 => exact h
  | case2 => exact h
  | case3 _ s _ _ _ _ _ _ hw => exact (keeps_writePiece _ _ _ hp _ _).of_error h hw
  | case4 _ s _ _ _ _ _ _ hw ih => exact ih ((keeps_writePiece _ _ _ hp _ _).of_ok h hw)

/-- A member's file is held once it is written, and not when writing it failed. -/
theorem Holding.storeMember [Unicode] {member : Text} {s s' : Extraction F R}
    {res : Except ArchiveError Partial} (h : Holding d₀ files paths s.dest)
    (hs : storeMember faults limits member s = (res, s')) :
    (∃ e, res = .error e ∧ Holding d₀ files paths s'.dest) ∨
    ∃ p, res = .ok p ∧ p.name = safeName member "file" ∧
      Holding d₀ (p.path :: files) (p.path :: paths) s'.dest := by
  simp only [Proto.storeMember] at hs
  split at hs
  · rename_i e dest hc
    cases hs
    exact .inl ⟨e, rfl, h.create_error hc⟩
  · rename_i path dest hc
    have hadd : Holding d₀ (path :: files) (path :: paths) (dest.add path) :=
      (h.create hc).add List.mem_cons_self
    have hw : Holding d₀ (path :: files) (path :: paths) (Proto.writeMember faults limits
        ("file ".toList ++ pyRepr (safeName member "file")) path 0
        { s with dest := dest.add path }).2.dest :=
      Holding.writeMember List.mem_cons_self hadd
    split at hs
    · rename_i e s₁ hr
      cases hs
      rw [hr] at hw
      exact .inl ⟨e, rfl, hw.forget.unlink⟩
    · rename_i s₁ hr
      cases hs
      rw [hr] at hw
      exact .inr ⟨⟨safeName member "file", path⟩, rfl, rfl, hw⟩

/-- Partial files that are dropped are no longer held. -/
theorem Holding.dropAll {pending : List Partial} {d : Dest}
    (h : Holding d₀ (pending.map Partial.path ++ files) (pending.map Partial.path ++ paths) d) :
    Holding d₀ files paths (dropAll pending d) := by
  induction pending generalizing d with
  | nil => exact h
  | cons p pending ih => exact ih h.unlink.forget

/-- The files of the members are held when all are written, and none when one fails. -/
theorem Holding.storeMembers [Unicode] {members outputBytes : Nat} {pending : List Partial}
    {s s' : Extraction F R} {res : Except ArchiveError (List Partial)}
    (h : Holding d₀ (pending.map Partial.path) (pending.map Partial.path) s.dest)
    (hs : storeMembers faults limits members outputBytes pending s = (res, s')) :
    (∃ e, res = .error e ∧ Holding d₀ [] [] s'.dest) ∨
    ∃ pending', res = .ok pending' ∧
      Holding d₀ (pending'.map Partial.path) (pending'.map Partial.path) s'.dest := by
  -- what is pending is dropped on every way out
  have hdrop {pending : List Partial} {d : Dest}
      (h : Holding d₀ (pending.map Partial.path) (pending.map Partial.path) d) :
      Holding d₀ [] [] (Proto.dropAll pending d) := by
    apply Holding.dropAll
    rwa [List.append_nil]
  fun_induction Proto.storeMembers faults limits members outputBytes pending s with
  | case1 _ _ _ s e =>
    -- the archive is broken
    cases hs
    exact .inl ⟨e, rfl, hdrop h⟩
  | case2 _ _ pending s =>
    -- the archive ends
    cases hs
    exact .inr ⟨pending, rfl, h⟩
  | case3 _ _ _ s _ _ _ e =>
    -- a ceiling refuses the member
    cases hs
    exact .inl ⟨e, rfl, hdrop h⟩
  | case4 _ _ _ _ _ _ _ _ ih => exact ih h hs
  | case5 _ _ _ s _ cpio _ _ e s₁ hstore =>
    -- the member cannot be stored
    cases hs
    rcases h.storeMember (s := ⟨cpio, s.dest⟩) hstore with ⟨e', he, h'⟩ | ⟨p, he, _⟩
    · exact .inl ⟨e, rfl, hdrop h'⟩
    · cases he
  | case6 _ _ pending s _ cpio _ _ p s₁ hstore ih =>
    -- the member is stored, and the next one follows
    rcases h.storeMember (s := ⟨cpio, s.dest⟩) hstore with ⟨e, he, _⟩ | ⟨p', he, _, h'⟩
    · cases he
    · cases he
      have hperm : (p.path :: pending.map Partial.path).Perm ((pending ++ [p]).map Partial.path) := by
        rw [List.map_append]
        exact (List.perm_append_singleton _ _).symm
      exact ih (h'.perm_both hperm hperm) hs

end Members

/-! ### Placing -/

/-- A file that is tried under some names is placed under one of them, or stays where it is. -/
theorem Holding.placeFirst {faults : Faults} {path : FileName} {candidates : List Text}
    {d d' : Dest} {res : Except IoErr (Option Text)} (h : Holding d₀ (path :: files) paths d)
    (hp : placeFirst faults path candidates d = (res, d')) :
    (∃ name ∈ candidates, res = .ok (some name) ∧ Holding d₀ (utf8 name :: files) paths d') ∨
    (res = .ok none ∨ ∃ e, res = .error e) ∧ Holding d₀ (path :: files) paths d' := by
  fun_induction Proto.placeFirst faults path candidates d with
  | case1 d =>
    -- no candidate is left
    cases hp
    exact .inr ⟨.inl rfl, h⟩
  | case2 candidate candidates d d₁ hr =>
    -- the name is free
    cases hp
    exact .inl ⟨candidate, List.mem_cons_self, rfl, h.persistNoclobber hr⟩
  | case3 candidate candidates d e d₁ hr _ ih =>
    -- the name is taken, so the next one is tried
    refine (ih (h.persistNoclobber_error hr) hp).imp_left ?_
    rintro ⟨name, hname, hrest⟩
    exact ⟨name, List.mem_cons_of_mem _ hname, hrest⟩
  | case4 candidate candidates d e d₁ hr _ =>
    -- any other failure ends it
    cases hp
    exact .inr ⟨.inr ⟨e, rfl⟩, h.persistNoclobber_error hr⟩

/-- Placing partial files leaves those it has stored and no other. -/
theorem Holding.placeAll {faults : Faults} {pending : List Partial} {stored stored' : List Text}
    {d d' : Dest} {res : Except IoErr Unit}
    (h : Holding d₀ (pending.map Partial.path ++ stored.map utf8) (pending.map Partial.path) d)
    (hp : placeAll faults stored pending d = (res, stored', d')) :
    Holding d₀ (stored'.map utf8) [] d' := by
  fun_induction Proto.placeAll faults stored pending d with
  | case1 =>
    -- all are placed
    cases hp
    exact h
  | case2 stored p pending d e d₁ hr =>
    -- the failure of a link ends it
    cases hp
    rcases h.placeFirst hr with ⟨_, _, he, _⟩ | ⟨_, h'⟩
    · cases he
    · apply Holding.dropAll
      rw [List.append_nil]
      exact h'.unlink.forget
  | case3 stored p pending d d₁ hr =>
    -- every name is taken
    cases hp
    rcases h.placeFirst hr with ⟨_, _, he, _⟩ | ⟨_, h'⟩
    · cases he
    · apply Holding.dropAll
      rw [List.append_nil]
      exact h'.forget.unlink
  | case4 stored p pending d candidate d₁ hr ih =>
    -- the file has its name, and the next one follows
    rcases h.placeFirst hr with ⟨name, _, he, h'⟩ | ⟨he | ⟨_, he⟩, _⟩
    · cases he
      apply ih _ hp
      refine h'.forget.perm ?_
      -- the new name goes from the front to the end of the stored ones
      rw [List.map_append, ← List.append_assoc]
      exact (List.perm_append_singleton _ _).symm
    · cases he
    · cases he

/-- What is rolled back is no longer held. -/
theorem Holding.rollBack {stored : List Text} {d : Dest}
    (h : Holding d₀ (stored.map utf8) paths d) : Holding d₀ [] paths (rollBack stored d) := by
  have hfold (names : List Text) {d : Dest} (h : Holding d₀ (names.map utf8) paths d) :
      Holding d₀ [] paths (names.foldl (fun d name => d.unlink (utf8 name)) d) := by
    induction names generalizing d with
    | nil => exact h
    | cons name names ih => exact ih h.unlink
  apply hfold
  rw [List.map_reverse]
  exact h.perm (List.reverse_perm _).symm

/-! ### The upload -/

/-- No entry of the upload is left in the registry, and every other one is. -/
def Cleared (d₀ d : Dest) : Prop :=
  ∃ made, d.created = made ++ d₀.created ∧ (∀ p ∈ made, d₀.entries p = none) ∧
    d.partials = d₀.partials.filter (· ∉ made)

theorem Holding.cleared {d : Dest} (h : Holding d₀ files [] d) : Cleared d₀ d := by
  obtain ⟨made, hcreated, habsent, _, honly, hsame⟩ := h.registry
  refine ⟨made, hcreated, habsent, ?_⟩
  rw [← hsame]
  refine (List.filter_eq_self.mpr fun p hp => ?_).symm
  by_contra hmade
  exact List.not_mem_nil (honly p (by simpa using hmade) hp)

/-- What an upload may leave: nothing when it failed, and when it succeeded exactly one new
    file for every name it answers. -/
def AllOrNothing {β : Type} (d₀ : Dest) : Except ArchiveError (Extracted × β) × Dest → Prop
  | (.error _, d)   => d.entries = d₀.entries ∧ Cleared d₀ d
  | (.ok (x, _), d) =>
    Additions (fun e => Entry.isFile e = true) d₀.entries (x.names.map utf8) d.entries ∧
      Cleared d₀ d

/-- **All or nothing.**  An upload that fails, wherever it does, leaves the directory and the
    registry as they were; one that succeeds adds exactly its files. -/
theorem extract_allOrNothing {R : Type} [FiniteRead Bool Payload R] [Unicode] (F : Flate2)
    (faults : Faults) (limits : ExtractLimits) (progress : ExtractProgress) (body : R)
    (dest : Dest) : AllOrNothing dest (extract faults limits F progress body dest) := by
  have hfailed {d : Dest} (h : Holding dest [] [] d) : d.entries = dest.entries ∧ Cleared dest d :=
    ⟨h.entries_eq, h.cleared⟩
  unfold extract
  split
  · exact hfailed (.refl dest)
  · rename_i decoder hnew
    rcases hs : storeMembers faults limits 0 0 [] ⟨.new ⟨decoder, 0, limits.byteLimit⟩, dest⟩ with
      ⟨res, s⟩
    rcases Holding.storeMembers (.refl dest) hs with ⟨e, rfl, h⟩ | ⟨pending, rfl, h⟩
    · exact hfailed h
    · dsimp only
      split
      · -- the body failed after the last member
        apply hfailed
        apply Holding.dropAll
        rwa [List.append_nil]
      · rename_i unterminated rest hfinish
        rcases hp : placeAll faults [] pending s.dest with ⟨placed, stored, d⟩
        have hplaced : Holding dest (stored.map utf8) [] d := by
          apply Holding.placeAll _ hp
          rwa [List.map_nil, List.append_nil]
        cases placed with
        | error e =>
          simp only [place, hp]
          exact hfailed hplaced.rollBack
        | ok _ =>
          simp only [place, hp]
          exact ⟨hplaced.entries, hplaced.cleared⟩

end Omdrop.Proto
