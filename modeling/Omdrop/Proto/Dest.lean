import Omdrop.Machine.Additions
import Omdrop.Machine.Fallible
import Omdrop.Text.Utf8
import Omdrop.Proto.Error

namespace Omdrop.Proto

open Omdrop.Stream Omdrop.Text

/-!
# The download directory

What an upload does to the directory it is stored in: files are created under hidden names,
written, and placed under their own, and the hidden names of uploads in progress are registered.
`Faults` is how the file system answers; `Holding` says what an upload has in the directory at
any time, and `Holding.entries_eq` that an upload that gave everything back left it as it was.
-/

/-- The start of the name of a file that is still being written. -/
def partialPrefix : Text := ".omdrop-partial-"

/-- Room that has to be there before a file is written, on top of what is to stay free, and how
    much is written before it is looked at again. -/
def diskCheckInterval : Nat := 16 * 1024 * 1024

/-- A file name, in bytes. -/
abbrev FileName := List UInt8

/-- What stands under a name. -/
inductive Entry
  | file (data : List UInt8)
  | directory
  | symlink
  | special
  deriving DecidableEq, Repr

/-- Is this a regular file? -/
def Entry.isFile : Entry → Bool
  | .file _ => true
  | _       => false

/-- A failure of the file system. -/
structure OsError where
  kind : ErrorKind
  text : String
  deriving DecidableEq, Repr

/-- A failure of the file system, as the readers report theirs. -/
def OsError.toIo (e : OsError) : IoErr := .os e.kind e.text

/-- How the file system answers its `k`-th call: what the name of a new file ends in, how much
    of a write is done before it fails, how much is free, whether a file can be placed. -/
structure Faults where
  create : Nat → Except OsError Text
  write : Nat → Option (Nat × OsError)
  free : Nat → Except OsError Nat
  place : Nat → Option OsError

/-- A file system that never fails. -/
def Faults.none (suffix : Nat → Text) (free : Nat) : Faults :=
  ⟨fun k => .ok (suffix k), fun _ => .none, fun _ => .ok free, fun _ => .none⟩

/-- The directory, the registry of the files in progress, the names of all files that were
    created, and the number of calls so far. -/
structure Dest where
  entries : FileName → Option Entry
  partials : List FileName
  created : List FileName
  calls : Nat

namespace Dest

/-- Changes of the directory, which fail with an archive's refusal. -/
abbrev Step (α : Type) := Fallible ArchiveError Dest α

/-- Count a call. -/
def called (d : Dest) : Dest := { d with calls := d.calls + 1 }

/-- Put something under a name, or nothing. -/
def put (name : FileName) (e : Option Entry) (d : Dest) : Dest :=
  { d with entries := Function.update d.entries name e }

/-- Remove a file. -/
def unlink (name : FileName) : Dest → Dest := put name none

/-- A new file with a hidden name. -/
def create (faults : Faults) : Step FileName := fun d =>
  match faults.create d.calls with
  | .error e   => (.error (.io e.toIo), d.called)
  | .ok suffix =>
    let name := utf8 (partialPrefix ++ suffix)
    match d.entries name with
    | some _ => (.error (.io (.os .alreadyExists "too many temporary files exist")), d.called)
    | none   => (.ok name, { d.called.put name (some (.file [])) with created := name :: d.created })

/-- Register a file in progress. -/
def add (path : FileName) (d : Dest) : Dest := { d with partials := d.partials ++ [path] }

/-- Take a file off the registry. -/
def forget (path : FileName) (d : Dest) : Dest := { d with partials := d.partials.filter (· ≠ path) }

/-- What is in a file. -/
def contents (path : FileName) (d : Dest) : List UInt8 :=
  match d.entries path with
  | some (.file data) => data
  | _                 => []

/-- Write all of `bs` to the end of a file. -/
def write (faults : Faults) (path : FileName) (bs : List UInt8) : Step Unit := fun d =>
  match faults.write d.calls with
  | none        => (.ok (), d.called.put path (some (.file (d.contents path ++ bs))))
  | some (k, e) =>
    (.error (.io e.toIo), d.called.put path (some (.file (d.contents path ++ bs.take k))))

/-- How much is free. -/
def freeBytes (faults : Faults) : Step Nat := fun d =>
  match faults.free d.calls with
  | .error e => (.error (.io e.toIo), d.called)
  | .ok n    => (.ok n, d.called)

/-- Give a file another name, unless something stands there. -/
def persistNoclobber (faults : Faults) (path name : FileName) (d : Dest) :
    Except IoErr Unit × Dest :=
  match faults.place d.calls with
  | some e => (.error e.toIo, d.called)
  | none   =>
    match d.entries name with
    | some _ => (.error (.os .alreadyExists "File exists"), d.called)
    | none   => (.ok (), (d.called.unlink path).put name (d.entries path))

@[simp] theorem entries_called (d : Dest) : d.called.entries = d.entries := rfl
@[simp] theorem entries_add (path : FileName) (d : Dest) : (d.add path).entries = d.entries := rfl
@[simp] theorem entries_forget (path : FileName) (d : Dest) :
    (d.forget path).entries = d.entries := rfl

end Dest

/-! ### What an upload holds -/

/-- Since `d₀` an upload has brought exactly the files `files` into the directory, and only the
    paths `paths` of those it created may be registered. -/
structure Holding (d₀ : Dest) (files paths : List FileName) (d : Dest) : Prop where
  entries : Additions (fun e => Entry.isFile e = true) d₀.entries files d.entries
  registry : ∃ made, d.created = made ++ d₀.created ∧ (∀ p ∈ made, d₀.entries p = none) ∧
    (∀ p ∈ paths, p ∈ made) ∧ (∀ p ∈ made, p ∈ d.partials → p ∈ paths) ∧
    d.partials.filter (· ∉ made) = d₀.partials.filter (· ∉ made)

namespace Holding

variable {d₀ d d' : Dest} {files files' paths : List FileName} {path name : FileName}

/-- At the start it holds nothing. -/
theorem refl (d : Dest) : Holding d [] [] d :=
  ⟨.refl _ _, [], by simp⟩

theorem perm (h : Holding d₀ files paths d) (hfiles : files.Perm files') :
    Holding d₀ files' paths d :=
  ⟨h.entries.perm hfiles, h.registry⟩

/-- Calls alone change nothing. -/
theorem called (h : Holding d₀ files paths d) : Holding d₀ files paths d.called :=
  ⟨h.entries, h.registry⟩

theorem create {faults : Faults} (h : Holding d₀ files paths d)
    (hc : Dest.create faults d = (.ok path, d')) : Holding d₀ (path :: files) (path :: paths) d' := by
  unfold Dest.create at hc
  split at hc
  · cases hc
  · dsimp only at hc
    split at hc
    · cases hc
    · rename_i suffix _ _ hfree
      cases hc
      obtain ⟨made, hcreated, habsent, hpaths, honly, hsame⟩ := h.registry
      refine ⟨h.entries.add hfree rfl, utf8 (partialPrefix ++ suffix) :: made, ?_, ?_, ?_, ?_, ?_⟩
      · rw [List.cons_append, ← hcreated]
      · exact List.forall_mem_cons.mpr ⟨h.entries.absent_of_free hfree, habsent⟩
      · intro p hp
        rcases List.mem_cons.mp hp with rfl | hp
        · exact List.mem_cons_self
        · exact List.mem_cons_of_mem _ (hpaths p hp)
      · intro p hp hreg
        rcases List.mem_cons.mp hp with rfl | hp
        · exact List.mem_cons_self
        · exact List.mem_cons_of_mem _ (honly p hp hreg)
      · -- the new path is left out on both sides
        simp only [List.mem_cons, not_or, Bool.decide_and, ← List.filter_filter]
        exact congrArg _ hsame

/-- A call that fails to create a file leaves none. -/
theorem create_error {faults : Faults} {e : ArchiveError} (h : Holding d₀ files paths d)
    (hc : Dest.create faults d = (.error e, d')) : Holding d₀ files paths d' := by
  unfold Dest.create at hc
  split at hc
  · cases hc
    exact h.called
  · dsimp only at hc
    split at hc
    · cases hc
      exact h.called
    · cases hc

/-- A file it created is registered. -/
theorem add (h : Holding d₀ files paths d) (hp : path ∈ paths) :
    Holding d₀ files paths (d.add path) := by
  obtain ⟨made, hcreated, habsent, hpaths, honly, hsame⟩ := h.registry
  refine ⟨h.entries, made, hcreated, habsent, hpaths, ?_, ?_⟩
  · intro p hpm hreg
    rcases List.mem_append.mp hreg with hreg | hreg
    · exact honly p hpm hreg
    · rw [List.mem_singleton.mp hreg]
      exact hp
  · rw [← hsame]
    simp [Dest.add, List.filter_append, hpaths path hp]

/-- A file it created is taken off the registry. -/
theorem forget (h : Holding d₀ files (path :: paths) d) :
    Holding d₀ files paths (d.forget path) := by
  obtain ⟨made, hcreated, habsent, hpaths, honly, hsame⟩ := h.registry
  refine ⟨h.entries, made, hcreated, habsent, fun p hp => hpaths p (List.mem_cons_of_mem _ hp),
    ?_, ?_⟩
  · intro p hpm hreg
    obtain ⟨hreg, hne⟩ := List.mem_filter.mp hreg
    exact List.mem_of_ne_of_mem (by simpa using hne) (honly p hpm hreg)
  · rw [← hsame]
    have hmade := hpaths path List.mem_cons_self
    simp only [Dest.forget, List.filter_filter]
    apply List.filter_congr
    intro p _
    by_cases hpp : p = path
    · simp [hpp, hmade]
    · simp [hpp]

/-- A file it holds is removed. -/
theorem unlink (h : Holding d₀ (path :: files) paths d) : Holding d₀ files paths (d.unlink path) :=
  ⟨h.entries.remove, h.registry⟩

/-- Whatever comes of a write, it changes the file that is written. -/
theorem write {faults : Faults} {bs : List UInt8} (h : Holding d₀ files paths d)
    (hp : path ∈ files) : Holding d₀ files paths (Dest.write faults path bs d).2 := by
  unfold Dest.write
  split
  · exact ⟨h.entries.set hp rfl, h.registry⟩
  · exact ⟨h.entries.set hp rfl, h.registry⟩

theorem freeBytes {faults : Faults} (h : Holding d₀ files paths d) :
    Holding d₀ files paths (Dest.freeBytes faults d).2 := by
  unfold Dest.freeBytes
  split
  · exact h.called
  · exact h.called

/-- A file that is placed goes by its new name only. -/
theorem persistNoclobber {faults : Faults} (h : Holding d₀ (path :: files) paths d)
    (hp : d.persistNoclobber faults path name = (.ok (), d')) :
    Holding d₀ (name :: files) paths d' := by
  unfold Dest.persistNoclobber at hp
  split at hp
  · cases hp
  · split at hp
    · cases hp
    · rename_i hfree
      cases hp
      exact ⟨h.entries.move hfree, h.registry⟩

/-- A file that is not placed stays where it was. -/
theorem persistNoclobber_error {faults : Faults} {e : IoErr} (h : Holding d₀ files paths d)
    (hp : d.persistNoclobber faults path name = (.error e, d')) : Holding d₀ files paths d' := by
  unfold Dest.persistNoclobber at hp
  split at hp
  · cases hp
    exact h.called
  · split at hp
    · cases hp
      exact h.called
    · cases hp

/-- **Everything given back.**  The directory is as it was. -/
theorem entries_eq (h : Holding d₀ [] paths d) : d.entries = d₀.entries := h.entries.eq

end Holding

end Omdrop.Proto
