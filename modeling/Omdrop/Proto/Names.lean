import Omdrop.Text.Space
import Omdrop.Text.Unicode
import Omdrop.Text.Utf8
import Omdrop.Proto.Repr

namespace Omdrop.Proto

open Omdrop.Text

/-!
# Names of stored files

`safeName` makes one file name of whatever path a sender gives, and `candidateNames` lists the
names tried when it is taken.  Both give visible names of a single component
(`isSafe_safeName`, `isSafe_candidateName`).
-/

/-- The longest file name, in bytes. -/
def maxFileNameBytes : Nat := 255

/-- Path separators, NUL, controls, and the format characters a name could lie with. -/
def unsafeRanges : List (Nat × Nat) :=
  [(0x2f, 0x2f), (0x5c, 0x5c), (0, 0), (0x202a, 0x202e), (0x2066, 0x2069), (0x200b, 0x200f),
    (0xfeff, 0xfeff), (0x1, 0x1f), (0x7f, 0x9f)]

/-- A character no name may have. -/
def isUnsafeChar (c : Char) : Bool := inRanges unsafeRanges c

/-- The part of a path after its last separator. -/
def lastComponent (separator : Char → Bool) (path : Text) : Text :=
  path.rtakeWhile (! separator ·)

/-- A name's stem and its extension, which starts at the last dot with a non-dot before it. -/
def splitExt (name : Text) : Text × Text :=
  match name.reverse.idxOf? '.' with
  | none       => (name, [])
  | some after =>
    let dot := name.length - (after + 1)
    if (name.take dot).any (· ≠ '.') then (name.take dot, name.drop dot) else (name, [])

/-- The stem, cut until there is room for `extra` bytes after it. -/
def shorten (extra : Nat) (stem : Text) : Text :=
  if maxFileNameBytes < (utf8 stem).length + extra ∧ stem ≠ [] then shorten extra stem.dropLast
  else stem
termination_by stem.length
decreasing_by
  rename_i h
  have := List.length_pos_iff.mpr h.2
  rw [List.length_dropLast]
  omega

/-- What is left of a sender's text for a name: its last component in normal form, without
    unsafe characters, surrounding white space and leading dots. -/
def cleanedName [Unicode] (name : Text) : Text :=
  let last := lastComponent (fun c => c == '/' || c == '\\') name
  (trim ((Unicode.nfc last).filter (! isUnsafeChar ·))).dropWhile (· == '.')

/-- One visible file name from a sender's text, `fallback` when nothing is left of it. -/
def safeName [Unicode] (name fallback : Text) : Text :=
  let trimmed := cleanedName name
  let ext := (splitExt trimmed).2
  let stem := shorten (utf8 ext).length (splitExt trimmed).1
  if stem = [] then fallback
  else if maxFileNameBytes < (utf8 (stem ++ ext)).length ∨ (stem ++ ext).head? = some '.' then
    fallback
  else stem ++ ext

/-- The `i`-th name to try: the name itself, then `stem-1.ext`, `stem-2.ext`, ... -/
def candidateName (name : Text) (i : Nat) : Text :=
  if i = 0 then name else
  let suffix := '-' :: decimal i ++ (splitExt name).2
  shorten (utf8 suffix).length (splitExt name).1 ++ suffix

/-- How many names are tried. -/
@[irreducible] def maxCandidates : Nat := 10000

/-- The names to try. -/
def candidateNames (name : Text) : List Text := (List.range maxCandidates).map (candidateName name)

/-! ### What the names look like -/

/-- A visible name of a single component. -/
structure IsSafe (name : Text) : Prop where
  nonempty : name ≠ []
  visible : name.head? ≠ some '.'
  clean : ∀ c ∈ name, isUnsafeChar c = false

/-- The stem and the extension are the name. -/
theorem splitExt_append (name : Text) : (splitExt name).1 ++ (splitExt name).2 = name := by
  unfold splitExt
  split
  · exact List.append_nil name
  · dsimp only
    split
    · exact List.take_append_drop _ name
    · exact List.append_nil name

/-- The stem is the front of it. -/
theorem prefix_splitExt_fst (name : Text) : (splitExt name).1 <+: name :=
  ⟨_, splitExt_append name⟩

/-- The extension is the end of it. -/
theorem suffix_splitExt_snd (name : Text) : (splitExt name).2 <:+ name :=
  ⟨_, splitExt_append name⟩

/-- A shortened stem is the front of it. -/
theorem prefix_shorten (extra : Nat) (stem : Text) : shorten extra stem <+: stem := by
  fun_induction shorten extra stem with
  | case1 stem _ ih => exact ih.trans (List.dropLast_prefix stem)
  | case2 stem => exact List.prefix_refl stem

/-- A cleaned name holds no unsafe character. -/
private theorem clean_cleanedName [Unicode] {name : Text} {c : Char} (hc : c ∈ cleanedName name) :
    isUnsafeChar c = false := by
  have hc' := trim_subset _ ((List.dropWhile_suffix _).subset hc)
  simpa using (List.mem_filter.mp hc').2

/-- A safe name is safe. -/
theorem isSafe_safeName [Unicode] (name : Text) {fallback : Text} (h : IsSafe fallback) :
    IsSafe (safeName name fallback) := by
  simp only [safeName]
  split
  · exact h
  · rename_i hne
    split
    · exact h
    · rename_i hfits
      refine ⟨by simp [hne], fun hdot => hfits (.inr hdot), ?_⟩
      intro c hc
      -- the stem and the extension are parts of the cleaned name
      apply clean_cleanedName
      show c ∈ cleanedName name
      rcases List.mem_append.mp hc with hc | hc
      · exact (prefix_splitExt_fst _).subset ((prefix_shorten _ _).subset hc)
      · exact (suffix_splitExt_snd _).subset hc

/-- A digit may be part of a name. -/
private theorem isUnsafeChar_digitCode :
    ∀ d < 10, isUnsafeChar (Char.ofNat (digitCode d)) = false := by
  decide

/-- No digit is unsafe. -/
private theorem isUnsafeChar_decimal {n : Nat} {c : Char} (hc : c ∈ decimal n) :
    isUnsafeChar c = false := by
  obtain ⟨code, hcode, rfl⟩ := List.mem_map.mp hc
  obtain ⟨d, hd, rfl⟩ := digitVal_of_mem_numeral (by omega) (by omega) hcode
  exact isUnsafeChar_digitCode d hd

/-- Numbering a safe name leaves it safe. -/
private theorem isSafe_candidateName {name : Text} (h : IsSafe name) (i : Nat) :
    IsSafe (candidateName name i) := by
  unfold candidateName
  split
  · exact h
  · dsimp only
    generalize hstem : shorten _ (splitExt name).1 = stem
    have hfront : stem <+: name := by
      rw [← hstem]
      exact (prefix_shorten _ _).trans (prefix_splitExt_fst name)
    refine ⟨by simp, ?_, ?_⟩
    · cases stem with
      | nil => simp
      | cons c stem =>
        obtain ⟨rest, hrest⟩ := hfront
        have := h.visible
        rwa [← hrest] at this
    · intro c hc
      rcases List.mem_append.mp hc with hc | hc
      · exact h.clean c (hfront.subset hc)
      · rcases List.mem_append.mp hc with hc | hc
        · rcases List.mem_cons.mp hc with rfl | hc
          · decide
          · exact isUnsafeChar_decimal hc
        · exact h.clean c ((suffix_splitExt_snd name).subset hc)

/-- All candidates of a safe name are safe. -/
theorem isSafe_of_mem_candidateNames {name candidate : Text} (h : IsSafe name)
    (hc : candidate ∈ candidateNames name) : IsSafe candidate := by
  obtain ⟨i, _, rfl⟩ := List.mem_map.mp hc
  exact isSafe_candidateName h i

end Omdrop.Proto
