import Omdrop.Proto.Names
import Omdrop.Proto.Dest

namespace Omdrop.Proto

open Omdrop.Text

/-!
# Names that fit

A directory takes names of at most `maxFileNameBytes` bytes.  `safeName` only gives such names,
with the extension of the sender's name intact (`safeName_sound`).  The names that are tried
when one is taken get a number before the extension: `candidates_usable` says exactly when all
of them still fit and no two of them are the same.
-/

/-- A name that a directory can hold and that lists its file. -/
structure IsFileName (name : Text) : Prop extends IsSafe name where
  fits : (utf8 name).length ≤ maxFileNameBytes

/-! ### The extension -/

/-- No dot, no extension. -/
theorem splitExt_of_not_mem {name : Text} (h : '.' ∉ name) : splitExt name = (name, []) := by
  have hnone : name.reverse.idxOf? '.' = none := by
    rw [List.idxOf?_eq_none_iff]
    simpa using h
  unfold splitExt
  rw [hnone]

/-- The extension starts at the last dot of a visible name. -/
theorem splitExt_append_dot {stem ext : Text} (hne : stem ≠ []) (hvis : stem.head? ≠ some '.')
    (hext : '.' ∉ ext) : splitExt (stem ++ '.' :: ext) = (stem, '.' :: ext) := by
  have hlast : (stem ++ '.' :: ext).reverse.idxOf? '.' = some ext.length := by
    rw [List.idxOf?, List.findIdx?_eq_some_iff_getElem]
    refine ⟨by simp, ?_, ?_⟩
    · simp
    · intro j hj
      have hlt : j < ext.reverse.length := by rwa [List.length_reverse]
      have hlong : j < (stem ++ '.' :: ext).reverse.length := by
        rw [List.length_reverse, List.length_append, List.length_cons]
        omega
      have hmem : ext.reverse[j] ∈ ext := by
        rw [← List.mem_reverse]
        exact List.getElem_mem _
      have hj' : (stem ++ '.' :: ext).reverse[j] = ext.reverse[j] := by
        simp [hj]
      rw [hj']
      simp only [beq_iff_eq]
      intro hdot
      exact hext (hdot ▸ hmem)
  have hdot : (stem ++ '.' :: ext).length - (ext.length + 1) = stem.length := by
    rw [List.length_append, List.length_cons]
    omega
  -- a visible stem has a character that is no dot: its first
  have hany : stem.any (· ≠ '.') = true := by
    cases stem with
    | nil => exact absurd rfl hne
    | cons c stem =>
      have hc : c ≠ '.' := fun hc => hvis (by rw [hc]; rfl)
      simp [hc]
  unfold splitExt
  rw [hlast]
  simp only [hdot, List.take_left', List.drop_left', hany, if_true]

/-- What a visible name may look like. -/
private theorem splitExt_cases {name : Text} (hvis : name.head? ≠ some '.') :
    ('.' ∉ name ∧ splitExt name = (name, [])) ∨
      ∃ stem ext, '.' ∉ ext ∧ name = stem ++ '.' :: ext ∧ splitExt name = (stem, '.' :: ext) := by
  by_cases hdot : '.' ∈ name
  · right
    obtain ⟨ext, stem, hrev, hext⟩ := List.eq_append_cons_of_mem (List.mem_reverse.mpr hdot)
    have hname : name = stem.reverse ++ '.' :: ext.reverse := by
      rw [← List.reverse_reverse name, hrev]
      simp
    have hne : stem.reverse ≠ [] := by
      intro hnil
      rw [hname, hnil] at hvis
      exact hvis rfl
    have hhead : stem.reverse.head? ≠ some '.' := by
      rw [hname, List.head?_append_of_ne_nil _ hne] at hvis
      exact hvis
    refine ⟨stem.reverse, ext.reverse, by simpa using hext, hname, ?_⟩
    rw [hname]
    exact splitExt_append_dot hne hhead (by simpa using hext)
  · exact .inl ⟨hdot, splitExt_of_not_mem hdot⟩

/-- Another stem without a dot of its own keeps the extension. -/
private theorem splitExt_of_stem {name stem infixed : Text} (hvis : name.head? ≠ some '.')
    (hstem : stem <+: (splitExt name).1) (hinf : '.' ∉ infixed) (hne : stem ++ infixed ≠ []) :
    splitExt (stem ++ infixed ++ (splitExt name).2) = (stem ++ infixed, (splitExt name).2) := by
  rcases splitExt_cases hvis with ⟨hdot, hsplit⟩ | ⟨front, ext, hext, hname, hsplit⟩
  · rw [hsplit] at hstem ⊢
    rw [List.append_nil]
    apply splitExt_of_not_mem
    intro hmem
    rcases List.mem_append.mp hmem with hmem | hmem
    · exact hdot (hstem.subset hmem)
    · exact hinf hmem
  · rw [hsplit] at hstem ⊢
    apply splitExt_append_dot hne _ hext
    -- the new stem starts as the old one, or as what is put in
    cases stem with
    | nil =>
      intro hhead
      exact hinf (List.mem_of_mem_head? hhead)
    | cons c stem =>
      obtain ⟨rest, hrest⟩ := hstem
      simp only at hrest
      rw [hname, ← hrest] at hvis
      exact hvis

/-! ### Shortening -/

/-- Either the room is made or nothing is left. -/
theorem fits_shorten (extra : Nat) (stem : Text) :
    (utf8 (shorten extra stem)).length + extra ≤ maxFileNameBytes ∨ shorten extra stem = [] := by
  fun_induction shorten extra stem with
  | case1 stem _ ih => exact ih
  | case2 stem h =>
    by_cases hne : stem = []
    · exact .inr hne
    · left
      by_contra hlong
      exact h ⟨by omega, hne⟩

/-- No more is taken away than has to be. -/
theorem prefix_shorten_of_fits {extra : Nat} {front stem : Text} (hfront : front <+: stem)
    (h : (utf8 front).length + extra ≤ maxFileNameBytes) : front <+: shorten extra stem := by
  fun_induction shorten extra stem with
  | case1 stem hlong ih =>
    apply ih
    -- the front is not all of a stem that is too long
    obtain ⟨rest, rfl⟩ := hfront
    have hrest : rest ≠ [] := by
      rintro rfl
      rw [List.append_nil] at hlong
      omega
    rw [List.dropLast_append_of_ne_nil hrest]
    exact List.prefix_append front _
  | case2 stem _ => exact hfront

/-! ### The name of a stored file -/

/-- What is visible does not start as a file in progress does. -/
theorem IsSafe.not_partial {name : Text} (h : IsSafe name) : ¬ partialPrefix <+: name := by
  rintro ⟨rest, hrest⟩
  exact h.visible (by rw [← hrest]; rfl)

private theorem visible_cleanedName [Unicode] (name : Text) :
    (cleanedName name).head? ≠ some '.' := by
  intro hhead
  have hdrop := List.head?_dropWhile_not (· == '.')
    (trim ((Unicode.nfc (lastComponent (fun c => c == '/' || c == '\\') name)).filter
      (! isUnsafeChar ·)))
  unfold cleanedName at hhead
  simp only at hhead
  rw [hhead] at hdrop
  simp at hdrop

/-- A name that is not the fallback is the cleaned one, its stem cut. -/
theorem safeName_cut [Unicode] (name fallback : Text) :
    safeName name fallback = fallback ∨
      (utf8 (safeName name fallback)).length ≤ maxFileNameBytes ∧
        ∃ stem removed ext, cleanedName name = stem ++ removed ++ ext ∧
          splitExt (cleanedName name) = (stem ++ removed, ext) ∧
          safeName name fallback = stem ++ ext ∧
          splitExt (safeName name fallback) = (stem, ext) := by
  have hvis := visible_cleanedName name
  have hsplit := splitExt_append (cleanedName name)
  obtain ⟨removed, hremoved⟩ := prefix_shorten (utf8 (splitExt (cleanedName name)).2).length
    (splitExt (cleanedName name)).1
  simp only [safeName]
  split_ifs with hnil hlong
  · exact .inl rfl
  · exact .inl rfl
  · right
    have hfits := not_or.mp hlong
    refine ⟨by omega, _, removed, (splitExt (cleanedName name)).2, ?_, ?_, rfl, ?_⟩
    · rw [hremoved]
      exact hsplit.symm
    · rw [hremoved]
    · have hstem := @splitExt_of_stem _ _ [] hvis ⟨removed, hremoved⟩ (by simp)
        (by simpa using hnil)
      rw [List.append_nil] at hstem
      exact hstem

/-- Controls are unsafe. -/
theorem not_control_of_clean {c : Char} (h : isUnsafeChar c = false) :
    0x20 ≤ c.toNat ∧ ¬ (0x7f ≤ c.toNat ∧ c.toNat ≤ 0x9f) := by
  simp only [isUnsafeChar, inRanges, unsafeRanges, List.any_cons, List.any_nil, Bool.or_false,
    Bool.or_eq_false_iff, Bool.and_eq_false_iff, decide_eq_false_iff_not] at h
  omega

/-- **Stored under a safe name.**  Whatever the sender calls a file, it is stored under the
    fallback, or under a name that fits and is the last part of the sender's path, cleaned, less
    some characters at the end of its stem.  Either way the name is visible, of a single
    component, and none that a file in progress has. -/
theorem safeName_sound [Unicode] (name : Text) {fallback : Text} (h : IsSafe fallback) :
    let out := safeName name fallback
    (out = fallback ∨
      (utf8 out).length ≤ maxFileNameBytes ∧
        ∃ stem removed ext, cleanedName name = stem ++ removed ++ ext ∧
          splitExt (cleanedName name) = (stem ++ removed, ext) ∧
          out = stem ++ ext ∧ splitExt out = (stem, ext)) ∧
      out ≠ [] ∧ out.head? ≠ some '.' ∧ ¬ partialPrefix <+: out ∧ out ≠ "." ∧ out ≠ ".." ∧
      ∀ c ∈ out, isUnsafeChar c = false ∧ c ≠ '/' ∧ c ≠ '\\' ∧
        0x20 ≤ c.toNat ∧ ¬ (0x7f ≤ c.toNat ∧ c.toNat ≤ 0x9f) := by
  intro out
  have hsafe : IsSafe out := isSafe_safeName name h
  refine ⟨?_, hsafe.nonempty, hsafe.visible, hsafe.not_partial, ?_, ?_, ?_⟩
  · exact safeName_cut name fallback
  · intro hout
    exact hsafe.visible (by rw [hout]; rfl)
  · intro hout
    exact hsafe.visible (by rw [hout]; rfl)
  · intro c hc
    have hclean := hsafe.clean c hc
    refine ⟨hclean, ?_, ?_, ?_⟩
    · rintro rfl
      exact absurd hclean (by decide)
    · rintro rfl
      exact absurd hclean (by decide)
    · exact not_control_of_clean hclean

/-- A hidden name from another directory. -/
theorem safeName_hidden :
    let out := @safeName Unicode.ascii "../.ssh/.omdrop-partial-a\tb.txt" "file"
    out = "omdrop-partial-ab.txt" ∧ out.head? ≠ some '.' ∧ ¬ partialPrefix <+: out := by
  intro out
  have hsound := @safeName_sound Unicode.ascii "../.ssh/.omdrop-partial-a\tb.txt" "file"
    ⟨by decide, by decide, by decide⟩
  exact ⟨by decide +kernel, hsound.2.2.1, hsound.2.2.2.1⟩

/-! ### The names that are tried -/

theorem isFileName_safeName [Unicode] (name : Text) {fallback : Text} (h : IsFileName fallback) :
    IsFileName (safeName name fallback) := by
  refine ⟨isSafe_safeName name h.toIsSafe, ?_⟩
  rcases safeName_cut name fallback with hout | hout
  · rw [hout]
    exact h.fits
  · exact hout.1

/-- What the number of a candidate adds before the extension. -/
def numbered (i : Nat) : Text := '-' :: decimal i

private theorem decimal_injective {i j : Nat} (h : decimal i = decimal j) : i = j := by
  have := congrArg ofDecimal h
  rw [ofDecimal_decimal, ofDecimal_decimal] at this
  exact Option.some.inj this

private theorem not_mem_decimal {n : Nat} {c : Char} (hc : c.isDigit = false) : c ∉ decimal n := by
  intro hmem
  rw [isDigit_of_mem_decimal hmem] at hc
  cases hc

/-- The number stands after the last dash. -/
private theorem numbered_inj {s t : Text} {i j : Nat} (h : s ++ numbered i = t ++ numbered j) :
    s = t ∧ i = j := by
  have hdash (k : Nat) (c : Char) (hc : c ∈ decimal k) : (! (c == '-')) = true := by
    have hne : c ≠ '-' := by
      rintro rfl
      exact not_mem_decimal rfl hc
    simpa using hne
  -- read from the end, both numbers are what comes before the first dash
  have hrev := congrArg List.reverse h
  simp only [numbered, List.reverse_append, List.reverse_cons, List.append_assoc,
    List.singleton_append] at hrev
  have htake (k : Nat) (u : Text) :
      ((decimal k).reverse ++ '-' :: u).takeWhile (fun c => ! (c == '-')) = (decimal k).reverse := by
    rw [List.takeWhile_append_of_pos fun c hc => hdash k c (List.mem_reverse.mp hc)]
    simp
  have hnum : (decimal i).reverse = (decimal j).reverse := by
    rw [← htake i s.reverse, hrev, htake]
  have hij : i = j := decimal_injective (List.reverse_injective hnum)
  subst hij
  exact ⟨List.append_cancel_right h, rfl⟩

theorem length_utf8_decimal (n : Nat) : (utf8 (decimal n)).length = (decimal n).length := by
  apply length_utf8_of_ascii
  intro c hc
  have hdigit : 48 ≤ c.toNat ∧ c.toNat ≤ 57 :=
    Char.isDigit_iff_toNat.mp (isDigit_of_mem_decimal hc)
  omega

/-- Candidates after the first are the shortened stem, the number and the extension. -/
theorem candidateName_eq (name : Text) {i : Nat} (hi : i ≠ 0) :
    candidateName name i =
      shorten (utf8 (numbered i ++ (splitExt name).2)).length (splitExt name).1 ++
        numbered i ++ (splitExt name).2 := by
  rw [candidateName, if_neg hi, List.append_assoc]
  rfl

theorem mem_candidateNames {name candidate : Text} :
    candidate ∈ candidateNames name ↔ ∃ i < 10000, candidateName name i = candidate := by
  unfold candidateNames
  rw [List.mem_map]
  simp only [List.mem_range, maxCandidates]

/-- A suffix that leaves room for itself leaves room for the name. -/
private theorem fits_candidateName {name : Text} (h : IsFileName name) {i : Nat}
    (hroom : (utf8 (numbered i ++ (splitExt name).2)).length ≤ maxFileNameBytes) :
    (utf8 (candidateName name i)).length ≤ maxFileNameBytes := by
  by_cases hi : i = 0
  · rw [hi]
    exact h.fits
  · rw [candidateName_eq name hi, List.append_assoc, utf8_append, List.length_append]
    rcases fits_shorten (utf8 (numbered i ++ (splitExt name).2)).length (splitExt name).1 with
      hfits | hnil
    · exact hfits
    · rw [hnil, utf8_nil]
      simpa using hroom

theorem suffix_candidateName (name : Text) (i : Nat) :
    (splitExt name).2 <:+ candidateName name i := by
  by_cases hi : i = 0
  · rw [hi]
    exact suffix_splitExt_snd name
  · rw [candidateName_eq name hi]
    exact List.suffix_append _ _

/-- Numbered candidates differ from each other. -/
private theorem candidateName_injective {name : Text} {i j : Nat} (hi : i ≠ 0) (hj : j ≠ 0)
    (h : candidateName name i = candidateName name j) : i = j := by
  rw [candidateName_eq name hi, candidateName_eq name hj] at h
  exact (numbered_inj (List.append_cancel_right h)).2

/-- **When a candidate is the name again.**  Only a name of the full length can come back, with
    the number its stem ends in. -/
theorem candidateName_eq_self_iff {name : Text} (h : IsFileName name) {i : Nat} (hi : i ≠ 0) :
    candidateName name i = name ↔
      (utf8 name).length = maxFileNameBytes ∧ numbered i <:+ (splitExt name).1 := by
  have hfits := h.fits
  have hname := splitExt_append name
  rw [candidateName_eq name hi]
  constructor
  · intro heq
    -- what was cut off makes room for the number
    have hstem : shorten (utf8 (numbered i ++ (splitExt name).2)).length (splitExt name).1 ++
        numbered i = (splitExt name).1 := by
      have hall := heq.trans hname.symm
      exact List.append_cancel_right hall
    refine ⟨?_, _, hstem⟩
    by_contra hshort
    -- with a byte to spare, the dash need not have been cut off as well
    have hkept := @prefix_shorten_of_fits (utf8 (numbered i ++ (splitExt name).2)).length
      (shorten (utf8 (numbered i ++ (splitExt name).2)).length (splitExt name).1 ++ ['-'])
      (splitExt name).1
      ⟨decimal i, by rw [List.append_assoc]; exact hstem⟩ (by
        have hlen := congrArg (fun t => (utf8 t).length) heq
        have hdash : (utf8 ['-']).length = 1 := by decide
        simp only [utf8_append, List.length_append, hdash] at hlen ⊢
        omega)
    have := hkept.length_le
    rw [List.length_append, List.length_singleton] at this
    omega
  · rintro ⟨hfull, front, hfront⟩
    have hsplit : front ++ (numbered i ++ (splitExt name).2) = name := by
      rw [← List.append_assoc, hfront, hname]
    have hlen := congrArg (fun t => (utf8 t).length) hsplit
    simp only [utf8_append, List.length_append, hfull] at hlen
    have hkept : shorten (utf8 (numbered i ++ (splitExt name).2)).length (splitExt name).1 =
        front := by
      -- the front fits, and nothing longer does
      obtain ⟨more, hmore⟩ := @prefix_shorten_of_fits
        (utf8 (numbered i ++ (splitExt name).2)).length front (splitExt name).1
        ⟨_, hfront⟩ (by simp only [utf8_append, List.length_append]; omega)
      rcases fits_shorten (utf8 (numbered i ++ (splitExt name).2)).length (splitExt name).1 with
        hroom | hnil
      · have hle := length_le_utf8 more
        rw [← hmore] at hroom ⊢
        simp only [utf8_append, List.length_append] at hroom
        have hzero : more.length = 0 := by omega
        rw [List.length_eq_zero_iff.mp hzero, List.append_nil]
      · rw [hnil] at hmore ⊢
        exact (List.append_eq_nil_iff.mp hmore).1.symm
    rw [hkept, hfront, hname]

/-- Every name that is tried is one that a directory can hold, visible and with the extension of
    the name it stands for, no two are the same, and so the first that is free fits. -/
structure Usable (name : Text) : Prop where
  fits : ∀ candidate ∈ candidateNames name, (utf8 candidate).length ≤ maxFileNameBytes
  visible : ∀ candidate ∈ candidateNames name, candidate ≠ [] ∧ candidate.head? ≠ some '.'
  extension : ∀ candidate ∈ candidateNames name, (splitExt name).2 <:+ candidate
  distinct : (candidateNames name).Nodup
  placed : ∀ (taken : Text → Bool) (candidate : Text),
    (candidateNames name).find? (! taken ·) = some candidate →
      (utf8 candidate).length ≤ maxFileNameBytes

/-- All candidates are different, except where one is the name again. -/
theorem nodup_candidateNames_iff {name : Text} (h : IsFileName name) :
    (candidateNames name).Nodup ↔
      ¬ ((utf8 name).length = maxFileNameBytes ∧
        ∃ k, 0 < k ∧ k < 10000 ∧ numbered k <:+ (splitExt name).1) := by
  have hrange : (candidateNames name).Nodup ↔
      ∀ i < 10000, ∀ j < 10000, candidateName name i = candidateName name j → i = j := by
    unfold candidateNames
    rw [List.nodup_map_iff_inj_on List.nodup_range]
    simp only [List.mem_range, maxCandidates]
  rw [hrange]
  constructor
  · rintro hinj ⟨hfull, k, hk0, hk, hnum⟩
    have heq := (candidateName_eq_self_iff h hk0.ne').mpr ⟨hfull, hnum⟩
    exact hk0.ne' (hinj k hk 0 (by omega) heq)
  · intro hnot i hi j hj heq
    by_cases hi0 : i = 0
    · by_cases hj0 : j = 0
      · rw [hi0, hj0]
      · rw [hi0] at heq
        have hself := (candidateName_eq_self_iff h hj0).mp heq.symm
        exact absurd ⟨hself.1, j, Nat.pos_of_ne_zero hj0, hj, hself.2⟩ hnot
    · by_cases hj0 : j = 0
      · rw [hj0] at heq
        have hself := (candidateName_eq_self_iff h hi0).mp heq
        exact absurd ⟨hself.1, i, Nat.pos_of_ne_zero hi0, hi, hself.2⟩ hnot
      · exact candidateName_injective hi0 hj0 heq

/-- All candidates fit when there is room for the longest number before the extension. -/
theorem fits_candidateNames_iff {name : Text} (h : IsFileName name) :
    (∀ candidate ∈ candidateNames name, (utf8 candidate).length ≤ maxFileNameBytes) ↔
      (utf8 (splitExt name).2).length ≤ 250 := by
  have hdash : (utf8 ['-']).length = 1 := by decide
  have hnum (i : Nat) : (utf8 (numbered i)).length = 1 + (decimal i).length := by
    rw [← length_utf8_decimal, numbered, ← List.singleton_append, utf8_append,
      List.length_append, hdash]
  constructor
  · intro hfits
    have hlast := hfits _ (mem_candidateNames.mpr ⟨9999, by omega, rfl⟩)
    rw [candidateName_eq name (by omega)] at hlast
    have hdigits : (decimal 9999).length = 4 := by decide +kernel
    simp only [utf8_append, List.length_append, hnum, hdigits, maxFileNameBytes] at hlast
    omega
  · rintro hext candidate hc
    obtain ⟨i, hi, rfl⟩ := mem_candidateNames.mp hc
    apply fits_candidateName h
    have := @length_decimal_le i 4 (by omega) (by omega)
    simp only [utf8_append, List.length_append, hnum, maxFileNameBytes]
    omega

/-- **When all candidates are usable.**  Exactly when the extension leaves room for the longest
    number, and no number gives a name of the full length back. -/
theorem candidates_usable [Unicode] (text : Text) {fallback : Text} (h : IsFileName fallback) :
    let name := safeName text fallback
    Usable name ↔
      (utf8 (splitExt name).2).length ≤ 250 ∧
        ¬ ((utf8 name).length = maxFileNameBytes ∧
          ∃ k, 0 < k ∧ k < 10000 ∧ '-' :: decimal k <:+ (splitExt name).1) := by
  intro name
  have hname : IsFileName name := isFileName_safeName text h
  constructor
  · intro husable
    exact ⟨(fits_candidateNames_iff hname).mp husable.fits,
      (nodup_candidateNames_iff hname).mp husable.distinct⟩
  · rintro ⟨hext, hdistinct⟩
    have hfits := (fits_candidateNames_iff hname).mpr hext
    refine ⟨hfits, ?_, ?_, (nodup_candidateNames_iff hname).mpr hdistinct, ?_⟩
    · intro candidate hc
      have hsafe := isSafe_of_mem_candidateNames hname.toIsSafe hc
      exact ⟨hsafe.nonempty, hsafe.visible⟩
    · intro candidate hc
      obtain ⟨i, _, rfl⟩ := mem_candidateNames.mp hc
      exact suffix_candidateName name i
    · intro taken candidate hfind
      exact hfits candidate (List.mem_of_find?_eq_some hfind)

/-- A name with an extension of 253 bytes. -/
def longExtension : Text := 'a' :: '.' :: List.replicate 252 'b'

/-- A name of 255 bytes that ends in a number. -/
def fullLength : Text := List.replicate 253 'a' ++ "-1".toList

private theorem safeName_longExtension :
    @safeName Unicode.ascii longExtension "file" = longExtension := by
  decide +kernel

theorem safeName_fullLength : @safeName Unicode.ascii fullLength "file" = fullLength := by
  decide +kernel

theorem isFileName_file : IsFileName "file" :=
  ⟨⟨by decide, by decide, by decide⟩, by decide⟩

/-- The tenth numbered candidate of the one name is too long, and the first of the other is the
    name again. -/
theorem candidates_unusable :
    ¬ Usable (@safeName Unicode.ascii longExtension "file") ∧
      ¬ Usable (@safeName Unicode.ascii fullLength "file") := by
  rw [safeName_longExtension, safeName_fullLength]
  constructor
  · intro husable
    have hlong : maxFileNameBytes < (utf8 (candidateName longExtension 10)).length := by
      decide +kernel
    have hfits := husable.fits _ (mem_candidateNames.mpr ⟨10, by omega, rfl⟩)
    omega
  · intro husable
    have hfile : IsFileName fullLength := by
      rw [← safeName_fullLength]
      exact @isFileName_safeName Unicode.ascii fullLength "file" isFileName_file
    apply (nodup_candidateNames_iff hfile).mp husable.distinct
    refine ⟨by decide +kernel, 1, by omega, by omega, ?_⟩
    decide +kernel

theorem candidates_usable_pdf :
    Usable (@safeName Unicode.ascii "report.pdf" "file") ↔
      (utf8 (splitExt (@safeName Unicode.ascii "report.pdf" "file")).2).length ≤ 250 ∧
        ¬ ((utf8 (@safeName Unicode.ascii "report.pdf" "file")).length = maxFileNameBytes ∧
          ∃ k, 0 < k ∧ k < 10000 ∧
            '-' :: decimal k <:+ (splitExt (@safeName Unicode.ascii "report.pdf" "file")).1) :=
  @candidates_usable Unicode.ascii "report.pdf" "file"
    ⟨⟨by decide, by decide, by decide⟩, by decide⟩

end Omdrop.Proto
