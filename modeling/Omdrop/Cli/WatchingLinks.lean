import Omdrop.Cli.Links
import Omdrop.Cli.Watching

namespace Omdrop.Cli

open Omdrop.Text Omdrop.Plist Omdrop.Proto Omdrop.Receiver

/-!
# Watching for links

A link that an Ask stored is announced when its URL has something behind the scheme and the
receiver's message of it is not cut (`cmdWatch_link`).
-/

/-! ### The name of a shortcut -/

/-- The name of a shortcut is one of a visible file. -/
private theorem isSafe_linkName [Unicode] (url : Text) : IsSafe (linkName url) := by
  obtain ⟨hne, hvisible⟩ := linkBase_visible url
  have hsafe : IsSafe (safeName (List.intercalate ['-']
      ([(linkParts url).1, (linkParts url).2].filter (· ≠ []))) "link") :=
    isSafe_safeName _ ⟨by simp, by simp, by decide⟩
  have hurl : ∀ c ∈ ".url".toList, isUnsafeChar c = false := by decide
  obtain ⟨c, rest, hcons⟩ := List.exists_cons_of_ne_nil hne
  refine ⟨by simp [linkName, hne], ?_, fun d hd => ?_⟩
  · rw [hcons] at hvisible
    rw [linkName, hcons]
    exact hvisible
  · rcases List.mem_append.mp hd with hd | hd
    · exact hsafe.clean d ((prefix_shorten _ _).subset hd)
    · exact hurl d hd

theorem mem_afterScheme {url : Text} {c : Char} (h : c ∈ afterScheme url) : c ∈ url := by
  unfold afterScheme at h
  cases hrest : afterFirst "://" url with
  | none => rwa [hrest] at h
  | some rest =>
    rw [hrest] at h
    by_contra hno
    exact not_mem_afterFirst hrest hno h

private theorem mem_linkParts {url : Text} {c : Char}
    (h : c ∈ (linkParts url).1 ∨ c ∈ (linkParts url).2) : c ∈ url := by
  unfold linkParts at h
  dsimp only at h
  rcases h with h | h
  · exact mem_afterScheme ((List.takeWhile_prefix _).subset h)
  · have hpath := (List.rdropWhile_prefix _ _).subset ((List.rtakeWhile_suffix _ _).subset h)
    exact mem_afterScheme ((List.dropWhile_suffix _).subset ((List.takeWhile_prefix _).subset hpath))

/-- Normal form C has no white space where there was none. -/
def KeepsSpace [Unicode] : Prop :=
  ∀ t : Text, (∃ c ∈ Unicode.nfc t, isWhitespace c = true) → ∃ c ∈ t, isWhitespace c = true

private theorem mem_candidateName {name : Text} {i : Nat} {c : Char}
    (h : c ∈ candidateName name i) :
    c ∈ name ∨ c = '-' ∨ c.isDigit = true := by
  by_cases hi : i = 0
  · rw [hi] at h
    exact .inl h
  · rw [candidateName_eq name hi, List.mem_append, List.mem_append] at h
    rcases h with (h | h) | h
    · exact .inl (((prefix_shorten _ _).trans (prefix_splitExt_fst name)).subset h)
    · rcases List.mem_cons.mp h with rfl | h
      · exact .inr (.inl rfl)
      · exact .inr (.inr (isDigit_of_mem_decimal h))
    · exact .inl ((suffix_splitExt_snd name).subset h)

/-- The name of a shortcut has no white space, as its URL has none. -/
private theorem not_space_of_linkName [Unicode] (hnfc : KeepsSpace) {url : Text} (hurl : IsLink url)
    {name : Text} (h : name ∈ candidateNames (linkName url)) :
    ∀ c ∈ name, isWhitespace c = false := by
  have hdash : isWhitespace '-' = false := by decide
  have hstem : ∀ c ∈ List.intercalate ['-'] ([(linkParts url).1, (linkParts url).2].filter
      (· ≠ [])), isWhitespace c = false := by
    intro c hc
    have hparts : c = '-' ∨ c ∈ (linkParts url).1 ∨ c ∈ (linkParts url).2 := by
      by_cases h₁ : (linkParts url).1 = [] <;> by_cases h₂ : (linkParts url).2 = [] <;>
        simp [h₁, h₂, List.intercalate] at hc ⊢ <;> tauto
    rcases hparts with rfl | hc
    · exact hdash
    · exact (hurl.plain c (mem_linkParts hc)).2
  have hfixed : ∀ c ∈ "link.url".toList, isWhitespace c = false := by decide
  have hsafe : ∀ stem : Text, (∀ c ∈ stem, isWhitespace c = false) →
      ∀ c ∈ safeName stem "link", isWhitespace c = false := by
    intro stem hstem c hc
    rcases safeName_cut stem "link" with heq | ⟨-, front, removed, ext, hclean, -, heq, -⟩
    · rw [heq] at hc
      exact hfixed c (List.mem_append_left ".url".toList hc)
    · have hin : c ∈ cleanedName stem := by
        rw [heq, List.mem_append] at hc
        rw [hclean, List.mem_append, List.mem_append]
        tauto
      have hnormal := (List.mem_filter.mp (trim_subset _ ((List.dropWhile_suffix _).subset hin))).1
      by_contra hspace
      rw [Bool.not_eq_false] at hspace
      obtain ⟨d, hd, hblank⟩ := hnfc _ ⟨c, hnormal, hspace⟩
      rw [hstem d ((List.rtakeWhile_suffix _ _).subset hd)] at hblank
      cases hblank
  obtain ⟨i, -, rfl⟩ := mem_candidateNames.mp h
  intro c hc
  rcases mem_candidateName hc with hc | rfl | hdigit
  · rcases List.mem_append.mp hc with hc | hc
    · exact hsafe _ hstem c ((prefix_shorten _ _).subset hc)
    · exact hfixed c (List.mem_append_right "link".toList hc)
  · exact hdash
  · rw [isDigit_iff] at hdigit
    unfold isWhitespace
    simp only [Bool.or_eq_false_iff, Bool.and_eq_false_iff, decide_eq_false_iff_not,
      beq_eq_false_iff_ne]
    omega

/-! ### The line of a link -/

private theorem not_space_of_escapeChar {c d : Char} (hc : isWhitespace c = false)
    (h : d ∈ escapeChar c) : isWhitespace d = false := by
  have hhex : ∀ {width n : Nat}, d ∈ hex width n → isWhitespace d = false := fun hd => by
    have hdigit : ∀ k < 16, isWhitespace (Char.ofNat (digitCode k)) = false := by decide
    obtain ⟨k, hk, rfl⟩ := mem_hex hd
    exact hdigit k hk
  have hx : ∀ d ∈ "\\x".toList, isWhitespace d = false := by decide
  have hu : ∀ d ∈ "\\u".toList, isWhitespace d = false := by decide
  unfold escapeChar at h
  split_ifs at h
  · exact (List.mem_append.mp h).elim (hx d) hhex
  · exact (List.mem_append.mp h).elim (hu d) hhex
  · rwa [List.mem_singleton.mp h]

private theorem escapeChar_ne_nil (c : Char) : escapeChar c ≠ [] := by
  unfold escapeChar
  split_ifs
  · exact List.cons_ne_nil _ _
  · exact List.cons_ne_nil _ _
  · exact List.cons_ne_nil _ _

/-- A line about a link, when the name ends at the first blank. -/
private theorem arrivals_linkLine {line name url : Text}
    (h : receiverInfo line = some ("link stored as ".toList ++ (name ++ (" -> ".toList ++ url))))
    (hblank : ' ' ∉ name) :
    arrivals line = ((afterStart "https://" url).or (afterStart "http://" url)).bind fun urlRest =>
      if isLinkName name ∧ urlRest ≠ [] ∧ ¬ urlRest.any isWhitespace then some (.link name)
      else none := by
  have hupload : afterStart "upload " ("link stored as ".toList ++
      (name ++ (" -> ".toList ++ url))) = none := by
    refine if_neg ?_
    rintro ⟨t, ht⟩
    exact absurd (List.cons.inj ht).1 (by decide)
  have hcut : splitFirst " -> " (name ++ (" -> ".toList ++ url)) = some (name, url) := by
    rw [← List.append_assoc]
    exact splitFirst_append hblank url
  unfold arrivals
  rw [h, Option.bind_some, hupload]
  dsimp only
  rw [afterStart_append, Option.bind_some, hcut, Option.bind_some]

/-- A cut line ends otherwise than a link does. -/
private theorem not_link_of_cut {line front n : Text} (k : Nat)
    (h : receiverInfo line = some (front ++ " [... ".toList ++ decimal k ++ " more bytes]".toList)) :
    arrivals line ≠ some (.link n) := by
  intro harrivals
  obtain ⟨url, hinfo, -, scheme, rest, rfl, hblank⟩ := arrivals_link harrivals
  have hend : front ++ " [... ".toList ++ decimal k ++ " more bytes]".toList =
      ("link stored as ".toList ++ n ++ " -> ".toList ++ scheme ++ ['/']) ++ rest := by
    rw [← Option.some.inj (hinfo.symm.trans h)]
    simp
  have hslash : '/' ∉ " more bytes]".toList := by decide
  have hspace : ' ' ∈ " more bytes]".toList := by decide
  rcases List.append_eq_append_iff.mp hend with ⟨a, ha, hnote⟩ | ⟨a, -, hrest⟩
  · -- the slash before the rest is not in the note
    rw [hnote] at hslash hspace
    have hempty : a = [] := by
      rcases List.eq_nil_or_concat a with hnil | ⟨b, c, rfl⟩
      · exact hnil
      · rw [List.concat_eq_append, ← List.append_assoc] at ha
        have hlast := List.append_inj_right' ha rfl
        rw [List.concat_eq_append, ← hlast] at hslash
        simp at hslash
    rw [hempty] at hspace
    exact hblank hspace
  · rw [hrest] at hblank
    exact hblank (List.mem_append_right _ hspace)

/-! ### A link -/

private theorem length_utf8_four (a b c d : Text) : (utf8 (a ++ (b ++ (c ++ d)))).length =
    (utf8 a).length + ((utf8 b).length + ((utf8 c).length + (utf8 d).length)) := by
  simp [utf8_append]

/-- What is behind the scheme of a link that the log shows. -/
private theorem afterScheme_link {url : Text} (h : IsLink url) : ∃ rest,
    (afterStart "https://" (url.flatMap escapeChar)).or
      (afterStart "http://" (url.flatMap escapeChar)) = some (rest.flatMap escapeChar) ∧
    (∀ c ∈ rest, isWhitespace c = false) ∧
    (rest = [] ↔ ¬ (url ≠ "http://".toList ∧ url ≠ "https://".toList)) := by
  have hother : ∀ t u : Text, "https://".toList ++ t ≠ "http://".toList ++ u := by
    intro t u heq
    have hfifth : some 's' = some ':' := congrArg (fun l : Text => l[4]?) heq
    exact absurd hfifth (by decide)
  rcases h.scheme with ⟨rest, rfl⟩ | ⟨rest, rfl⟩
  · have hplain : ∀ c ∈ "http://".toList, IsPlain c := by decide
    refine ⟨rest, ?_, fun c hc => (h.plain c (List.mem_append_right _ hc)).2, ?_⟩
    · rw [List.flatMap_append, flatMap_escapeChar hplain, afterStart_append]
      have hnone : afterStart "https://" ("http://".toList ++ rest.flatMap escapeChar) = none :=
        if_neg fun ⟨t, ht⟩ => hother t _ ht
      rw [hnone]
      rfl
    · have hne : "http://".toList ++ rest ≠ "https://".toList := fun heq => by
        rw [← List.append_nil "https://".toList] at heq
        exact hother [] rest heq.symm
      rw [iff_comm, not_and_or, not_not, not_not, or_iff_left hne]
      exact List.append_right_eq_self
  · have hplain : ∀ c ∈ "https://".toList, IsPlain c := by decide
    refine ⟨rest, ?_, fun c hc => (h.plain c (List.mem_append_right _ hc)).2, ?_⟩
    · rw [List.flatMap_append, flatMap_escapeChar hplain, afterStart_append]
      rfl
    · have hne : "https://".toList ++ rest ≠ "http://".toList := fun heq => by
        rw [← List.append_nil "http://".toList] at heq
        exact hother rest [] heq
      rw [iff_comm, not_and_or, not_not, not_not, or_iff_right hne]
      exact List.append_right_eq_self

/-- **When a stored link is announced.**  The watcher announces it when its URL has something
    behind the scheme and the receiver's message of it is not too long, and nothing otherwise. -/
theorem cmdWatch_link [Unicode] [ShowValue] (hnfc : KeepsSpace) {faults : LinkFaults}
    {items : List Value} {s : Inbox} {name url : Text}
    (h : .linkStored name url ∈ s.since (storeLinks faults items s).2) {clock : Clock}
    (hclock : IsShown clock) :
    cmdWatch false (seen (storeLinks faults items s).2.entries
        (logText [(clock, .info (.linkStored name url))])) =
      if url ≠ "http://".toList ∧ url ≠ "https://".toList ∧
        (utf8 name).length + (utf8 (url.flatMap escapeChar)).length + 19 ≤ maxMessageBytes
      then ([name], []) else ([], []) := by
  obtain ⟨hentry, hcandidate, hlink, -⟩ := (kept_storeLinks faults items s).stored name url h
  have hsafe : IsSafe name := isSafe_of_mem_candidateNames (isSafe_linkName url) hcandidate
  have hspace := not_space_of_linkName hnfc hlink hcandidate
  have hblank : ' ' ∉ name := fun hin => absurd (hspace ' ' hin) (by decide)
  have harrived : arrivedFile (storeLinks faults items s).2.entries name = true :=
    arrived_of_isSafe hsafe ⟨_, hentry, rfl⟩
  have hplain : ∀ c ∈ name, IsPlain c := by
    intro c hc
    rw [isPlain_of_isSafe hsafe hc]
    have := hspace c hc
    unfold isWhitespace at this
    simp only [Bool.or_eq_false_iff, beq_eq_false_iff_ne] at this
    omega
  -- the watcher's own test of a link's name holds of every name that is stored
  have hname : isLinkName name = true := by
    obtain ⟨front, rfl⟩ := suffix_of_mem_candidateNames hcandidate
    have hfront : front ≠ [] := by
      rintro rfl
      exact hsafe.visible rfl
    have hslash : '/' ∉ front ++ ".url".toList := fun hin => absurd (hsafe.clean '/' hin) (by decide)
    have hlen := length_le_utf8 front
    have hpos := List.length_pos_iff.mpr hfront
    have hurl : (utf8 ".url".toList).length = 4 := by decide
    have hsize : 4 < (utf8 (front ++ ".url".toList)).length := by
      rw [utf8_append, List.length_append]
      omega
    have hsuffix : ".url".toList.isSuffixOf (front ++ ".url".toList) = true :=
      List.isSuffixOf_iff_suffix.mpr (List.suffix_append _ _)
    have hno : (front ++ ".url".toList).contains ' ' = false ∧
        (front ++ ".url".toList).contains '/' = false := by
      rw [← Bool.not_eq_true, ← Bool.not_eq_true, List.contains_iff_mem, List.contains_iff_mem]
      exact ⟨hblank, hslash⟩
    rw [isLinkName, hsuffix, decide_eq_true hsize, hno.1, hno.2]
    rfl
  have hfront : ∀ c ∈ "link stored as ".toList, IsPlain c := by decide
  have htext : (Info.linkStored name url).text.flatMap escapeChar = "link stored as ".toList ++
      (name ++ (" -> ".toList ++ url.flatMap escapeChar)) := by
    have hbetween := flatMap_escapeChar_between name url hfront
      (show ∀ c ∈ " -> ".toList, IsPlain c by decide)
    rw [flatMap_escapeChar hplain] at hbetween
    exact hbetween
  -- with the words around it the message takes 19 bytes more than name and URL
  have hlength : (utf8 ((Info.linkStored name url).text.flatMap escapeChar)).length =
      (utf8 name).length + (utf8 (url.flatMap escapeChar)).length + 19 := by
    have hfixed : (utf8 "link stored as ".toList).length = 15 ∧ (utf8 " -> ".toList).length = 4 := by
      decide
    rw [htext, length_utf8_four]
    omega
  have hread := receiverInfo_info hclock (Info.linkStored name url).text
  rw [seen_logText]
  show cmdWatch false [(logLine clock .info (Info.linkStored name url).text, _)] = _
  -- a message that is too long is cut, and then it is no link's
  by_cases hfits : (utf8 name).length + (utf8 (url.flatMap escapeChar)).length + 19 ≤
    maxMessageBytes
  · have hescape : escape (Info.linkStored name url).text =
        (Info.linkStored name url).text.flatMap escapeChar := if_neg (by omega)
    rw [hescape, htext] at hread
    -- behind the scheme of a link stands its host, if it has one
    obtain ⟨rest, hrest, hclean, hnil⟩ := afterScheme_link hlink
    have harrivals := arrivals_linkLine hread hblank
    rw [hrest, Option.bind_some] at harrivals
    by_cases hempty : rest = []
    · rw [hempty] at harrivals
      have hnone := harrivals.trans (if_neg fun hall => hall.2.1 rfl)
      rw [cmdWatch_none hnone, if_neg fun hall => hnil.mp hempty ⟨hall.1, hall.2.1⟩]
      rfl
    · have hshown : rest.flatMap escapeChar ≠ [] := by
        rw [Ne, List.flatMap_eq_nil_iff]
        obtain ⟨c, rest, rfl⟩ := List.exists_cons_of_ne_nil hempty
        exact fun hall => escapeChar_ne_nil c (hall c List.mem_cons_self)
      have hspaces : ¬ (rest.flatMap escapeChar).any isWhitespace := by
        rw [List.any_eq_true]
        rintro ⟨d, hd, hblank⟩
        obtain ⟨c, hc, hin⟩ := List.mem_flatMap.mp hd
        rw [not_space_of_escapeChar (hclean c hc) hin] at hblank
        cases hblank
      rw [if_pos ⟨hname, hshown, hspaces⟩] at harrivals
      have hboth : url ≠ "http://".toList ∧ url ≠ "https://".toList := by
        by_contra hno
        exact hempty (hnil.mpr hno)
      rw [cmdWatch_false_some harrivals, if_pos ⟨hboth.1, hboth.2, hfits⟩, resolveArrivals,
        if_pos harrived]
      rfl
  · have hnone : arrivals (logLine clock .info (Info.linkStored name url).text) = none := by
      rw [Option.eq_none_iff_forall_not_mem]
      intro a ha
      have hof := isOf_of_arrivals (r := .info (.linkStored name url)) ha
      cases a with
      | stored n =>
        obtain ⟨header, names, heq, -⟩ := hof
        simp at heq
      | link n =>
        -- the cut takes the arrow off, or the end of what is behind it
        have hcut : escape (Info.linkStored name url).text = _ := if_pos (by omega)
        rw [hcut] at hread
        exact not_link_of_cut _ hread ha
    rw [cmdWatch_none hnone, if_neg fun hall => hfits hall.2.2]
    rfl

/-- A link with a host is stored under the host's name, and that is announced. -/
theorem cmdWatch_link_host :
    letI := Unicode.ascii
    letI := ShowValue.omitted
    let stored := (storeLinks .none [.string "http://a"] emptyInbox).2
    let clock : Clock := ⟨0, 98, some ⟨2026, 10, 10, 16, 14, 20, by decide⟩, by decide⟩
    (stored.entries (utf8 "a.url")).isSome ∧
      cmdWatch false (seen stored.entries
        (logText [(clock, .info (.linkStored "a.url" "http://a"))])) = (["a.url".toList], []) := by
  let _ := Unicode.ascii
  let _ := ShowValue.omitted
  intro stored clock
  have haccept : acceptItem (.string "http://a") = .ok "http://a".toList :=
    acceptItem_iff.mpr ⟨rfl, .inl (by decide), by decide⟩
  have hname : linkName "http://a" = "a.url".toList := by decide +kernel
  have hcreated := @openNew_of_free .none (linkName "http://a") emptyInbox rfl rfl
  have hstored : stored = _ := congrArg Prod.snd (storeLinks_stored haccept hcreated rfl)
  rw [hname] at hstored
  have hin : .linkStored "a.url".toList "http://a".toList ∈ emptyInbox.since stored := by
    rw [hstored]
    exact List.mem_append_right _ (List.mem_singleton_self _)
  constructor
  · rw [hstored]
    rfl
  · rw [cmdWatch_link (fun t h => h) hin ⟨_, rfl, by decide, by decide⟩]
    exact if_pos ⟨by decide, by decide, by decide +kernel⟩

end Omdrop.Cli
