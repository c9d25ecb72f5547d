import Omdrop.Receiver.Ask

namespace Omdrop.Cli

open Omdrop.Text Omdrop.Proto Omdrop.Plist Omdrop.Receiver

/-!
# Reading a link back

A link that was received lies in a shortcut, and `linkTarget` is the URL in it, if it is one that
is opened.  The receiver and this reader each have their own idea of a URL: `linkTarget_stored`
says which of the links that an Ask stored come back.
-/

/-- The longest link file that is read, in bytes. -/
@[irreducible] def linkMax : Nat := 65536

/-! ### Link files -/

/-- A blank or a tab. -/
def isBlank (c : Char) : Bool := c == ' ' || c == '\t'

/-- Does a line set `URL`? -/
def setsUrl (line : Text) : Bool :=
  ("url".toList.isPrefixOf? ((line.dropWhile isBlank).map Char.toLower)).any fun after =>
    (after.dropWhile isBlank).head? == some '='

/-- What the lines of a shortcut set `URL` to, when some lines before them had begun the section
    for it or not. -/
def urlOfLines (inSection : Bool) : List Text → Text
  | []           => []
  | raw :: lines =>
    let line := stripCr raw
    if (line.dropWhile isBlank).head? = some '[' then
      urlOfLines ((line.map Char.toLower).filter (! isBlank ·) == "[internetshortcut]".toList) lines
    else if inSection && setsUrl line then
      ((line.dropWhile (· ≠ '=')).tail.dropWhile isBlank).rdropWhile isBlank
    else urlOfLines inSection lines

/-- The URL of a shortcut. -/
def urlFileTarget (data : List UInt8) : Text :=
  urlOfLines false ((fromUtf8Lossy data).splitOn '\n')

/-- The URL of a property list, as `fromReader` reads it. -/
def weblocTarget (fromReader : List UInt8 → Option Value) (data : List UInt8) : Option Text :=
  match fromReader data with
  | some (.dictionary dict) => some (match dict.lookup "URL".toList with
    | some (.string s) => trim s
    | _                => [])
  | _                       => none

/-- The URL in a link file, unchecked; `found` is what stands at the path, behind links. -/
def linkUrl [Unicode] (fromReader : List UInt8 → Option Value) (path : List UInt8)
    (found : Option Entry) (readable : Bool) : Option Text :=
  match found with
  | some (.file data) =>
    if linkMax < data.length ∨ readable = false then none
    else
      let lower := Unicode.toLowercase (fromUtf8Lossy path)
      if ".url".toList <:+ lower then some (urlFileTarget data)
      else if ".webloc".toList <:+ lower then weblocTarget fromReader data
      else none
  | _                 => none

/-- Is a URL a web page? -/
def webUrl [Unicode] (u : Text) : Bool :=
  let l := Unicode.toLowercase u
  let rest := (afterFirst "://" l).getD []
  ("http://".toList.isPrefixOf l || "https://".toList.isPrefixOf l) &&
    !(u.any fun c => isWhitespace c || Text.isControl c) && !rest.isEmpty && rest.head? != some '/'

/-- The web page in a link file. -/
def linkTarget [Unicode] (fromReader : List UInt8 → Option Value) (path : List UInt8)
    (found : Option Entry) (readable : Bool) : Option Text :=
  (linkUrl fromReader path found readable).filter webUrl

/-! ### Bytes in front of an ASCII character -/

private theorem utf8Tails_append_ascii {k low high value : Nat} {bs rest : List UInt8} {b : UInt8}
    (hb : b.toNat < 0x80) (hlow : 0x80 ≤ low) :
    utf8Tails k low high value (bs ++ b :: rest) =
      ((utf8Tails k low high value bs).1, (utf8Tails k low high value bs).2 ++ b :: rest) := by
  fun_induction utf8Tails k low high value bs with
  | case1 => rfl
  | case2 k low high value =>
    rw [List.nil_append, utf8Tails, if_neg (by omega)]
  | case3 k low high value c bs hc ih =>
    rw [List.cons_append, utf8Tails, if_pos hc, ih (by omega)]
  | case4 k low high value c bs hc => rw [List.cons_append, utf8Tails, if_neg hc]

private theorem le_low_of_lead {b : Nat} {lead : Utf8Lead} (h : utf8Lead b = some lead) :
    0x80 ≤ lead.low := by
  unfold utf8Lead at h
  split_ifs at h
  all_goals
    obtain rfl := Option.some.inj h
    simp

/-- An ASCII character is read by itself, whatever comes before it. -/
private theorem fromUtf8Lossy_append_ascii {bs rest : List UInt8} {b : UInt8}
    (hb : b.toNat < 0x80) :
    fromUtf8Lossy (bs ++ b :: rest) = fromUtf8Lossy bs ++ fromUtf8Lossy (b :: rest) := by
  have hdecode : decodeUtf8 (bs ++ b :: rest) = decodeUtf8 bs ++ decodeUtf8 (b :: rest) := by
    fun_induction decodeUtf8 bs with
    | case1 => rfl
    | case2 c bs hc ih => rw [List.cons_append, decodeUtf8, if_pos hc, ih]; rfl
    | case3 c bs hc hlead ih => rw [List.cons_append, decodeUtf8, if_neg hc, hlead, ih]; rfl
    | case4 c bs hc lead hlead code after htails ih =>
      have htails' : utf8Tails lead.tails lead.low lead.high lead.value (bs ++ b :: rest) =
          (code, after ++ b :: rest) := by
        rw [utf8Tails_append_ascii hb (le_low_of_lead hlead), htails]
      rw [List.cons_append, decodeUtf8, if_neg hc, hlead]
      simp only [htails']
      rw [ih]
      rfl
  unfold fromUtf8Lossy
  rw [hdecode, List.map_append]
/-! ### Lower case -/

/-- What a character becomes in lower case: an ASCII one the letter or itself, and what another
    becomes has letters only of the ASCII ones. -/
structure IsLower (c : Char) (piece : Text) : Prop where
  ascii : c.toNat < 0x80 → piece = [c.toLower]
  other : 0x80 ≤ c.toNat → piece ≠ [] ∧ ∀ d ∈ piece, d.toNat < 0x80 → d.isAlpha = true

/-- Lower case goes character by character. -/
def LowersEach [Unicode] : Prop :=
  ∀ t, ∃ pieces, List.Forall₂ IsLower t pieces ∧ Unicode.toLowercase t = pieces.flatten

/-- ASCII text in front. -/
theorem lower_pieces {front t : Text} (hfront : ∀ c ∈ front, c.toNat < 0x80) {pieces : List Text}
    (h : List.Forall₂ IsLower (front ++ t) pieces) :
    ∃ behind, List.Forall₂ IsLower t behind ∧
      pieces.flatten = front.map Char.toLower ++ behind.flatten := by
  induction front generalizing pieces with
  | nil => exact ⟨pieces, h, rfl⟩
  | cons c front ih =>
    rw [List.forall_mem_cons] at hfront
    obtain _ | ⟨hc, hrest⟩ := h
    obtain ⟨behind, hbehind, hflat⟩ := ih hfront.2 hrest
    exact ⟨behind, hbehind, by rw [List.flatten_cons, hc.ascii hfront.1, hflat]; rfl⟩

/-- What stands in front in lower case stays there. -/
private theorem toLowercase_append [Unicode] (hlower : LowersEach) {front : Text}
    (hfront : ∀ c ∈ front, c.toNat < 0x80) (hsame : front.map Char.toLower = front) (t : Text) :
    ∃ behind, List.Forall₂ IsLower t behind ∧
      Unicode.toLowercase (front ++ t) = front ++ behind.flatten := by
  obtain ⟨pieces, hpieces, hflat⟩ := hlower (front ++ t)
  obtain ⟨behind, hbehind, hsplit⟩ := lower_pieces hfront hpieces
  exact ⟨behind, hbehind, by rw [hflat, hsplit, hsame]⟩

/-- And what stands at the end. -/
private theorem suffix_toLowercase [Unicode] (hlower : LowersEach) {back : Text}
    (hback : ∀ c ∈ back, c.toNat < 0x80) (hsame : back.map Char.toLower = back) (t : Text) :
    back <:+ Unicode.toLowercase (t ++ back) := by
  obtain ⟨pieces, hpieces, hflat⟩ := hlower (t ++ back)
  rw [hflat]
  clear hflat
  induction t generalizing pieces with
  | nil =>
    rw [List.nil_append, ← List.append_nil back] at hpieces
    obtain ⟨behind, hbehind, hsplit⟩ := lower_pieces hback hpieces
    cases hbehind
    rw [hsplit, hsame]
    simp
  | cons c t ih =>
    obtain _ | ⟨-, hrest⟩ := hpieces
    exact (ih _ hrest).trans (List.suffix_append _ _)

/-- Only a slash becomes one. -/
private theorem toLower_eq_slash {c : Char} : c.toLower = '/' ↔ c = '/' := by
  constructor
  · intro h
    rcases toNat_toLower c with hsame | ⟨hupper, hlower⟩
    · rw [h] at hsame
      exact (Char.toNat_inj.mp hsame).symm
    · rw [h] at hlower
      have hslash : '/'.toNat = 47 := rfl
      omega
  · rintro rfl
    rfl

/-- A text and its lower case begin with a slash alike, and are empty alike. -/
private theorem head_of_isLower {t : Text} {pieces : List Text}
    (h : List.Forall₂ IsLower t pieces) :
    (pieces.flatten = [] ↔ t = []) ∧ (pieces.flatten.head? = some '/' ↔ t.head? = some '/') := by
  cases h with
  | nil => simp
  | @cons c piece t pieces hc hrest =>
    by_cases hascii : c.toNat < 0x80
    · rw [hc.ascii hascii]
      simp [toLower_eq_slash]
    · obtain ⟨hne, hletters⟩ := hc.other (by omega)
      obtain ⟨d, piece, rfl⟩ := List.exists_cons_of_ne_nil hne
      have hd : d ≠ '/' := by
        rintro rfl
        exact absurd (hletters '/' List.mem_cons_self (by decide)) (by decide)
      have hc' : c ≠ '/' := by
        rintro rfl
        exact hascii (by decide)
      simp [hd, hc']

/-! ### What was stored -/

/-- Room for the extension leaves something of a name. -/
theorem linkBase_visible [Unicode] (url : Text) :
    linkBase url ≠ [] ∧ (linkBase url).head? ≠ some '.' := by
  have hsafe : IsSafe (safeName (List.intercalate ['-']
      ([(linkParts url).1, (linkParts url).2].filter (· ≠ []))) "link") :=
    isSafe_safeName _ ⟨by simp, by simp, by decide⟩
  obtain ⟨c, rest, hcons⟩ := List.exists_cons_of_ne_nil hsafe.nonempty
  have hfirst : [c] <+: linkBase url := by
    refine prefix_shorten_of_fits ⟨rest, hcons.symm⟩ ?_
    have hsize : (utf8 [c]).length ≤ 4 := by
      rw [utf8, List.flatMap_singleton, String.length_utf8EncodeChar]
      exact c.utf8Size_le_four
    rw [maxFileNameBytes]
    omega
  obtain ⟨tail, htail⟩ := hfirst
  rw [← htail]
  refine ⟨by simp, ?_⟩
  have hvisible := hsafe.visible
  rw [hcons] at hvisible
  exact hvisible

/-- Every name of a shortcut has its extension. -/
theorem suffix_of_mem_candidateNames [Unicode] {name url : Text}
    (h : name ∈ candidateNames (linkName url)) : ".url".toList <:+ name := by
  obtain ⟨hne, hvisible⟩ := linkBase_visible url
  have hsplit : splitExt (linkName url) = (linkBase url, ".url".toList) :=
    splitExt_append_dot hne hvisible (show '.' ∉ "url".toList by decide)
  obtain ⟨i, -, rfl⟩ := mem_candidateNames.mp h
  have hsuffix := suffix_candidateName (linkName url) i
  rwa [hsplit] at hsuffix

theorem not_blank_of_isLink {url : Text} (h : IsLink url) {c : Char} (hc : c ∈ url) :
    isBlank c = false := by
  have hspace := (h.plain c hc).2
  rw [isBlank, Bool.or_eq_false_iff, beq_eq_false_iff_ne, beq_eq_false_iff_ne]
  constructor
  · rintro rfl
    exact absurd hspace (by decide)
  · rintro rfl
    exact absurd hspace (by decide)

/-- A shortcut has its URL back. -/
private theorem urlFileTarget_shortcut {url : Text} (h : IsLink url) :
    urlFileTarget (shortcut url) = url := by
  have hcontrol : ∀ c ∈ url, c ≠ '\n' ∧ c ≠ '\r' := by
    intro c hc
    have hplain := (h.plain c hc).1
    constructor
    · rintro rfl
      exact absurd hplain (by decide)
    · rintro rfl
      exact absurd hplain (by decide)
  have hlines : ("[InternetShortcut]\nURL=".toList ++ url ++ ['\n']).splitOn '\n' =
      ["[InternetShortcut]".toList, "URL=".toList ++ url, []] := by
    have hfeed : ∀ l ∈ ["[InternetShortcut]".toList, "URL=".toList ++ url, []], '\n' ∉ l := by
      have hurl : '\n' ∉ url := fun hmem => (hcontrol _ hmem).1 rfl
      simp [hurl]
    have hjoined := List.splitOn_intercalate '\n' hfeed (by simp)
    rw [← hjoined]
    simp [List.intercalate]
  have hcr : stripCr ("URL=".toList ++ url) = "URL=".toList ++ url := by
    have hunbroken : Unbroken (· == '\r') ("URL=".toList ++ url) := by
      intro c hc
      rw [beq_eq_false_iff_ne]
      rcases List.mem_append.mp hc with hc | hc
      · rintro rfl
        exact absurd hc (by decide)
      · exact (hcontrol c hc).2
    exact stripCr_of_unbroken rfl hunbroken
  have htrim : (url.dropWhile isBlank).rdropWhile isBlank = url := by
    have hstart : url.dropWhile isBlank = url := by
      cases url with
      | nil => rfl
      | cons c url =>
        rw [List.dropWhile_cons, if_neg (by simp [not_blank_of_isLink h List.mem_cons_self])]
    rw [hstart, List.rdropWhile_eq_self_iff]
    exact fun hne => by simp [not_blank_of_isLink h (List.getLast_mem hne)]
  rw [urlFileTarget, shortcut, fromUtf8Lossy_utf8, hlines]
  show urlOfLines true ["URL=".toList ++ url, []] = url
  rw [urlOfLines, hcr]
  exact htrim

/-- Which of the links that are accepted are web pages. -/
theorem webUrl_iff [Unicode] (hlower : LowersEach) {url : Text} (h : IsLink url) :
    webUrl url = true ↔ afterScheme url ≠ [] ∧ (afterScheme url).head? ≠ some '/' := by
  obtain ⟨scheme, r, hscheme, rfl⟩ : ∃ scheme r, scheme ∈ ["http", "https"] ∧
      url = scheme.toList ++ "://".toList ++ r := by
    rcases h.scheme with ⟨r, rfl⟩ | ⟨r, rfl⟩
    · exact ⟨"http", r, by simp, rfl⟩
    · exact ⟨"https", r, by simp, rfl⟩
  have hplain : ((scheme.toList ++ "://".toList ++ r).any fun c =>
      isWhitespace c || Text.isControl c) = false := by
    rw [List.any_eq_false]
    intro c hc
    rw [(h.plain c hc).1, (h.plain c hc).2]
    decide
  have hscheme' : (∀ c ∈ scheme.toList ++ "://".toList, c.toNat < 0x80) ∧
      (scheme.toList ++ "://".toList).map Char.toLower = scheme.toList ++ "://".toList := by
    rcases List.mem_pair.mp hscheme with rfl | rfl <;> decide
  obtain ⟨behind, hbehind, hsame⟩ := toLowercase_append hlower hscheme'.1 hscheme'.2 r
  obtain ⟨hnil, hslash⟩ := head_of_isLower hbehind
  have hafter : ∀ t, afterFirst "://" (scheme.toList ++ "://".toList ++ t) = some t := by
    intro t
    rcases List.mem_pair.mp hscheme with rfl | rfl <;> rfl
  have hprefix : ∀ t, ("http://".toList.isPrefixOf (scheme.toList ++ "://".toList ++ t) ||
      "https://".toList.isPrefixOf (scheme.toList ++ "://".toList ++ t)) = true := by
    intro t
    rcases List.mem_pair.mp hscheme with rfl | rfl <;> rfl
  rw [webUrl, hsame, hplain, hprefix, hafter, afterScheme, hafter]
  simp only [Option.getD_some, Bool.true_and, Bool.not_false, Bool.and_eq_true, Bool.not_eq_true',
    List.isEmpty_eq_false_iff, bne_iff_ne, ne_eq, hnil, hslash]

/-- **Which links come back.**  Of what an Ask stored as a link file, `linkTarget` has the URL if
    the file is not too big and something that is no slash follows the scheme; else it has
    nothing. -/
theorem linkTarget_stored [Unicode] [ShowValue] (hlower : LowersEach) (R : EventReader)
    (apple : AppleChecks) (hash : Text → Text) (profile : Profile) (faults : LinkFaults)
    (seen : Found) (req : Request) (body : List UInt8) (s : Session)
    (fromReader : List UInt8 → Option Value) (dir : List UInt8) (readable : Bool)
    (name url : Text)
    (h : .linkStored name url ∈
      s.inbox.since (ask R apple hash profile faults seen req body s).2.inbox) :
    linkTarget fromReader (dir ++ 47 :: utf8 name)
        ((ask R apple hash profile faults seen req body s).2.inbox.entries (utf8 name)) readable =
      if readable = true ∧ (shortcut url).length ≤ linkMax ∧ afterScheme url ≠ [] ∧
          (afterScheme url).head? ≠ some '/' then some url
      else none := by
  obtain ⟨hfile, hname, hlink, -⟩ :=
    (@ask_leaves _ _ R apple hash profile faults seen req body s).1.stored name url h
  have hpath : ".url".toList <:+ Unicode.toLowercase (fromUtf8Lossy (dir ++ 47 :: utf8 name)) := by
    obtain ⟨stem, hstem⟩ := suffix_of_mem_candidateNames hname
    have hslash : fromUtf8Lossy (47 :: utf8 name) = '/' :: name := fromUtf8Lossy_utf8 ('/' :: name)
    rw [fromUtf8Lossy_append_ascii (by decide), hslash, ← hstem]
    have hback : ∀ c ∈ ".url".toList, c.toNat < 0x80 := by decide
    have hall := suffix_toLowercase hlower hback (by decide) (fromUtf8Lossy dir ++ '/' :: stem)
    rwa [List.append_assoc, List.cons_append] at hall
  rw [hfile, linkTarget, linkUrl]
  dsimp only
  rw [if_pos hpath, urlFileTarget_shortcut hlink]
  by_cases hread : linkMax < (shortcut url).length ∨ readable = false
  · rw [if_pos hread, if_neg]
    · rfl
    · rintro ⟨hreadable, hfits, -⟩
      rcases hread with hbig | hread
      · omega
      · rw [hreadable] at hread
        cases hread
  · rw [not_or] at hread
    rw [if_neg (not_or.mpr hread)]
    by_cases hweb : webUrl url = true
    · rw [if_pos ⟨by simpa using hread.2, by omega, (webUrl_iff hlower hlink).mp hweb⟩]
      simp [hweb]
    · rw [if_neg fun hall => hweb ((webUrl_iff hlower hlink).mpr hall.2.2)]
      simp [hweb]

/-! ### Two links -/

/-- An empty directory. -/
def emptyInbox : Inbox := ⟨fun _ => none, [], 0⟩

/-- What an Ask for a link leaves in it, when every file can be created and written. -/
abbrev inboxOf (url : Text) : Inbox :=
  (@ask Unicode.ascii ShowValue.omitted (.ofEvents (linkAsk url)) .nobody id ⟨[], [], [], none⟩
    .none ⟨none, none, none⟩ ⟨"/Ask", true⟩ [] (Session.start emptyInbox)).2.inbox

/-- Links that are all stored are all that an Ask does to the directory. -/
private theorem acceptAsk_stored [Unicode] [ShowValue] {profile : Profile} {faults : LinkFaults}
    {req : Request} {dict : Dictionary} {s : Session} {inbox : Inbox}
    (hlinks : "links".toList ∈ transferTypes dict)
    (h : storeLinks faults (arrayAt "Items".toList dict) s.inbox = (.ok (), inbox)) :
    (acceptAsk profile faults req dict s).2.inbox = inbox := by
  rw [acceptAsk, if_pos hlinks, h]
  rfl

/-- The Ask stores its link. -/
theorem linkStored_inboxOf {url : Text} (hlink : IsLink url)
    (hbody : askBody (.ofEvents (linkAsk url)) [] = ([("TransferType".toList,
      .array [.string "links"]), ("Items".toList, .array [.string url])], none)) :
    .linkStored (@linkName Unicode.ascii url) url ∈ emptyInbox.since (inboxOf url) := by
  let _ : Unicode := Unicode.ascii
  let _ : ShowValue := ShowValue.omitted
  obtain ⟨inbox, hsaid, ⟨hnot, -⟩ | ⟨-, hask⟩⟩ := @ask_cases _ _ (.ofEvents (linkAsk url)) .nobody id
    ⟨[], [], [], none⟩ .none ⟨none, none, none⟩ ⟨"/Ask", true⟩ [] (Session.start emptyInbox)
  · refine absurd ?_ hnot
    unfold Taken
    rw [hbody]
    have hone : (1 : Nat) ≤ maxArchiveMembers := by decide
    exact ⟨hone, nofun⟩
  · obtain ⟨hentries, hcalls⟩ := hsaid.sameFiles
    have haccept : acceptItem (.string url) = .ok url := acceptItem_iff.mpr ⟨rfl, hlink⟩
    have hcreated := @openNew_of_free .none (linkName url) inbox rfl (by rw [hentries]; rfl)
    have hstored : storeLinks .none [.string url] inbox = storeLinks .none [] _ :=
      storeLinks_stored haccept hcreated rfl
    have hall : storeLinks .none [.string url] inbox =
        (.ok (), (storeLinks .none [.string url] inbox).2) := by
      rw [hstored]
      rfl
    have hafter : inboxOf url = (storeLinks .none [.string url] inbox).2 := by
      have hlinks : "links".toList ∈ transferTypes [("TransferType".toList,
          .array [.string "links"]), ("Items".toList, .array [.string url])] :=
        List.mem_singleton_self _
      unfold inboxOf
      rw [hask, hbody]
      exact acceptAsk_stored hlinks hall
    rw [hafter, hstored]
    exact List.mem_append_right _ (List.mem_singleton_self _)

/-- A scheme with nothing behind it is stored, and no link file gives it back. -/
theorem linkTarget_hostless :
    ∃ name, .linkStored name "http://".toList ∈ emptyInbox.since (inboxOf "http://") ∧
      ∀ fromReader path found readable,
        @linkTarget Unicode.ascii fromReader path found readable ≠ some "http://".toList := by
  have hbody : askBody (.ofEvents (linkAsk "http://")) [] = ([("TransferType".toList,
      .array [.string "links"]), ("Items".toList, .array [.string "http://"])], none) := by
    unfold askBody parse parseCounted maxEvents
    rfl
  refine ⟨_, linkStored_inboxOf ⟨.inl (List.prefix_refl _), by decide⟩ hbody, ?_⟩
  intro fromReader path found readable h
  have hweb := (Option.filter_eq_some_iff.mp h).2
  exact absurd hweb (by decide)

private theorem lowersEach_ascii : @LowersEach Unicode.ascii := by
  intro t
  refine ⟨t.map fun c => [c.toLower], ?_, ?_⟩
  · rw [List.forall₂_map_right_iff]
    refine List.forall₂_same.mpr fun c _ => ⟨fun _ => rfl, fun hc => ⟨by simp, fun d hd hlow => ?_⟩⟩
    obtain rfl := List.mem_singleton.mp hd
    rcases toNat_toLower c with hsame | ⟨hupper, -⟩ <;> omega
  · show t.map Char.toLower = _
    induction t with
    | nil => rfl
    | cons c t ih => rw [List.map_cons, List.map_cons, List.flatten_cons, ih]; rfl

theorem linkTarget_page :
    @linkTarget Unicode.ascii (fun _ => none) ([] ++ 47 :: utf8 (@linkName Unicode.ascii "http://a"))
      ((inboxOf "http://a").entries (utf8 (@linkName Unicode.ascii "http://a"))) true =
        some "http://a".toList := by
  have hbody : askBody (.ofEvents (linkAsk "http://a")) [] = ([("TransferType".toList,
      .array [.string "links"]), ("Items".toList, .array [.string "http://a"])], none) := by
    unfold askBody parse parseCounted maxEvents
    rfl
  have hstored := linkStored_inboxOf ⟨.inl ⟨['a'], rfl⟩, by decide⟩ hbody
  exact (@linkTarget_stored Unicode.ascii ShowValue.omitted lowersEach_ascii _ _ _ _ _ _ _ _ _ _ []
    true _ _ hstored).trans (if_pos ⟨rfl, by unfold linkMax; decide, by decide, by decide⟩)

end Omdrop.Cli
