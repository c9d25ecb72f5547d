import Omdrop.Machine.Alike
import Omdrop.Plist.Value
import Omdrop.Proto.NameLimits
import Omdrop.Cli.Unit

namespace Omdrop.Receiver

open Omdrop.Text Omdrop.Proto Omdrop.Stream Omdrop.Plist

/-!
# Links that are sent

A link comes in the items of an Ask and is stored as a shortcut: a file with the URL in it.
`storeLinks` takes item after item and stops at the first that cannot be stored.  The shortcut is
created under its final name and written after that, so a write that fails leaves a torn file
behind: `whole_storeLinks_iff` says when that does not happen.
-/

/-! ### The directory and the log -/

/-- How the file system answers its `k`-th call: whether a file can be created, and how much of a
    write is done before it fails. -/
structure LinkFaults where
  create : Nat → Option OsError
  write : Nat → Option (Nat × OsError)

/-- A file system that never fails. -/
def LinkFaults.none : LinkFaults := ⟨fun _ => .none, fun _ => .none⟩

/-- How serious a message is. -/
inductive Level
  | debug | info | warning | error
  deriving DecidableEq, Repr

/-- A message of the log; that a link was stored is one of a kind of its own. -/
inductive Message
  | linkStored (stored url : Text)
  | other (level : Level) (text : Text)
  deriving DecidableEq, Repr

/-- How serious a message is. -/
def Message.level : Message → Level
  | .linkStored _ _ => .info
  | .other level _  => level

/-- The text of a message. -/
def Message.text : Message → Text
  | .linkStored stored url => "link stored as ".toList ++ stored ++ " -> ".toList ++ url
  | .other _ text          => text

/-- The download directory, the log, and the number of calls of the file system so far. -/
structure Inbox where
  entries : FileName → Option Entry
  log : List Message
  calls : Nat

namespace Inbox

/-- Count a call. -/
def called (s : Inbox) : Inbox := { s with calls := s.calls + 1 }

/-- Put a file under a name. -/
def put (name : FileName) (data : List UInt8) (s : Inbox) : Inbox :=
  { s with entries := Function.update s.entries name (some (.file data)) }

/-- Log a message. -/
def say (m : Message) (s : Inbox) : Inbox := { s with log := s.log ++ [m] }

/-- Nothing came but messages, and none about a stored link. -/
inductive Said (s : Inbox) : Inbox → Prop
  | nothing : Said s s
  | say {t : Inbox} (h : Said s t) (level : Level) (text : Text) : Said s (t.say (.other level text))

/-- The same files, and as many calls. -/
def SameFiles (s t : Inbox) : Prop := t.entries = s.entries ∧ t.calls = s.calls

/-- What changes the directory, and may fail. -/
abbrev Step (α : Type) := Fallible OsError Inbox α

end Inbox

/-! ### The shortcut -/

/-- What follows the scheme of a URL, all of it when it has none. -/
def afterScheme (url : Text) : Text := (afterFirst "://" url).getD url

/-- The host of a URL and the last segment of its path. -/
def linkParts (url : Text) : Text × Text :=
  let rest := afterScheme url
  let endsAuthority (c : Char) : Bool := c == '/' || c == '?' || c == '#'
  let tail := rest.dropWhile (! endsAuthority ·)
  let path := tail.takeWhile fun c => !(c == '?' || c == '#')
  (rest.takeWhile (! endsAuthority ·), lastComponent (· == '/') (path.rdropWhile (· == '/')))

/-- The name of a shortcut without its extension, which there is room for. -/
def linkBase [Unicode] (url : Text) : Text :=
  let (netloc, segment) := linkParts url
  let stem := List.intercalate ['-'] ([netloc, segment].filter (· ≠ []))
  shorten 4 (safeName stem "link")

/-- The name of a shortcut. -/
def linkName [Unicode] (url : Text) : Text := linkBase url ++ ".url".toList

/-- What is written to a shortcut. -/
def shortcut (url : Text) : List UInt8 :=
  utf8 ("[InternetShortcut]\nURL=".toList ++ url ++ ['\n'])

/-! ### Storing it -/

/-- Create the first of some candidates that is free, never replacing a file. -/
def openFirst (faults : LinkFaults) (name : Text) : List Text → Inbox.Step Text
  | [] => Fallible.fail ⟨.alreadyExists, String.ofList (name ++ ": no free name".toList)⟩
  | candidate :: candidates => fun s =>
    match faults.create s.calls with
    | some e =>
      if e.kind = .alreadyExists then openFirst faults name candidates s.called
      else (.error e, s.called)
    | none   =>
      match s.entries (utf8 candidate) with
      | some _ => openFirst faults name candidates s.called
      | none   => (.ok candidate, s.called.put (utf8 candidate) [])

/-- Create a file under a name, or the first of its variants that is free. -/
def openNew (faults : LinkFaults) (name : Text) : Inbox.Step Text :=
  openFirst faults name (candidateNames name)

/-- Write all of a file that was just created. -/
def writeAll (faults : LinkFaults) (name : Text) (data : List UInt8) : Inbox.Step Unit := fun s =>
  match faults.write s.calls with
  | none        => (.ok (), s.called.put (utf8 name) data)
  | some (k, e) => (.error e, s.called.put (utf8 name) (data.take k))

/-- Store a URL as a shortcut; comes to the name that it got. -/
def storeLink [Unicode] (faults : LinkFaults) (url : Text) : Inbox.Step Text := do
  let name ← openNew faults (linkName url)
  writeAll faults name (shortcut url)
  pure name

/-! ### The items of an Ask -/

/-- How the values that have no text of their own are printed: reals, dates and UIDs. -/
class ShowValue where
  real : UInt64 → Text
  debug : Value → Text

mutual

/-- A value as the messages show it. -/
def pyValueRepr [ShowValue] : Value → Text
  | .string s        => pyRepr s
  | .integer i       => decimalInt i
  | .real r          => ShowValue.real r
  | .boolean b       => if b then "True" else "False"
  | .data d          => pyBytesRepr d
  | .array items     => '[' :: List.intercalate ", ".toList (pyItemReprs items) ++ [']']
  | .dictionary dict => '\x7b' :: List.intercalate ", ".toList (pyEntryReprs dict) ++ ['\x7d']
  | other            => ShowValue.debug other

/-- Items as the messages show them. -/
def pyItemReprs [ShowValue] : List Value → List Text
  | []         => []
  | v :: items => pyValueRepr v :: pyItemReprs items

/-- The entries of a dictionary as the messages show them. -/
def pyEntryReprs [ShowValue] : List (Text × Value) → List Text
  | []             => []
  | (k, v) :: dict => (pyRepr k ++ ": ".toList ++ pyValueRepr v) :: pyEntryReprs dict

end

section
variable [ShowValue]

/-- The URL of an item, or why it is ignored. -/
def acceptItem (item : Value) : Except Text Text :=
  match item with
  | .string u =>
    if "http://".toList <+: u ∨ "https://".toList <+: u then
      -- a line break would end the shortcut's line, white space blur the log's
      if u.any fun c => Text.isControl c || isWhitespace c then
        .error ("ask: ignoring item with control characters or spaces ".toList ++
          (pyRepr u).take 80)
      else .ok u
    else .error ("ask: ignoring non-http item ".toList ++ (pyValueRepr item).take 80)
  | _ => .error ("ask: ignoring non-http item ".toList ++ (pyValueRepr item).take 80)

/-- Store the links among the items, up to the first that cannot be stored. -/
def storeLinks [Unicode] (faults : LinkFaults) : List Value → Inbox.Step Unit
  | []            => pure ()
  | item :: items =>
    match acceptItem item with
    | .error text => do
      Fallible.modify (Inbox.say (.other .warning text))
      storeLinks faults items
    | .ok url     => do
      let stored ← storeLink faults url
      Fallible.modify (Inbox.say (.linkStored stored url))
      storeLinks faults items

/-- What an accepted URL looks like. -/
structure IsLink (url : Text) : Prop where
  scheme : "http://".toList <+: url ∨ "https://".toList <+: url
  plain : ∀ c ∈ url, Text.isControl c = false ∧ isWhitespace c = false

/-- An item is accepted when it is the text of a link. -/
theorem acceptItem_iff {item : Value} {url : Text} :
    acceptItem item = .ok url ↔ item = .string url ∧ IsLink url := by
  cases item with
  | string u =>
    have hplain : (u.any fun c => Text.isControl c || isWhitespace c) = false ↔
        ∀ c ∈ u, Text.isControl c = false ∧ isWhitespace c = false := by
      simp only [List.any_eq_false, Bool.or_eq_true, not_or, Bool.not_eq_true]
    constructor
    · intro h
      simp only [acceptItem] at h
      split_ifs at h with hscheme hany
      cases h
      exact ⟨rfl, hscheme, hplain.mp (by simpa using hany)⟩
    · rintro ⟨h, hscheme, hu⟩
      cases h
      simp only [acceptItem]
      rw [if_pos hscheme, if_neg (by simpa using hplain.mpr hu)]
  | _ => simp [acceptItem]

end

/-! ### What an Ask leaves -/

namespace Inbox

/-- The messages that came since. -/
def since (s₀ s : Inbox) : List Message := s.log.drop s₀.log.length

/-- Since `s₀` no file was changed, and every link that was logged as stored is a link of one of
    the items and stands, with its URL complete, under the name that was logged. -/
structure Kept [Unicode] (items : List Value) (s₀ s : Inbox) : Prop where
  log : s₀.log <+: s.log
  kept : ∀ name e, s₀.entries name = some e → s.entries name = some e
  stored : ∀ name url, .linkStored name url ∈ s₀.since s →
    s.entries (utf8 name) = some (.file (shortcut url)) ∧ name ∈ candidateNames (linkName url) ∧
      IsLink url ∧ .string url ∈ items

/-- And there are no files but those that were logged. -/
structure Whole [Unicode] (items : List Value) (s₀ s : Inbox) : Prop extends Kept items s₀ s where
  added : ∀ name, s₀.entries name = none → s.entries name ≠ none →
    ∃ stored url, name = utf8 stored ∧ .linkStored stored url ∈ s₀.since s

/-- What is said is said since. -/
theorem since_say {s₀ s : Inbox} (h : s₀.log <+: s.log) (m : Message) :
    s₀.since (s.say m) = s₀.since s ++ [m] :=
  List.drop_append_of_le_length h.length_le

/-- Saying something stores nothing. -/
theorem Said.sameFiles {s t : Inbox} (h : s.Said t) : s.SameFiles t := by
  induction h with
  | nothing => exact ⟨rfl, rfl⟩
  | say h level text ih => exact ih

/-- Saying something adds to the log. -/
theorem Said.log {s t : Inbox} (h : s.Said t) : s.log <+: t.log := by
  induction h with
  | nothing => exact List.prefix_refl _
  | say h level text ih => exact ih.trans (List.prefix_append _ _)

/-- What is said is not that a link was stored. -/
theorem Said.not_stored {s t : Inbox} (h : s.Said t) (stored url : Text) :
    .linkStored stored url ∉ s.since t := by
  induction h with
  | nothing => simp [since]
  | say h level text ih =>
    rw [since_say h.log, List.mem_append, List.mem_singleton]
    exact not_or.mpr ⟨ih, by simp⟩

variable [Unicode] {items : List Value} {s₀ s s' : Inbox}

/-- Where nothing happens, all is whole. -/
theorem Whole.refl (items : List Value) (s : Inbox) : Whole items s s where
  log := List.prefix_refl _
  kept _ _ h := h
  stored _ _ h := by simp [since] at h
  added _ h h' := absurd h h'

/-- A message of another kind keeps what was stored. -/
theorem Kept.say (h : Kept items s₀ s) (level : Level) (text : Text) :
    Kept items s₀ (s.say (.other level text)) := by
  refine ⟨h.log.trans (List.prefix_append _ _), h.kept, fun name url hmem => ?_⟩
  rw [since_say h.log, List.mem_append, List.mem_singleton] at hmem
  exact h.stored name url (hmem.resolve_right (by simp))

/-- A message that says nothing of a stored link. -/
theorem Whole.say (h : Whole items s₀ s) (level : Level) (text : Text) :
    Whole items s₀ (s.say (.other level text)) := by
  refine ⟨h.toKept.say level text, fun name hfree hthere => ?_⟩
  obtain ⟨stored, url, hname, hmem⟩ := h.added name hfree hthere
  rw [since_say h.log]
  exact ⟨stored, url, hname, List.mem_append_left _ hmem⟩

/-- What else is said has no part in it. -/
theorem Kept.whole_say_iff (h : Kept items s₀ s) (level : Level) (text : Text) :
    Whole items s₀ (s.say (.other level text)) ↔ Whole items s₀ s := by
  refine ⟨fun hwhole => ⟨h, fun name hfree hthere => ?_⟩, fun hwhole => hwhole.say level text⟩
  obtain ⟨stored, url, hname, hmem⟩ := hwhole.added name hfree hthere
  rw [since_say h.log, List.mem_append, List.mem_singleton] at hmem
  exact ⟨stored, url, hname, hmem.resolve_right (by simp)⟩

/-- Saying something leaves all whole. -/
theorem Whole.said (h : Whole items s₀ s) (hsaid : s.Said s') : Whole items s₀ s' := by
  induction hsaid with
  | nothing => exact h
  | say _ level text ih => exact ih.say level text

/-- Only the files and the log matter. -/
theorem Kept.of_eq (h : Kept items s₀ s) (hentries : s'.entries = s.entries)
    (hlog : s'.log = s.log) : Kept items s₀ s' := by
  obtain ⟨hpre, hkept, hstored⟩ := h
  refine ⟨?_, ?_, ?_⟩
  · rwa [hlog]
  · rwa [hentries]
  · rwa [since, hentries, hlog]

/-- Only calls were made. -/
theorem Whole.of_eq (h : Whole items s₀ s) (hentries : s'.entries = s.entries)
    (hlog : s'.log = s.log) : Whole items s₀ s' := by
  refine ⟨h.toKept.of_eq hentries hlog, ?_⟩
  rw [since, hentries, hlog]
  exact h.added

/-- Whatever comes under a free name, nothing else changes. -/
theorem Kept.put (h : Kept items s₀ s) {name : FileName} (hfree : s.entries name = none)
    (data : List UInt8) : Kept items s₀ (s.put name data) := by
  have hother : ∀ n e, s.entries n = some e → (s.put name data).entries n = some e := by
    intro n e he
    have hne : n ≠ name := by
      rintro rfl
      rw [hfree] at he
      cases he
    exact (Function.update_of_ne hne _ _).trans he
  refine ⟨h.log, fun n e he => hother n e (h.kept n e he), fun n url hmem => ?_⟩
  obtain ⟨hfile, hrest⟩ := h.stored n url hmem
  exact ⟨hother _ _ hfile, hrest⟩

/-- A link is stored complete, and logged. -/
theorem Whole.store (h : Whole items s₀ s) {name url : Text} (hfree : s.entries (utf8 name) = none)
    (hname : name ∈ candidateNames (linkName url)) (hurl : IsLink url)
    (hitem : .string url ∈ items) :
    Whole items s₀ ((s.put (utf8 name) (shortcut url)).say (.linkStored name url)) := by
  have hput := h.toKept.put hfree (shortcut url)
  have hsince := since_say hput.log (.linkStored name url)
  refine ⟨⟨hput.log.trans (List.prefix_append _ _), hput.kept, ?_⟩, ?_⟩
  · intro name' url' hmem
    rw [hsince, List.mem_append, List.mem_singleton] at hmem
    rcases hmem with hmem | heq
    · exact hput.stored name' url' hmem
    · cases heq
      exact ⟨Function.update_self _ _ _, hname, hurl, hitem⟩
  · intro n hn hthere
    rw [hsince]
    by_cases heq : n = utf8 name
    · exact ⟨name, url, heq, by simp⟩
    · have hother : (s.put (utf8 name) (shortcut url)).entries n = s.entries n :=
        Function.update_of_ne heq _ _
      obtain ⟨stored, url', hname', hmem⟩ := h.added n hn (hother ▸ hthere)
      exact ⟨stored, url', hname', List.mem_append_left _ hmem⟩

/-- A file that is not logged. -/
theorem Whole.not_put (h : Whole items s₀ s) {name : FileName} (hfree : s.entries name = none)
    (data : List UInt8) : ¬ Whole items s₀ (s.put name data) := by
  intro hput
  have hnew : s₀.entries name = none := by
    by_contra hold
    obtain ⟨e, he⟩ := Option.ne_none_iff_exists'.mp hold
    rw [h.kept name e he] at hfree
    cases hfree
  have hthere : (s.put name data).entries name ≠ none := by simp [Inbox.put]
  obtain ⟨stored, url, rfl, hmem⟩ := hput.added name hnew hthere
  -- a name that was logged is taken
  rw [(h.stored stored url hmem).1] at hfree
  cases hfree

end Inbox

/-- **What creating a file comes to.**  It is a candidate whose name was free, and empty; where
    none can be created nothing has changed. -/
theorem openFirst_after (faults : LinkFaults) (name : Text) (candidates : List Text) (s : Inbox) :
    Fallible.After
      (fun c s' => c ∈ candidates ∧ s.entries (utf8 c) = none ∧
        s'.entries = (s.put (utf8 c) []).entries ∧ s'.log = s.log)
      (fun _ s' => s'.entries = s.entries ∧ s'.log = s.log)
      (openFirst faults name candidates s) := by
  induction candidates generalizing s with
  | nil => exact ⟨rfl, rfl⟩
  | cons candidate candidates ih =>
    have hnext := (ih s.called).imp
      (fun c s' h => (⟨List.mem_cons_of_mem candidate h.1, h.2⟩ :
        c ∈ candidate :: candidates ∧ s.entries (utf8 c) = none ∧
          s'.entries = (s.put (utf8 c) []).entries ∧ s'.log = s.log))
      (fun _ _ h => h)
    unfold openFirst
    rcases hcreate : faults.create s.calls with _ | e
    · rcases hentry : s.entries (utf8 candidate) with _ | entry
      · exact ⟨List.mem_cons_self, hentry, rfl, rfl⟩
      · exact hnext
    · dsimp only
      split_ifs
      · exact hnext
      · exact ⟨rfl, rfl⟩

/-- A name that is free is taken. -/
theorem openNew_of_free {faults : LinkFaults} {name : Text} {s : Inbox}
    (hcreate : faults.create s.calls = none) (hfree : s.entries (utf8 name) = none) :
    openNew faults name s = (.ok name, s.called.put (utf8 name) []) := by
  have hfirst : candidateNames name =
      name :: (List.range 9999).map (candidateName name ∘ Nat.succ) := by
    unfold candidateNames maxCandidates
    rw [show 10000 = 9999 + 1 from rfl, List.range_succ_eq_map, List.map_cons, List.map_map]
    rfl
  show openFirst faults name (candidateNames name) s = _
  rw [hfirst]
  unfold openFirst
  rw [hcreate]
  dsimp only
  rw [hfree]

/-- The log has no part in it. -/
private theorem openFirst_alike (faults : LinkFaults) (name : Text) (candidates : List Text) :
    Fallible.Alike Inbox.SameFiles (openFirst faults name candidates)
      (openFirst faults name candidates) (fun _ => Inbox.SameFiles) (fun _ => Inbox.SameFiles) := by
  induction candidates with
  | nil => exact fun s t h => ⟨rfl, h⟩
  | cons candidate candidates ih =>
    intro s t h
    have hcalled : s.called.SameFiles t.called := ⟨h.1, congrArg (· + 1) h.2⟩
    unfold openFirst
    rw [h.2, h.1]
    rcases faults.create s.calls with _ | e
    · rcases s.entries (utf8 candidate) with _ | entry
      · refine ⟨rfl, ?_, hcalled.2⟩
        exact congrArg (Function.update · _ _) h.1
      · exact ih _ _ hcalled
    · dsimp only
      split_ifs
      · exact ih _ _ hcalled
      · exact ⟨rfl, hcalled⟩

section
variable [Unicode] [ShowValue]

/-- Wherever a shortcut is created, what is written to it is written. -/
def WrittenOut (faults : LinkFaults) : List Value → Inbox → Prop
  | [], _            => True
  | item :: items, s =>
    match acceptItem item with
    | .error text => WrittenOut faults items (s.say (.other .warning text))
    | .ok url     =>
      match openNew faults (linkName url) s with
      | (.error _, _)  => True
      | (.ok name, s') => faults.write s'.calls = none ∧
        WrittenOut faults items
          ((s'.called.put (utf8 name) (shortcut url)).say (.linkStored name url))

variable {faults : LinkFaults} {items all : List Value} {s₀ s s' : Inbox}

/-- What is created depends on the files only. -/
theorem writtenOut_congr {t : Inbox} (h : s.SameFiles t) :
    WrittenOut faults items t ↔ WrittenOut faults items s := by
  induction items generalizing s t with
  | nil => exact Iff.rfl
  | cons item items ih =>
    unfold WrittenOut
    rcases acceptItem item with text | url
    · exact ih h
    · have halike := openFirst_alike faults (linkName url) (candidateNames (linkName url)) s t h
      dsimp only
      rcases hopen : openNew faults (linkName url) s with ⟨e | name, s'⟩
      · obtain ⟨t', ht, -⟩ := halike.exists hopen
        rw [show openNew faults (linkName url) t = _ from ht]
      · obtain ⟨t', ht, hsame⟩ := halike.exists hopen
        rw [show openNew faults (linkName url) t = _ from ht]
        dsimp only
        rw [hsame.2]
        refine and_congr_right fun _ => ih ⟨?_, congrArg (· + 1) hsame.2⟩
        exact congrArg (Function.update · _ _) hsame.1

/-- An item that is refused is passed over with a warning. -/
private theorem storeLinks_ignored {item : Value} {text : Text}
    (h : acceptItem item = .error text) :
    storeLinks faults (item :: items) s =
      storeLinks faults items (s.say (.other .warning text)) := by
  rw [storeLinks, h]
  rfl

/-- A file that cannot be made stops this item. -/
private theorem storeLinks_unopened {item : Value} {url : Text} {e : OsError}
    (h : acceptItem item = .ok url) (hopen : openNew faults (linkName url) s = (.error e, s')) :
    storeLinks faults (item :: items) s = (.error e, s') := by
  rw [storeLinks, h]
  exact Fallible.bind_of_error (Fallible.bind_of_error hopen)

/-- A write that fails leaves what was written. -/
private theorem storeLinks_torn {item : Value} {url name : Text} {k : Nat} {e : OsError}
    (h : acceptItem item = .ok url) (hopen : openNew faults (linkName url) s = (.ok name, s'))
    (hwrite : faults.write s'.calls = some (k, e)) :
    storeLinks faults (item :: items) s =
      (.error e, s'.called.put (utf8 name) ((shortcut url).take k)) := by
  have hall : writeAll faults name (shortcut url) s' =
      (.error e, s'.called.put (utf8 name) ((shortcut url).take k)) := by
    rw [writeAll, hwrite]
  rw [storeLinks, h]
  refine Fallible.bind_of_error ?_
  unfold storeLink
  rw [Fallible.bind_of_ok hopen, Fallible.bind_of_error hall]

/-- A link that is written is stored and said to be. -/
theorem storeLinks_stored {item : Value} {url name : Text}
    (h : acceptItem item = .ok url) (hopen : openNew faults (linkName url) s = (.ok name, s'))
    (hwrite : faults.write s'.calls = none) :
    storeLinks faults (item :: items) s = storeLinks faults items
      ((s'.called.put (utf8 name) (shortcut url)).say (.linkStored name url)) := by
  have hall : writeAll faults name (shortcut url) s' =
      (.ok (), s'.called.put (utf8 name) (shortcut url)) := by
    rw [writeAll, hwrite]
  have hstore : storeLink faults url s =
      (.ok name, s'.called.put (utf8 name) (shortcut url)) := by
    unfold storeLink
    rw [Fallible.bind_of_ok hopen, Fallible.bind_of_ok hall]
    rfl
  rw [storeLinks, h]
  exact Fallible.bind_of_ok hstore

/-- **What a run of stores leaves**, from wherever the stores before it left things whole. -/
theorem storeLinks_leaves (hsub : items ⊆ all) (h : s₀.Whole all s) :
    s₀.Kept all (storeLinks faults items s).2 ∧
      (s₀.Whole all (storeLinks faults items s).2 ↔ WrittenOut faults items s) := by
  induction items generalizing s with
  | nil => exact ⟨h.toKept, fun _ => trivial, fun _ => h⟩
  | cons item items ih =>
    rw [List.cons_subset] at hsub
    have ih := fun s hs => @ih s hsub.2 hs
    unfold WrittenOut
    rcases haccept : acceptItem item with text | url
    · rw [storeLinks_ignored haccept]
      exact ih _ (h.say .warning text)
    · obtain ⟨rfl, hlink⟩ := acceptItem_iff.mp haccept
      have hafter := openFirst_after faults (linkName url) (candidateNames (linkName url)) s
      dsimp only
      rcases hopen : openNew faults (linkName url) s with ⟨e | name, s'⟩
      · -- nothing was created, and nothing more is done
        rw [show openFirst _ _ _ s = _ from hopen] at hafter
        rw [storeLinks_unopened haccept hopen]
        have hsame := h.of_eq hafter.1 hafter.2
        exact ⟨hsame.toKept, fun _ => trivial, fun _ => hsame⟩
      · rw [show openFirst _ _ _ s = _ from hopen] at hafter
        obtain ⟨hname, hfree, hentries, hlog⟩ := hafter
        -- what is written replaces the empty file
        have hput : ∀ data, (s'.called.put (utf8 name) data).entries =
            (s.put (utf8 name) data).entries := by
          intro data
          show Function.update s'.entries _ _ = Function.update s.entries _ _
          rw [hentries]
          exact Function.update_idem _ _ _
        dsimp only
        rcases hwrite : faults.write s'.calls with _ | ⟨k, e⟩
        · rw [storeLinks_stored haccept hopen hwrite]
          have hstored : s₀.Whole all
              ((s'.called.put (utf8 name) (shortcut url)).say (.linkStored name url)) :=
            (h.store hfree hname hlink hsub.1).of_eq (hput _) (congrArg (· ++ _) hlog)
          simpa using ih _ hstored
        · rw [storeLinks_torn haccept hopen hwrite]
          have htorn := h.not_put hfree ((shortcut url).take k)
          have hsame := hput ((shortcut url).take k)
          refine ⟨(h.toKept.put hfree _).of_eq hsame hlog, fun hwhole => ?_, fun hout => ?_⟩
          · exact absurd (hwhole.of_eq hsame.symm hlog.symm) htorn
          · cases hout.1

/-- **When an Ask leaves no broken shortcut.**  It does so exactly if every shortcut that it
    creates is written out. -/
theorem whole_storeLinks_iff (faults : LinkFaults) (items : List Value) (s : Inbox) :
    s.Whole items (storeLinks faults items s).2 ↔ WrittenOut faults items s :=
  (storeLinks_leaves (List.Subset.refl items) (.refl items s)).2

/-- Every link that was logged as stored stands there complete, whatever failed. -/
theorem kept_storeLinks (faults : LinkFaults) (items : List Value) (s : Inbox) :
    s.Kept items (storeLinks faults items s).2 :=
  (storeLinks_leaves (List.Subset.refl items) (.refl items s)).1

end

end Omdrop.Receiver
