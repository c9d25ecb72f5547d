import Omdrop.Identity.Store
import Omdrop.Machine.Pool

namespace Omdrop.Cli

open Omdrop.Text Omdrop.Identity

/-!
# Two writers of one settings file

The command line and the identity commands both read the settings file and replace it, the second
under the identity lock.  `settings_kept` says that a setting stays until it is set again, in runs
in which what a call replaces is what it read; `lost_setting` is a run in which it is not.
-/

/-! ### The two ways to set -/

/-- The last `KEY=` line of the settings file. -/
def settingGet (key : Text) (file : Option Text) : Text :=
  match file with
  | none      => []
  | some text =>
    ((strLines text).filterMap fun l =>
      if settingLine key [] <+: l then some (l.drop (key.length + 1)) else none).getLast?.getD []

/-- The settings file with a key's lines dropped and one appended; what could not be read counts as
    absent. -/
def settingSet (key value : Text) (file : Option Text) : Text :=
  unlines (((strLines (file.getD [])).filter fun l => ¬ settingLine key [] <+: l) ++
    [settingLine key value])

/-! ### Any number of calls at once -/

/-- The settings file, and whether the identity lock is taken. -/
structure Shared where
  settings : Option Text
  locked : Bool

/-- A call: of the command line, or of an identity command. -/
inductive Call
  | cli (key value : Text)
  | identity (changes : List (Text × Text))
  deriving DecidableEq, Repr

/-- How far a call has come: what it does next. -/
inductive Setter
  | cliRead (key value : Text)
  | cliWrite (key value : Text) (file : Option Text)
  | lock (changes : List (Text × Text))
  | identityRead (changes : List (Text × Text))
  | identityWrite (changes : List (Text × Text)) (text : Text)
  | done
  deriving DecidableEq, Repr

/-- The next step of a call, with what it set when it has set something; `fails` says that what it
    reads or writes next cannot be. -/
def Setter.advance (fails : Bool) (p : Setter) (s : Shared) :
    Setter × List (List (Text × Text)) × Shared :=
  match p with
  | .cliRead key value => (.cliWrite key value (if fails then none else s.settings), [], s)
  | .cliWrite key value file =>
    if fails then (.done, [], s)
    else (.done, [[(key, value)]], { s with settings := some (settingSet key value file) })
  | .lock changes =>
    if s.locked then (.lock changes, [], s)
    else (.identityRead changes, [], { s with locked := true })
  | .identityRead changes =>
    if fails then (.done, [], { s with locked := false })
    else (.identityWrite changes (s.settings.getD []), [], s)
  | .identityWrite changes text =>
    if fails then (.done, [], { s with locked := false })
    else
      (.done, [changes], { settings := some (setSettings changes text), locked := false })
  | .done => (.done, [], s)

/-- Where a call starts. -/
def Setter.start : Call → Setter
  | .cli key value     => .cliRead key value
  | .identity changes  => .lock changes

/-- Any number of calls at once; nothing else writes the file. -/
def setters : Pool Shared Setter Call Bool Empty (List (Text × Text)) :=
  ⟨Setter.start, Setter.advance, fun e _ => e.elim⟩

/-- What the settings file says of a key. -/
def Shared.field (s : Shared) (key : Text) : Option Text := (fieldsOf s.settings).lookup key

/-- What some changes set a key to. -/
def setTo (key : Text) (changes : List (Text × Text)) : Option Text := changes.reverse.lookup key

/-! ### What setting does -/

/-- A line that starts with a key and an equals sign speaks of the key. -/
theorem starts_iff {key line : Text} (hkey : '=' ∉ key) :
    settingLine key [] <+: line ↔ (valueOf key line).isSome := by
  constructor
  · rintro ⟨value, rfl⟩
    rw [show settingLine key [] ++ value = settingLine key value by simp [settingLine],
      valueOf_settingLine hkey, if_pos rfl]
    rfl
  · intro h
    obtain ⟨value, hvalue⟩ := Option.isSome_iff_exists.mp h
    exact ⟨value, by simpa [settingLine] using settingLine_of_valueOf hvalue⟩

/-- The lines of plain text, for either reader. -/
theorem strLines_eq {text : Text} (h : Plain isLineEnd text) : strLines text = splitlines text :=
  strLines_eq_linesOn rfl rfl h

/-- A line of a plain text holds no line end. -/
theorem unbroken_of_mem_strLines {text l : Text} (h : Plain isLineEnd text)
    (hl : l ∈ strLines text) : Unbroken isLineEnd l :=
  unbroken_of_mem_linesOn (strLines_eq h ▸ hl)

/-- The command line and the identity commands read the same value. -/
theorem settingGet_eq {key : Text} (hkey : '=' ∉ key) {file : Option Text}
    (hfile : Plain isLineEnd (file.getD [])) :
    settingGet key file = ((fieldsOf file).lookup key).getD [] := by
  have hreads : ∀ line : Text, (if settingLine key [] <+: line then some (line.drop (key.length + 1))
      else none) = valueOf key line := by
    intro line
    by_cases hstarts : settingLine key [] <+: line
    · obtain ⟨value, hvalue⟩ := Option.isSome_iff_exists.mp ((starts_iff hkey).mp hstarts)
      have hline := settingLine_of_valueOf hvalue
      rw [if_pos hstarts, hvalue, ← hline]
      simp [settingLine, List.drop_append]
    · rw [if_neg hstarts]
      exact (Option.not_isSome_iff_eq_none.mp (mt (starts_iff hkey).mpr hstarts)).symm
  cases file with
  | none      => rfl
  | some text =>
    show ((strLines text).filterMap _).getLast?.getD [] = _
    rw [@strLines_eq text hfile, funext hreads, List.getLast?_filterMap]
    show _ = ((parseSettings text).lookup key).getD []
    rw [lookup_parseSettings]
    rfl

/-- **The command line sets** what it is asked to, and nothing else. -/
theorem lookup_settingSet {key value : Text} (hclean : Clean key value) {file : Option Text}
    (hfile : Plain isLineEnd (file.getD [])) (other : Text) :
    (fieldsOf (some (settingSet key value file))).lookup other =
      (setTo other [(key, value)]).or ((fieldsOf file).lookup other) := by
  have hlines : ∀ l ∈ ((strLines (file.getD [])).filter fun l => ¬ settingLine key [] <+: l) ++
      [settingLine key value], Unbroken isLineEnd l := by
    intro l hl
    rcases List.mem_append.mp hl with hl | hl
    · exact unbroken_of_mem_strLines hfile (List.mem_of_mem_filter hl)
    · obtain rfl := List.mem_singleton.mp hl
      exact hclean.unbroken
  show (parseSettings (settingSet key value file)).lookup other = _
  rw [lookup_parseSettings, settingSet, splitlines_unlines hlines, lastValue_append]
  have hset : lastValue other [settingLine key value] = setTo other [(key, value)] := by
    simpa [setTo] using @lastValue_changes [(key, value)] (by simpa using hclean) other
  rw [hset]
  by_cases hother : other = key
  · subst hother
    simp [setTo]
  · -- a line that is dropped speaks of the key that is set
    have hkept : lastValue other ((strLines (file.getD [])).filter
        fun l => ¬ settingLine key [] <+: l) = lastValue other (strLines (file.getD [])) := by
      apply lastValue_filter
      intro l hl
      have hstarts : settingLine key [] <+: l := by simpa using hl
      obtain ⟨v, hv⟩ := Option.isSome_iff_exists.mp ((starts_iff hclean.1).mp hstarts)
      rcases hvalue : valueOf other l with _ | v'
      · rfl
      · exact absurd ((keyOf_of_valueOf hvalue).symm.trans (keyOf_of_valueOf hv)) hother
    rw [hkept, strLines_eq hfile, fieldsOf, lookup_parseSettings]

/-! ### Lines within lines -/

/-- What a line of the command line's says about a key: the last of the identity commands' lines in
    it that speaks of the key. -/
def heard (key line : Text) : Option Text := lastValue key (splitlines line)

/-- What the last of some lines that speaks of a key says about it. -/
def lastHeard (key : Text) (lines : List Text) : Option Text := lines.reverse.findSome? (heard key)

/-- An empty line speaks of no key. -/
theorem lastValue_notEmpty (key : Text) (lines : List Text) :
    lastValue key (lines.filter (!·.isEmpty)) = lastValue key lines := by
  apply lastValue_filter
  intro l hl
  rw [Bool.not_eq_false', List.isEmpty_iff] at hl
  rw [hl]
  rfl

/-- A line end behind a line changes nothing of what it sets. -/
theorem heard_concat_end {e : Char} (he : isLineEnd e = true) (key line : Text) :
    lastValue key (splitlines (line ++ [e])) = heard key line := by
  unfold heard splitlines
  rw [← lastValue_notEmpty, linesOn_concat_end he, lastValue_notEmpty]

/-- A carriage return at the end changes nothing of what a line sets. -/
private theorem heard_stripCr (key line : Text) : heard key (stripCr line) = heard key line := by
  unfold stripCr
  split
  · rename_i hlast
    have hline := List.dropLast_append_getLast? '\r' hlast
    rw [← heard_concat_end (e := '\r') rfl, hline]
    rfl
  · rfl

/-- What comes behind a line feed is said after what comes before it. -/
theorem lastValue_feed (key line rest : Text) :
    lastValue key (splitlines (line ++ '\n' :: rest)) =
      (lastValue key (splitlines rest)).or (heard key line) := by
  have hcut : splitlines (line ++ '\n' :: rest) = splitlines (line ++ ['\n']) ++ splitlines rest :=
    linesFrom_append rfl _ _ _ _
  rw [hcut, lastValue_append, heard_concat_end rfl]

/-- A later line decides before this one. -/
theorem lastHeard_cons (key line : Text) (lines : List Text) :
    lastHeard key (line :: lines) = (lastHeard key lines).or (heard key line) := by
  unfold lastHeard
  rw [List.reverse_cons, List.findSome?_append, List.findSome?_singleton]

/-- Lines that are written are read back, whatever line ends they hold. -/
private theorem lastValue_unlines (key : Text) (lines : List Text) :
    lastValue key (splitlines (unlines lines)) = lastHeard key lines := by
  induction lines with
  | nil => rfl
  | cons line lines ih =>
    show lastValue key (splitlines ((line ++ ['\n']) ++ unlines lines)) = _
    rw [List.append_assoc, List.singleton_append, lastValue_feed, ih, lastHeard_cons]

/-- The two readers cut a text at the same line feeds. -/
private theorem lastValue_strLines (key text : Text) :
    lastValue key (splitlines text) = lastHeard key (strLines text) := by
  induction hlen : text.length using Nat.strong_induction_on generalizing text with
  | _ n ih =>
    by_cases hfeed : '\n' ∈ text
    · obtain ⟨line, rest, rfl, hline⟩ := List.eq_append_cons_of_mem hfeed
      have hrest := ih rest.length (by simp at hlen; omega) rest rfl
      have hcut : strLines (line ++ '\n' :: rest) = stripCr line :: strLines rest :=
        strLinesFrom_line hline [] rest
      rw [lastValue_feed, hrest, hcut, lastHeard_cons, heard_stripCr]
    · have hlast : strLines text = if text.isEmpty then [] else [text] :=
        strLinesFrom_last hfeed []
      rw [hlast]
      split_ifs with hempty
      · rw [List.isEmpty_iff.mp hempty]
        rfl
      · rw [lastHeard_cons]
        rfl

/-- Of the lines of a file, one that goes when `key` is set decides `other`: behind another line
    end it says of `other` what no line after it speaks of, and what the lines before it that stay
    do not say. -/
def DecidedByDropped (key other : Text) (lines : List Text) : Prop :=
  ∃ before line after, lines = before ++ line :: after ∧ settingLine key [] <+: line ∧
    (heard other line).isSome ∧ (∀ l ∈ after, heard other l = none) ∧
    heard other line ≠ lastHeard other (before.filter fun l => ¬ settingLine key [] <+: l)

/-- Leaving out elements changes what is found first exactly if the first of all is left out, and
    the first of those that stay is another. -/
theorem findSome?_filter_iff {α β : Type} (p : α → Bool) (f : α → Option β) (xs : List α) :
    (xs.filter p).findSome? f = xs.findSome? f ↔
      ¬ ∃ before x after, xs = before ++ x :: after ∧ p x = false ∧ (f x).isSome ∧
        (∀ y ∈ before, f y = none) ∧ f x ≠ (after.filter p).findSome? f := by
  induction xs with
  | nil => simp
  | cons y ys ih =>
    cases hy : f y with
    | none =>
      -- what says nothing comes before whatever is found
      have hskip : ((y :: ys).filter p).findSome? f = (ys.filter p).findSome? f := by
        rw [List.filter_cons]
        split
        · rw [List.findSome?_cons, hy]
        · rfl
      rw [hskip, List.findSome?_cons, hy, ih, not_iff_not]
      constructor
      · rintro ⟨before, x, after, rfl, hx⟩
        exact ⟨y :: before, x, after, rfl, hx.1, hx.2.1, List.forall_mem_cons.mpr ⟨hy, hx.2.2.1⟩,
          hx.2.2.2⟩
      · rintro ⟨_ | ⟨z, before⟩, x, after, hys, hx, hsome, hbefore, hne⟩
        · cases hys
          rw [hy] at hsome
          cases hsome
        · cases hys
          exact ⟨before, x, after, rfl, hx, hsome, (List.forall_mem_cons.mp hbefore).2, hne⟩
    | some v =>
      have hfirst : ∀ {before : List α} {x : α} {after : List α}, y :: ys = before ++ x :: after →
          (∀ z ∈ before, f z = none) → x = y ∧ after = ys := by
        rintro (_ | ⟨z, before⟩) x after hys hbefore
        · cases hys
          exact ⟨rfl, rfl⟩
        · cases hys
          rw [(List.forall_mem_cons.mp hbefore).1] at hy
          cases hy
      rw [List.findSome?_cons, hy]
      by_cases hp : p y = true
      · rw [List.filter_cons_of_pos hp, List.findSome?_cons, hy]
        refine iff_of_true rfl ?_
        rintro ⟨before, x, after, hys, hx, -, hbefore, -⟩
        obtain ⟨rfl, -⟩ := hfirst hys hbefore
        rw [hp] at hx
        cases hx
      · rw [List.filter_cons_of_neg hp]
        constructor
        · rintro hsame ⟨before, x, after, hys, -, -, hbefore, hne⟩
          obtain ⟨rfl, rfl⟩ := hfirst hys hbefore
          exact hne (hy.trans hsame.symm)
        · intro hnone
          by_contra hne
          exact hnone ⟨[], y, ys, rfl, by simpa using hp, by rw [hy]; rfl, by simp,
            fun h => hne (h.symm.trans hy)⟩

/-- **What the lines that go take along.** -/
theorem lastHeard_filter_iff (key other : Text) (lines : List Text) :
    lastHeard other (lines.filter fun l => ¬ settingLine key [] <+: l) = lastHeard other lines ↔
      ¬ DecidedByDropped key other lines := by
  unfold lastHeard
  rw [← List.filter_reverse, findSome?_filter_iff, not_iff_not]
  constructor
  · rintro ⟨after, line, before, hlines, hdropped, hsome, hafter, hne⟩
    refine ⟨before.reverse, line, after.reverse, ?_, by simpa using hdropped, hsome, ?_, ?_⟩
    · rw [← List.reverse_eq_iff.mpr hlines.symm]
      simp
    · exact fun l hl => hafter l (List.mem_reverse.mp hl)
    · rw [lastHeard, List.filter_reverse, List.reverse_reverse]
      exact hne
  · rintro ⟨before, line, after, rfl, hdropped, hsome, hafter, hne⟩
    refine ⟨after.reverse, line, before.reverse, by simp, by simpa using hdropped, hsome, ?_, ?_⟩
    · exact fun l hl => hafter l (List.mem_reverse.mp hl)
    · rw [List.filter_reverse]
      exact hne

/-- A value that a reader finds holds no line end. -/
private theorem unbroken_of_lookup {text key value : Text}
    (h : (parseSettings text).lookup key = some value) : Unbroken isLineEnd value := by
  rw [lookup_parseSettings] at h
  obtain ⟨line, hline, hvalue⟩ := List.exists_of_findSome?_eq_some h
  have hunbroken : Unbroken isLineEnd line :=
    unbroken_of_mem_linesOn (List.mem_reverse.mp hline)
  rw [← settingLine_of_valueOf hvalue] at hunbroken
  exact hunbroken.subset (List.subset_append_of_subset_right _ (List.subset_cons_self _ _))

/-- **What the command line sets is set**, and nothing else, exactly when the value holds no line
    end and no line that goes decides another key. -/
theorem settingSet_overlays_iff {key : Text} (heq : '=' ∉ key) (hkey : Unbroken isLineEnd key)
    (value : Text) (file : Option Text) :
    (∀ other, (fieldsOf (some (settingSet key value file))).lookup other =
        ((fieldsOf file).insert key value).lookup other) ↔
      Unbroken isLineEnd value ∧
        ∀ other ≠ key, ¬ DecidedByDropped key other (strLines (file.getD [])) := by
  have hfields (other : Text) :
      (fieldsOf file).lookup other = lastHeard other (strLines (file.getD [])) := by
    rw [← lastValue_strLines, ← lookup_parseSettings]
    cases file <;> rfl
  -- the line that was written decides its key, and the lines that were kept the others
  have hset (hvalue : Unbroken isLineEnd value) (other : Text) :
      (fieldsOf (some (settingSet key value file))).lookup other =
        (if key = other then some value else none).or (lastHeard other
          ((strLines (file.getD [])).filter fun l => ¬ settingLine key [] <+: l)) := by
    show (parseSettings (settingSet key value file)).lookup other = _
    have hline : Unbroken isLineEnd (settingLine key value) := unbroken_settingLine rfl hkey hvalue
    rw [lookup_parseSettings, settingSet, splitlines, linesOn_unlines_concat rfl _ hline,
      lastValue_append, ← lastValue_unlines]
    rw [show lastValue other [settingLine key value] = valueOf other (settingLine key value) from
      List.findSome?_singleton, valueOf_settingLine heq]
    rfl
  constructor
  · intro h
    -- a value that is read back takes one line
    have hvalue : Unbroken isLineEnd value := by
      have hfound := h key
      rw [AList.lookup_insert] at hfound
      exact unbroken_of_lookup hfound
    refine ⟨hvalue, fun other hother => (lastHeard_filter_iff key other _).mp ?_⟩
    have hfound := h other
    rw [hset hvalue, if_neg (Ne.symm hother), Option.none_or, AList.lookup_insert_ne hother] at hfound
    rw [hfound, hfields]
  · rintro ⟨hvalue, hdropped⟩ other
    rw [hset hvalue]
    by_cases hother : other = key
    · subst hother
      rw [if_pos rfl, Option.some_or, AList.lookup_insert]
    · rw [if_neg (Ne.symm hother), Option.none_or, AList.lookup_insert_ne hother, hfields]
      exact (lastHeard_filter_iff key other _).mpr (hdropped other hother)

/-- A folder that was picked, over a file that names another; a line that goes holds a line for the
    sound, which a later line decides. -/
theorem settingSet_overlays_folder :
    let key : Text := "send_from".toList
    let file : Option Text := some "send_from=/tmp\rsound=off\nsound=on\n".toList
    (∀ other, (fieldsOf (some (settingSet key "/home".toList file))).lookup other =
        ((fieldsOf file).insert key "/home".toList).lookup other) ↔
      Unbroken isLineEnd "/home".toList ∧
        ∀ other ≠ key, ¬ DecidedByDropped key other (strLines (file.getD [])) :=
  settingSet_overlays_iff (by decide) (by unfold Unbroken; decide) _ _

/-- **A folder sets the source.**  Its name holds a line feed. -/
theorem folder_sets_source :
    (fieldsOf (some (settingSet "send_from".toList
        "/home/a\nidentity_source=self-signed".toList none))).lookup "identity_source".toList ≠
      ((fieldsOf none).insert "send_from".toList
        "/home/a\nidentity_source=self-signed".toList).lookup "identity_source".toList := by
  decide

/-- A clean change leaves a plain text plain. -/
private theorem plain_settingSet {key value : Text} (hclean : Clean key value) {file : Option Text}
    (hfile : Plain isLineEnd (file.getD [])) : Plain isLineEnd (settingSet key value file) := by
  apply plain_unlines
  intro l hl
  rcases List.mem_append.mp hl with hl | hl
  · exact unbroken_of_mem_strLines hfile (List.mem_of_mem_filter hl)
  · obtain rfl := List.mem_singleton.mp hl
    exact hclean.unbroken

/-- Several clean changes leave a plain text plain. -/
private theorem plain_setSettings {changes : List (Text × Text)}
    (hclean : ∀ kv ∈ changes, Clean kv.1 kv.2)
    (text : Text) : Plain isLineEnd (setSettings changes text) := by
  have hlines : ∀ l ∈ ((splitlines text).filter fun l => keyOf l ∉ changes.map Prod.fst) ++
      changes.map fun kv => settingLine kv.1 kv.2, Unbroken isLineEnd l := by
    intro l hl
    rcases List.mem_append.mp hl with hl | hl
    · exact unbroken_of_mem_linesOn (List.mem_of_mem_filter hl)
    · obtain ⟨kv, hkv, rfl⟩ := List.mem_map.mp hl
      exact (hclean kv hkv).unbroken
  show Plain isLineEnd (joinLines (((splitlines text).filter fun l =>
    keyOf l ∉ changes.map Prod.fst) ++ changes.map fun kv => settingLine kv.1 kv.2) ++ ['\n'])
  by_cases hne : ((splitlines text).filter fun l => keyOf l ∉ changes.map Prod.fst) ++
      changes.map (fun kv => settingLine kv.1 kv.2) = []
  · rw [hne]
    intro c hc _
    exact List.mem_singleton.mp hc
  · rw [joinLines_append _ hne]
    exact plain_unlines hlines

/-! ### Runs -/

/-- A step that loses nothing: what a call replaces is what it read, and what it sets makes
    lines. -/
def Intact (s : Shared) (p : Setter) (fails : Bool) : Prop :=
  match p with
  | .cliWrite key value file      => fails = false → file = s.settings ∧ Clean key value
  | .identityWrite changes text   =>
    fails = false → text = s.settings.getD [] ∧ ∀ kv ∈ changes, Clean kv.1 kv.2
  | _                             => True

/-- What a step set a key to. -/
def setBy (key : Text) (events : List (List (Text × Text))) : Option Text :=
  events.findSome? (setTo key)

@[simp] theorem setBy_singleton (key : Text) (changes : List (Text × Text)) :
    setBy key [changes] = setTo key changes := by
  simp [setBy]

/-- Of the characters that end a line the settings file has line feeds only. -/
def Shared.plain (s : Shared) : Prop := Plain isLineEnd (s.settings.getD [])

/-- **One step** changes what it sets, and nothing else. -/
theorem advance_field {s : Shared} {p : Setter} {fails : Bool} (h : Intact s p fails)
    (hs : s.plain) :
    (p.advance fails s).2.2.plain ∧ ∀ key, (p.advance fails s).2.2.field key =
      (setBy key (p.advance fails s).2.1).or (s.field key) := by
  cases p with
  | cliRead key value => exact ⟨hs, fun _ => rfl⟩
  | done              => exact ⟨hs, fun _ => rfl⟩
  | lock changes      =>
    by_cases hlocked : s.locked = true
    · simp only [Setter.advance, if_pos hlocked]
      exact ⟨hs, fun _ => rfl⟩
    · simp only [Setter.advance, if_neg hlocked]
      exact ⟨hs, fun _ => rfl⟩
  | identityRead changes =>
    by_cases hfails : fails = true
    · simp only [Setter.advance, if_pos hfails]
      exact ⟨hs, fun _ => rfl⟩
    · simp only [Setter.advance, if_neg hfails]
      exact ⟨hs, fun _ => rfl⟩
  | cliWrite key value file =>
    by_cases hfails : fails = true
    · simp only [Setter.advance, if_pos hfails]
      exact ⟨hs, fun _ => rfl⟩
    · obtain ⟨rfl, hclean⟩ := h (by simpa using hfails)
      simp only [Setter.advance, if_neg hfails]
      refine ⟨plain_settingSet hclean hs, fun other => ?_⟩
      rw [setBy_singleton]
      exact lookup_settingSet hclean hs other
  | identityWrite changes text =>
    by_cases hfails : fails = true
    · simp only [Setter.advance, if_pos hfails]
      exact ⟨hs, fun _ => rfl⟩
    · obtain ⟨rfl, hclean⟩ := h (by simpa using hfails)
      simp only [Setter.advance, if_neg hfails]
      refine ⟨plain_setSettings hclean _, fun other => ?_⟩
      rw [setBy_singleton]
      exact lookup_setSettings hclean _ other

abbrev Action := Pool.Action Call Bool Empty

/-- The same for a step of all calls. -/
theorem step_field {s : Pool.State Shared Setter (List (Text × Text))} {a : Action}
    (ha : ∀ k fails, a = .advance k fails → ∀ p past, s.procs[k]? = some (p, past) →
      Intact s.shared p fails) (hs : s.shared.plain) :
    (setters.step s a).1.shared.plain ∧ ∀ key, (setters.step s a).1.shared.field key =
      (setBy key (setters.step s a).2).or (s.shared.field key) := by
  cases a with
  | start c => exact ⟨hs, fun _ => rfl⟩
  | outside e => exact e.elim
  | advance k fails =>
    rcases hk : s.procs[k]? with _ | ⟨p, past⟩
    · simp only [Pool.step, hk]
      exact ⟨hs, fun _ => rfl⟩
    · simp only [Pool.step, hk]
      exact advance_field (ha k fails rfl p past hk) hs

/-- The text stays plain in every run. -/
private theorem run_plain {s : Pool.State Shared Setter (List (Text × Text))} {as : List Action}
    (has : setters.Legal Intact s as) (hs : s.shared.plain) :
    (setters.machine.run s as).shared.plain := by
  induction as generalizing s with
  | nil => exact hs
  | cons a as ih => exact ih has.tail (step_field has.head hs).1

/-- While no step sets a key, the settings say of it what they said. -/
private theorem run_field {key : Text} {s : Pool.State Shared Setter (List (Text × Text))}
    {as : List Action} (has : setters.Legal Intact s as) (hs : s.shared.plain)
    (hnone : ∀ events ∈ setters.machine.answers s as, setBy key events = none) :
    (setters.machine.run s as).shared.field key = s.shared.field key := by
  induction as generalizing s with
  | nil => rfl
  | cons a as ih =>
    obtain ⟨hplain, hfield⟩ := step_field has.head hs
    have hrest := ih has.tail hplain fun events he => hnone events (List.mem_cons_of_mem _ he)
    have hquiet : setBy key (setters.step s a).2 = none := hnone _ List.mem_cons_self
    have hstep := hfield key
    rw [hquiet, Option.none_or] at hstep
    exact hrest.trans hstep

/-- **No setting is lost.**  When every call replaces what it read, a key that a call has set says
    so until a call sets it again. -/
theorem settings_kept {s : Shared} (hs : s.plain) {pre post : List Action} {a : Action}
    (has : setters.Legal Intact ⟨s, []⟩ (pre ++ a :: post)) {key value : Text}
    (hset : setBy key (setters.step (setters.machine.run ⟨s, []⟩ pre) a).2 = some value)
    (hnone : ∀ events ∈ setters.machine.answers (setters.machine.run ⟨s, []⟩ (pre ++ [a])) post,
      setBy key events = none) :
    (setters.machine.run ⟨s, []⟩ (pre ++ a :: post)).shared.field key = some value := by
  have hpre : (setters.machine.run ⟨s, []⟩ pre).shared.plain := run_plain has.of_append hs
  have hthen := has.append_right
  obtain ⟨hplain, hfield⟩ := step_field hthen.head hpre
  rw [Machine.run_append] at hnone
  rw [Machine.run_append, Machine.run_cons]
  calc _ = _ := run_field hthen.tail hplain hnone
    _ = some value := by rw [hfield key, hset, Option.some_or]

/-- A run in which an identity command sets the source, and then the command line the folder. -/
def sampleRun : List Action :=
  [.start (.identity [("identity_source".toList, "1password".toList)]),
    .start (.cli "send_from".toList "/tmp".toList),
    .advance 0 false, .advance 0 false, .advance 0 false, .advance 1 false, .advance 1 false]

/-- Of two writers that take turns, the choice of the first is kept. -/
theorem settings_kept_sample :
    (setters.machine.run ⟨⟨none, false⟩, []⟩ sampleRun).shared.field "identity_source".toList =
      some "1password".toList := by
  refine @settings_kept ⟨none, false⟩ ?_ (sampleRun.take 4) (sampleRun.drop 5) (.advance 0 false) ?_
    _ _ ?_ ?_
  · intro c hc
    simp at hc
  · have hids : Clean "identity_source".toList "1password".toList := by
      unfold Clean Unbroken
      decide
    have hfolder : Clean "send_from".toList "/tmp".toList := by
      unfold Clean Unbroken
      decide
    refine .cons (by rintro _ _ ⟨⟩) (.cons (by rintro _ _ ⟨⟩) ?_)
    refine .cons (by rintro _ _ ⟨⟩ _ _ ⟨⟩; trivial) (.cons (by rintro _ _ ⟨⟩ _ _ ⟨⟩; trivial) ?_)
    refine .cons (by rintro _ _ ⟨⟩ _ _ ⟨⟩; exact fun _ => ⟨rfl, by simpa using hids⟩) ?_
    refine .cons (by rintro _ _ ⟨⟩ _ _ ⟨⟩; trivial) ?_
    exact .cons (by rintro _ _ ⟨⟩ _ _ ⟨⟩; exact fun _ => ⟨rfl, hfolder⟩) .nil
  · decide
  · decide

/-- **A setting is lost.**  The command line reads the file, an identity command sets the source
    under its lock, and the command line writes what it read. -/
theorem lost_setting :
    let s := setters.machine.run ⟨⟨none, false⟩, []⟩
      [.start (.cli "send_from".toList "/tmp".toList),
        .start (.identity [("identity_source".toList, "1password".toList)]),
        .advance 0 false, .advance 1 false, .advance 1 false, .advance 1 false]
    s.shared.field "identity_source".toList = some "1password".toList ∧
      (setters.step s (.advance 0 false)).2 = [[("send_from".toList, "/tmp".toList)]] ∧
      (setters.step s (.advance 0 false)).1.shared.field "identity_source".toList = none := by
  decide

end Omdrop.Cli
