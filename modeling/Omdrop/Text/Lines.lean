import Mathlib.Data.List.DropRight
import Mathlib.Data.List.TakeWhile
import Omdrop.Text.Basic

namespace Omdrop.Text

/-!
# Lines

Text as lines: `linesOn` cuts it at the characters that end a line, `unlines` ends every line with
a line feed, and `linesOn_unlines` says that lines without such characters come back.  `key=value`
lines are cut by `splitOnce`, and `valueOf` is what a line says about a key.
-/

/-- Cut text at the characters in `ends`, with `"\r\n"` one line end when `'\r'` is one; `line` is
    what came before, `cr` that it was a carriage return. -/
def linesFrom (ends : Char → Bool) (line : Text) (cr : Bool) : Text → List Text
  | []      => if line.isEmpty then [] else [line]
  | c :: cs =>
    if cr && c == '\n' then linesFrom ends [] false cs
    else if ends c then line :: linesFrom ends [] (c == '\r') cs
    else linesFrom ends (line ++ [c]) false cs

/-- The lines of a text; a last one without an end counts when it is not empty. -/
def linesOn (ends : Char → Bool) (t : Text) : List Text := linesFrom ends [] false t

/-- Every line with its end. -/
def unlines (lines : List Text) : Text := lines.flatMap (· ++ ['\n'])

/-- Lines with a line feed between them. -/
def joinLines : List Text → Text
  | []          => []
  | [l]         => l
  | l :: m :: t => l ++ '\n' :: joinLines (m :: t)

variable {ends : Char → Bool}

/-- A text that none of the characters in `ends` is in. -/
def Unbroken (ends : Char → Bool) (t : Text) : Prop := ∀ c ∈ t, ends c = false

/-- Two texts without a line end make one without. -/
theorem Unbroken.append {t u : Text} (ht : Unbroken ends t) (hu : Unbroken ends u) :
    Unbroken ends (t ++ u) := by
  intro c hc
  rcases List.mem_append.mp hc with hc | hc
  · exact ht c hc
  · exact hu c hc

/-- Fewer characters hold no more line ends. -/
theorem Unbroken.subset {t u : Text} (ht : Unbroken ends t) (h : u ⊆ t) : Unbroken ends u :=
  fun c hc => ht c (h hc)

/-- Joined lines with a newline behind them are lines with a newline each. -/
theorem joinLines_append (lines : List Text) (h : lines ≠ []) :
    joinLines lines ++ ['\n'] = unlines lines := by
  fun_induction joinLines lines with
  | case1 => exact absurd rfl h
  | case2 l => simp [unlines]
  | case3 l m t ih =>
    show (l ++ '\n' :: joinLines (m :: t)) ++ ['\n'] = (l ++ ['\n']) ++ unlines (m :: t)
    rw [← ih (by simp)]
    simp

/-- Reading a line on to its end. -/
theorem linesFrom_line (hends : ends '\n' = true) {l : Text} (hl : Unbroken ends l) (line : Text)
    (rest : Text) :
    linesFrom ends line false (l ++ '\n' :: rest) = (line ++ l) :: linesFrom ends [] false rest := by
  induction l generalizing line with
  | nil => simp [linesFrom, hends]
  | cons c l ih =>
    have hc : ends c = false := hl c List.mem_cons_self
    have ih := ih (fun d hd => hl d (List.mem_cons_of_mem _ hd)) (line ++ [c])
    simp only [List.append_assoc, List.singleton_append] at ih
    simpa [linesFrom, hc] using ih

/-- **Lines come back.** -/
theorem linesOn_unlines (hends : ends '\n' = true) {lines : List Text}
    (h : ∀ l ∈ lines, Unbroken ends l) : linesOn ends (unlines lines) = lines := by
  induction lines with
  | nil => rfl
  | cons l lines ih =>
    have ih := ih fun m hm => h m (List.mem_cons_of_mem _ hm)
    have hl := linesFrom_line hends (h l List.mem_cons_self) [] (unlines lines)
    show linesFrom ends [] false ((l ++ ['\n']) ++ unlines lines) = l :: lines
    rw [List.append_assoc, List.singleton_append, hl]
    exact congrArg (l :: ·) ih

/-- What comes behind a line feed is cut by itself. -/
theorem linesFrom_append (hends : ends '\n' = true) (line : Text) (cr : Bool) (t rest : Text) :
    linesFrom ends line cr (t ++ '\n' :: rest) =
      linesFrom ends line cr (t ++ ['\n']) ++ linesFrom ends [] false rest := by
  induction t generalizing line cr with
  | nil => cases cr <;> simp [linesFrom, hends]
  | cons c cs ih =>
    simp only [List.cons_append, linesFrom]
    split_ifs
    · exact ih _ _
    · rw [ih, List.cons_append]
    · exact ih _ _

/-- A last line that has no end in it is one. -/
theorem linesOn_unlines_concat (hends : ends '\n' = true) (lines : List Text) {l : Text}
    (hl : Unbroken ends l) :
    linesOn ends (unlines (lines ++ [l])) = linesOn ends (unlines lines) ++ [l] := by
  have hlast : linesFrom ends [] false (l ++ ['\n']) = [l] := linesFrom_line hends hl [] []
  have hunlines : ∀ lines : List Text, unlines (lines ++ [l]) = unlines lines ++ (l ++ ['\n']) :=
    fun lines => by simp [unlines]
  rw [hunlines]
  unfold linesOn
  rcases List.eq_nil_or_concat lines with rfl | ⟨front, m, rfl⟩
  · rw [show unlines [] = [] from rfl, List.nil_append, hlast]
    rfl
  · have hfeed : unlines (front ++ [m]) = (unlines front ++ m) ++ ['\n'] := by simp [unlines]
    rw [List.concat_eq_append, hfeed, List.append_assoc _ ['\n'], List.singleton_append,
      linesFrom_append hends, hlast]

/-- A line end at the end of a text adds no line that is not empty. -/
private theorem linesFrom_concat_end {e : Char} (he : ends e = true) {line : Text} {cr : Bool}
    (hcr : cr = true → line = []) (t : Text) :
    (linesFrom ends line cr (t ++ [e])).filter (!·.isEmpty) =
      (linesFrom ends line cr t).filter (!·.isEmpty) := by
  induction t generalizing line cr with
  | nil =>
    rw [List.nil_append, linesFrom, linesFrom, linesFrom]
    by_cases hfeed : (cr && e == '\n') = true
    · -- the line feed belongs to the carriage return before it
      rw [if_pos hfeed, hcr (Bool.and_eq_true_iff.mp hfeed).1]
    · rw [if_neg hfeed, if_pos he, linesFrom]
      cases line <;> rfl
  | cons c cs ih =>
    rw [List.cons_append, linesFrom, linesFrom]
    split_ifs
    · exact ih fun h => by cases h
    · rw [List.filter_cons, List.filter_cons, ih fun _ => rfl]
    · exact ih fun h => by cases h

/-- A line end behind a text adds at most an empty line. -/
theorem linesOn_concat_end {e : Char} (he : ends e = true) (t : Text) :
    (linesOn ends (t ++ [e])).filter (!·.isEmpty) = (linesOn ends t).filter (!·.isEmpty) :=
  linesFrom_concat_end he (fun _ => rfl) t

/-- No line holds a line end. -/
private theorem unbroken_of_mem_linesFrom {line : Text} (hline : Unbroken ends line) {cr : Bool}
    {t l : Text} (hl : l ∈ linesFrom ends line cr t) : Unbroken ends l := by
  have hnil : Unbroken ends [] := by simp [Unbroken]
  fun_induction linesFrom ends line cr t with
  | case1 => simp at hl
  | case2 line cr hne =>
    -- the last line has no end
    obtain rfl := List.mem_singleton.mp hl
    exact hline
  | case3 line cr c cs hcr ih => exact ih hnil hl
  | case4 line cr c cs hcr hc ih =>
    -- the line ends here
    rcases List.mem_cons.mp hl with rfl | hl
    · exact hline
    · exact ih hnil hl
  | case5 line cr c cs hcr hc ih =>
    -- the line goes on
    apply ih _ hl
    apply hline.append
    intro d hd
    obtain rfl := List.mem_singleton.mp hd
    simpa using hc

/-- No line holds a character that ends one. -/
theorem unbroken_of_mem_linesOn {t l : Text} (hl : l ∈ linesOn ends t) : Unbroken ends l :=
  unbroken_of_mem_linesFrom (by simp [Unbroken]) hl

/-! ### Lines that end with a line feed only -/

/-- A line without a carriage return at its end. -/
def stripCr (line : Text) : Text := if line.getLast? = some '\r' then line.dropLast else line

/-- Cut text at its line feeds, a carriage return before one a part of it; `line` is what came
    before. -/
def strLinesFrom (line : Text) : Text → List Text
  | []      => if line.isEmpty then [] else [line]
  | c :: cs =>
    if c == '\n' then stripCr line :: strLinesFrom [] cs else strLinesFrom (line ++ [c]) cs

/-- The lines of a text, as `str::lines` cuts them. -/
def strLines (t : Text) : List Text := strLinesFrom [] t

/-- Of the characters that end a line the text has line feeds only. -/
def Plain (ends : Char → Bool) (t : Text) : Prop := ∀ c ∈ t, ends c = true → c = '\n'

/-- A text without a line end is a plain one. -/
theorem Unbroken.plain {t : Text} (h : Unbroken ends t) : Plain ends t := by
  intro c hc hend
  rw [h c hc] at hend
  cases hend

/-- Two plain texts make a plain one. -/
theorem Plain.append {t u : Text} (ht : Plain ends t) (hu : Plain ends u) :
    Plain ends (t ++ u) := by
  intro c hc
  rcases List.mem_append.mp hc with hc | hc
  · exact ht c hc
  · exact hu c hc

/-- Unbroken lines with a newline each are a plain text. -/
theorem plain_unlines {lines : List Text} (h : ∀ l ∈ lines, Unbroken ends l) :
    Plain ends (unlines lines) := by
  intro c hc
  obtain ⟨l, hl, hc⟩ := List.mem_flatMap.mp hc
  rcases List.mem_append.mp hc with hc | hc
  · exact (h l hl).plain c hc
  · exact fun _ => List.mem_singleton.mp hc

/-- An unbroken line has no carriage return to strip. -/
theorem stripCr_of_unbroken (hcr : ends '\r' = true) {line : Text} (h : Unbroken ends line) :
    stripCr line = line := by
  unfold stripCr
  split
  · rename_i hlast
    have := h _ (List.mem_of_getLast? hlast)
    rw [hcr] at this
    cases this
  · rfl

/-- On a plain text the two ways to read lines agree. -/
private theorem strLinesFrom_eq (hends : ends '\n' = true) (hcr : ends '\r' = true) {t : Text}
    (ht : Plain ends t) {line : Text} (hline : Unbroken ends line) :
    strLinesFrom line t = linesFrom ends line false t := by
  induction t generalizing line with
  | nil => rfl
  | cons c cs ih =>
    have hcs : Plain ends cs := fun d hd => ht d (List.mem_cons_of_mem _ hd)
    by_cases hc : c = '\n'
    · subst hc
      have hrest : strLinesFrom [] cs = linesFrom ends [] false cs := ih hcs (by simp [Unbroken])
      simp [strLinesFrom, linesFrom, hends, stripCr_of_unbroken hcr hline, hrest]
    · have hend : ends c = false := by
        by_contra hend
        exact hc (ht c List.mem_cons_self (by simpa using hend))
      have hrest : strLinesFrom (line ++ [c]) cs = linesFrom ends (line ++ [c]) false cs :=
        ih hcs (hline.append (by simp [Unbroken, hend]))
      simp [strLinesFrom, linesFrom, hc, hend, hrest]

/-- **Plain text has the same lines either way.** -/
theorem strLines_eq_linesOn (hends : ends '\n' = true) (hcr : ends '\r' = true) {t : Text}
    (ht : Plain ends t) : strLines t = linesOn ends t :=
  strLinesFrom_eq hends hcr ht (by simp [Unbroken])

/-- A line is read up to its newline, without a carriage return before it. -/
theorem strLinesFrom_line {l : Text} (hl : '\n' ∉ l) (line rest : Text) :
    strLinesFrom line (l ++ '\n' :: rest) = stripCr (line ++ l) :: strLinesFrom [] rest := by
  induction l generalizing line with
  | nil => simp [strLinesFrom]
  | cons c l ih =>
    rw [List.mem_cons, not_or] at hl
    have hc : (c == '\n') = false := by
      rw [beq_eq_false_iff_ne]
      exact Ne.symm hl.1
    have ih := ih hl.2 (line ++ [c])
    rw [List.append_assoc, List.singleton_append] at ih
    rw [List.cons_append, strLinesFrom, hc, if_neg (by decide), ih]

/-- Lines come back, but for a carriage return at the end of one. -/
theorem strLines_unlines {lines : List Text} (h : ∀ l ∈ lines, '\n' ∉ l) :
    strLines (unlines lines) = lines.map stripCr := by
  induction lines with
  | nil => rfl
  | cons l lines ih =>
    have ih := ih fun m hm => h m (List.mem_cons_of_mem _ hm)
    show strLinesFrom [] ((l ++ ['\n']) ++ unlines lines) = _
    rw [List.append_assoc, List.singleton_append, strLinesFrom_line (h l List.mem_cons_self)]
    exact congrArg (stripCr l :: ·) ih

/-- Text without a line feed is the last line. -/
theorem strLinesFrom_last {l : Text} (hl : '\n' ∉ l) (line : Text) :
    strLinesFrom line l = if (line ++ l).isEmpty then [] else [line ++ l] := by
  induction l generalizing line with
  | nil => rw [List.append_nil, strLinesFrom]
  | cons c l ih =>
    rw [List.mem_cons, not_or] at hl
    have hc : (c == '\n') = false := by
      rw [beq_eq_false_iff_ne]
      exact Ne.symm hl.1
    have ih := ih hl.2 (line ++ [c])
    rw [List.append_assoc, List.singleton_append] at ih
    rw [strLinesFrom, hc, if_neg (by decide), ih]

/-- Lines come back without the line feed at the end of all. -/
theorem strLines_trimmed {lines : List Text}
    (h : ∀ l ∈ lines, l ≠ [] ∧ '\n' ∉ l ∧ stripCr l = l) :
    strLines ((unlines lines).rdropWhile (· == '\n')) = lines := by
  rcases List.eq_nil_or_concat lines with rfl | ⟨front, l, rfl⟩
  · rfl
  · rw [List.concat_eq_append] at h ⊢
    obtain ⟨hne, hl, -⟩ := h l (by simp)
    have hlast : l.getLast hne ≠ '\n' := fun hlast => hl (hlast ▸ List.getLast_mem hne)
    have htrim : (unlines (front ++ [l])).rdropWhile (· == '\n') = unlines front ++ l := by
      have hform : unlines (front ++ [l]) = unlines front ++ l ++ ['\n'] := by
        simp [unlines, List.append_assoc]
      rw [hform, List.rdropWhile_concat_pos _ _ _ (by decide),
        ← List.dropLast_append_getLast hne, ← List.append_assoc,
        List.rdropWhile_concat_neg _ _ _ (by simpa using hlast)]
    rw [htrim]
    clear htrim
    induction front with
    | nil =>
      show strLinesFrom [] l = [l]
      rw [strLinesFrom_last hl, if_neg (by simpa using hne), List.nil_append]
    | cons m front ih =>
      have ih := ih fun x hx => h x (List.mem_cons_of_mem _ hx)
      obtain ⟨-, hm, hcr⟩ := h m List.mem_cons_self
      show strLinesFrom [] ((m ++ ['\n']) ++ unlines front ++ l) = m :: (front ++ [l])
      rw [List.append_assoc, List.append_assoc, List.singleton_append, strLinesFrom_line hm,
        List.nil_append, hcr]
      exact congrArg (m :: ·) ih

/-- Stripping adds no character. -/
private theorem stripCr_subset (line : Text) : stripCr line ⊆ line := by
  unfold stripCr
  split
  · exact (List.dropLast_prefix line).subset
  · exact List.Subset.refl line

/-- No line holds a newline. -/
private theorem newline_not_mem_strLinesFrom {line : Text} (hline : '\n' ∉ line) {t l : Text}
    (hl : l ∈ strLinesFrom line t) : '\n' ∉ l := by
  induction t generalizing line with
  | nil =>
    unfold strLinesFrom at hl
    split at hl
    · simp at hl
    · rw [List.mem_singleton.mp hl]
      exact hline
  | cons c cs ih =>
    unfold strLinesFrom at hl
    split at hl
    · rcases List.mem_cons.mp hl with rfl | hl
      · exact fun hmem => hline (stripCr_subset _ hmem)
      · exact ih (by simp) hl
    · rename_i hc
      refine ih ?_ hl
      rw [List.mem_append, not_or, List.mem_singleton]
      exact ⟨hline, fun h => hc (by rw [h, beq_self_eq_true])⟩

/-- No line holds a line feed. -/
theorem newline_not_mem_strLines {t l : Text} (hl : l ∈ strLines t) : '\n' ∉ l :=
  newline_not_mem_strLinesFrom (by simp) hl

/-! ### `key=value` lines -/

/-- A line up to its first `'='`, all of it when it has none. -/
def keyOf (line : Text) : Text := line.takeWhile (· ≠ '=')

/-- A line cut at its first `'='`. -/
def splitOnce (line : Text) : Option (Text × Text) :=
  match line.dropWhile (· ≠ '=') with
  | []        => none
  | _ :: rest => some (keyOf line, rest)

/-- What a line says about a key. -/
def valueOf (key line : Text) : Option Text :=
  (splitOnce line).bind fun kv => if kv.1 = key then some kv.2 else none

/-- The line that sets a key. -/
def settingLine (key value : Text) : Text := key ++ '=' :: value

/-- A key is a part of its line. -/
private theorem keyOf_subset (line : Text) : keyOf line ⊆ line := (List.takeWhile_prefix _).subset

/-- A key holds no equals sign. -/
theorem eq_not_mem_keyOf (line : Text) : '=' ∉ keyOf line := by
  intro h
  have := List.mem_takeWhile_imp h
  simp at this

/-- After the key of a setting comes its equals sign. -/
private theorem dropWhile_settingLine {key : Text} (hkey : '=' ∉ key) (value : Text) :
    (settingLine key value).dropWhile (· ≠ '=') = '=' :: value := by
  unfold settingLine
  rw [List.dropWhile_append_of_pos]
  · simp
  · intro c hc
    have : c ≠ '=' := fun h => hkey (h ▸ hc)
    simpa using this

/-- The key of a setting is the one that it was written with. -/
private theorem keyOf_settingLine {key : Text} (hkey : '=' ∉ key) (value : Text) :
    keyOf (settingLine key value) = key := by
  unfold keyOf settingLine
  rw [List.takeWhile_append_of_pos]
  · simp
  · intro c hc
    have : c ≠ '=' := fun h => hkey (h ▸ hc)
    simpa using this

/-- A setting is divided into the key and the value that it was written with. -/
private theorem splitOnce_settingLine {key : Text} (hkey : '=' ∉ key) (value : Text) :
    splitOnce (settingLine key value) = some (key, value) := by
  unfold splitOnce
  rw [dropWhile_settingLine hkey, keyOf_settingLine hkey]

/-- A setting has its value for its key, and none for another. -/
theorem valueOf_settingLine {key : Text} (hkey : '=' ∉ key) (value key' : Text) :
    valueOf key' (settingLine key value) = if key = key' then some value else none := by
  unfold valueOf
  rw [splitOnce_settingLine hkey]
  rfl

/-- A line speaks of the key it starts with only. -/
theorem keyOf_of_valueOf {key line value : Text} (h : valueOf key line = some value) :
    keyOf line = key := by
  unfold valueOf splitOnce at h
  split at h
  · cases h
  · simp only [Option.bind_some] at h
    split at h
    · assumption
    · cases h

/-- The parts of a line make it. -/
private theorem settingLine_of_splitOnce {line key value : Text}
    (h : splitOnce line = some (key, value)) :
    settingLine key value = line := by
  unfold splitOnce at h
  split at h
  · cases h
  · rename_i c rest hdrop
    cases h
    have hc : c = '=' := by
      have hhead := List.head?_dropWhile_not (· ≠ '=') line
      rw [hdrop] at hhead
      simpa using hhead
    subst hc
    rw [settingLine, keyOf, ← hdrop, List.takeWhile_append_dropWhile]

/-- A line that has a value for a key is the setting of both. -/
theorem settingLine_of_valueOf {line key value : Text} (h : valueOf key line = some value) :
    settingLine key value = line := by
  unfold valueOf at h
  obtain ⟨⟨k, v⟩, hsplit, hkv⟩ := Option.bind_eq_some_iff.mp h
  split at hkv
  · rename_i hk
    cases hkv
    exact hk ▸ settingLine_of_splitOnce hsplit
  · cases hkv

/-- A setting takes one line when its key and its value do. -/
theorem unbroken_settingLine {key value : Text} (heq : ends '=' = false)
    (hkey : Unbroken ends key) (hvalue : Unbroken ends value) :
    Unbroken ends (settingLine key value) := by
  intro c hc
  rcases List.mem_append.mp hc with hc | hc
  · exact hkey c hc
  · rcases List.mem_cons.mp hc with rfl | hc
    · exact heq
    · exact hvalue c hc

/-- The parts of a line are parts of it. -/
theorem unbroken_of_splitOnce {line : Text} (hline : Unbroken ends line) {key value : Text}
    (h : splitOnce line = some (key, value)) : Unbroken ends key ∧ Unbroken ends value := by
  unfold splitOnce at h
  split at h
  · cases h
  · rename_i c rest hdrop
    cases h
    refine ⟨hline.subset (keyOf_subset line), hline.subset ?_⟩
    intro d hd
    apply (List.dropWhile_suffix (· ≠ '=')).subset
    rw [hdrop]
    exact List.mem_cons_of_mem _ hd

end Omdrop.Text
