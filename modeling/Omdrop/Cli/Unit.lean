import Mathlib.Data.List.Infix
import Omdrop.Text.Lines

namespace Omdrop

/-!
# The receiver's unit

`renderUnit` fills the plugin's template in.  `renderUnit_lines` says that what it comes to has
the lines of the template and no others, whatever the paths.
-/

namespace Text

/-- What follows the start of a text. -/
def afterStart (start t : Text) : Option Text :=
  if start <+: t then some (t.drop start.length) else none

/-- What follows the first occurrence of a pattern. -/
def afterFirst (pat : Text) : Text → Option Text
  | []      => if pat = [] then some [] else none
  | c :: cs => if pat <+: c :: cs then some ((c :: cs).drop pat.length) else afterFirst pat cs

/-- Text with every occurrence of a pattern replaced, from the left, `skip` characters of the last
    one being still to come. -/
def replaceFrom (pat new : Text) (skip : Nat) : Text → Text
  | []      => []
  | c :: cs =>
    match skip with
    | skip + 1 => replaceFrom pat new skip cs
    | 0        =>
      if pat <+: c :: cs then new ++ replaceFrom pat new (pat.length - 1) cs
      else c :: replaceFrom pat new 0 cs

/-- Text with every occurrence of a pattern replaced. -/
def replace (pat new t : Text) : Text := replaceFrom pat new 0 t

/-- Every character of what was replaced is of the text, or of what stands there now. -/
private theorem mem_replaceFrom {pat new : Text} {skip : Nat} {t : Text} {c : Char}
    (h : c ∈ replaceFrom pat new skip t) : c ∈ t ∨ c ∈ new := by
  induction t generalizing skip with
  | nil => exact absurd h List.not_mem_nil
  | cons d ds ih =>
    cases skip with
    | succ skip => exact (ih h).imp_left (List.mem_cons_of_mem _)
    | zero =>
      by_cases hpat : pat <+: d :: ds
      · simp only [replaceFrom, if_pos hpat] at h
        rcases List.mem_append.mp h with h | h
        · exact .inr h
        · exact (ih h).imp_left (List.mem_cons_of_mem _)
      · simp only [replaceFrom, if_neg hpat] at h
        rcases List.mem_cons.mp h with rfl | h
        · exact .inl List.mem_cons_self
        · exact (ih h).imp_left (List.mem_cons_of_mem _)

theorem mem_replace {pat new t : Text} {c : Char} (h : c ∈ replace pat new t) :
    c ∈ t ∨ c ∈ new := mem_replaceFrom h

/-- A part of a text is made of its characters, and not of the one it is split at. -/
theorem mem_part {c d : Char} {t l : Text} (h : l ∈ t.splitOn c) (hd : d ∈ l) :
    d ∈ t ∧ d ≠ c := by
  induction t generalizing l with
  | nil =>
    obtain rfl := List.mem_singleton.mp h
    exact absurd hd List.not_mem_nil
  | cons e es ih =>
    rw [List.splitOn_cons_eq_if_modifyHead] at h
    by_cases he : (e == c) = true
    · rw [if_pos he] at h
      rcases List.mem_cons.mp h with rfl | h
      · exact absurd hd List.not_mem_nil
      · exact (ih h hd).imp_left (List.mem_cons_of_mem _)
    · rw [if_neg he] at h
      rcases hparts : es.splitOn c with _ | ⟨part, parts⟩
      · exact absurd hparts (List.splitOn_ne_nil c es)
      · rw [hparts, List.modifyHead_cons] at h
        rw [hparts] at ih
        rcases List.mem_cons.mp h with rfl | h
        · rcases List.mem_cons.mp hd with rfl | hd
          · exact ⟨List.mem_cons_self, by simpa using he⟩
          · exact (ih List.mem_cons_self hd).imp_left (List.mem_cons_of_mem _)
        · exact (ih (List.mem_cons_of_mem _ h) hd).imp_left (List.mem_cons_of_mem _)

/-- Parts with a character between them are made of it and of their own. -/
theorem mem_intercalate {c d : Char} {parts : List Text} (h : d ∈ List.intercalate [c] parts) :
    d = c ∨ ∃ l ∈ parts, d ∈ l := by
  induction parts with
  | nil => exact absurd h List.not_mem_nil
  | cons l parts ih =>
    by_cases hparts : parts = []
    · subst hparts
      rw [List.intercalate_singleton] at h
      exact .inr ⟨l, List.mem_cons_self, h⟩
    · rw [List.intercalate_cons_of_ne_nil hparts] at h
      rcases List.mem_append.mp h with h | h
      · rcases List.mem_append.mp h with h | h
        · exact .inr ⟨l, List.mem_cons_self, h⟩
        · exact .inl (List.mem_singleton.mp h)
      · exact (ih h).imp_right fun ⟨m, hm, hd⟩ => ⟨m, List.mem_cons_of_mem _ hm, hd⟩

section Every

variable {α β : Type} {f : α → Option β} {l : List α} {l' : List β}

private theorem length_of_mapM (h : l.mapM f = some l') : l'.length = l.length := by
  induction l generalizing l' with
  | nil =>
    obtain rfl : [] = l' := by simpa using h
    rfl
  | cons a l ih =>
    rw [List.mapM_cons] at h
    obtain ⟨b, -, h⟩ := Option.bind_eq_some_iff.mp h
    obtain ⟨bs, hbs, h⟩ := Option.bind_eq_some_iff.mp h
    obtain rfl := Option.some.inj h
    exact congrArg (· + 1) (ih hbs)

theorem mem_of_mapM (h : l.mapM f = some l') {b : β} (hb : b ∈ l') : ∃ a ∈ l, f a = some b := by
  induction l generalizing l' with
  | nil =>
    obtain rfl : [] = l' := by simpa using h
    exact absurd hb List.not_mem_nil
  | cons a l ih =>
    rw [List.mapM_cons] at h
    obtain ⟨c, hc, h⟩ := Option.bind_eq_some_iff.mp h
    obtain ⟨cs, hcs, h⟩ := Option.bind_eq_some_iff.mp h
    obtain rfl := Option.some.inj h
    rcases List.mem_cons.mp hb with rfl | hb
    · exact ⟨a, List.mem_cons_self, hc⟩
    · obtain ⟨a', ha', hb⟩ := ih hcs hb
      exact ⟨a', List.mem_cons_of_mem _ ha', hb⟩

end Every

end Text

namespace Cli

open Omdrop.Text

/-! ### Rendering -/

/-- A path as one word of a unit: `%` and `$` doubled, and quoted when it holds a space or a
    quote.  `none` for a path with a line break or another control character. -/
def systemdQuote (s : Text) : Option Text :=
  if s.any isControl then none
  else
    let escaped := replace "$" "$$" (replace "%" "%%" s)
    if escaped.any (" \"'\\;".toList.contains ·) then
      some ('"' :: replace "\"" "\\\"" (replace "\\" "\\\\" escaped) ++ ['"'])
    else some escaped

/-- What the template says for the directory of the plugin. -/
def pluginDirMark : Text := "@PLUGIN_DIR@"

/-- One word of `ExecStart=`. -/
def renderWord (plugin word : Text) : Option Text :=
  if pluginDirMark <:+: word then systemdQuote (replace pluginDirMark plugin word) else some word

/-- One line of the unit. -/
def renderLine (plugin : Text) (receiver : Option Text) (line : Text) : Option Text :=
  match afterStart "ExecStart=" line with
  | some cmd =>
    match receiver, afterFirst (pluginDirMark ++ "/bin/airdrop-serve.py".toList) cmd with
    | some rx, some options => do
      return "ExecStart=".toList ++ (← systemdQuote rx) ++ options
    | _, _ => do
      let words ← (cmd.splitOn ' ').mapM (renderWord plugin)
      return "ExecStart=".toList ++ List.intercalate [' '] words
  | none => some (replace pluginDirMark (replace "%" "%%" plugin) line)

/-- The receiver's unit, from the plugin's template: the directory of the plugin filled in, and
    the core receiver in `ExecStart=` when it is installed.  `none` when a path holds a line
    break. -/
def renderUnit (template plugin : Text) (receiver : Option Text) : Option Text :=
  if plugin.any isControl then none
  else do
    let lines ← (template.splitOn '\n').mapM (renderLine plugin receiver)
    return List.intercalate ['\n'] lines

/-! ### No line of its own -/

theorem isControl_lineFeed : isControl '\n' = true := by decide

/-- A word that a path comes to has no line break. -/
theorem not_mem_systemdQuote {s word : Text} (h : systemdQuote s = some word) : '\n' ∉ word := by
  intro hmem
  by_cases hcontrol : s.any isControl = true
  · simp [systemdQuote, hcontrol] at h
  · have hs : '\n' ∉ s := by
      intro hc
      exact hcontrol (List.any_eq_true.mpr ⟨'\n', hc, isControl_lineFeed⟩)
    have hescaped : '\n' ∉ replace "$" "$$" (replace "%" "%%" s) := by
      intro hc
      rcases mem_replace hc with hc | hc
      · rcases mem_replace hc with hc | hc
        · exact hs hc
        · simp at hc
      · simp at hc
    simp only [systemdQuote, if_neg hcontrol] at h
    split at h
    · obtain rfl := Option.some.inj h
      rcases List.mem_append.mp hmem with hmem | hmem
      · rcases List.mem_cons.mp hmem with hmem | hmem
        · simp at hmem
        · rcases mem_replace hmem with hmem | hmem
          · rcases mem_replace hmem with hmem | hmem
            · exact hescaped hmem
            · simp at hmem
          · simp at hmem
      · simp at hmem
    · exact hescaped (Option.some.inj h ▸ hmem)

private theorem not_mem_renderWord {plugin word out : Text} (hword : '\n' ∉ word)
    (h : renderWord plugin word = some out) : '\n' ∉ out := by
  unfold renderWord at h
  split at h
  · exact not_mem_systemdQuote h
  · exact Option.some.inj h ▸ hword

theorem not_mem_afterFirst {pat t rest : Text} {c : Char} (h : afterFirst pat t = some rest)
    (hc : c ∉ t) : c ∉ rest := by
  induction t with
  | nil =>
    unfold afterFirst at h
    split at h
    · exact Option.some.inj h ▸ List.not_mem_nil
    · cases h
  | cons d ds ih =>
    unfold afterFirst at h
    split at h
    · exact Option.some.inj h ▸ fun hmem => hc (List.mem_of_mem_drop hmem)
    · exact ih h fun hmem => hc (List.mem_cons_of_mem _ hmem)

private theorem not_mem_renderLine {plugin : Text} {receiver : Option Text} {line out : Text}
    (hplugin : '\n' ∉ plugin) (hline : '\n' ∉ line)
    (h : renderLine plugin receiver line = some out) : '\n' ∉ out := by
  have hexec : '\n' ∉ "ExecStart=".toList := by decide
  unfold renderLine at h
  rcases hcmd : afterStart "ExecStart=" line with _ | cmd
  · -- any other line has its marks replaced
    rw [hcmd] at h
    obtain rfl := Option.some.inj h
    intro hc
    rcases mem_replace hc with hc | hc
    · exact hline hc
    · rcases mem_replace hc with hc | hc
      · exact hplugin hc
      · simp at hc
  · rw [hcmd] at h
    have hcmd' : '\n' ∉ cmd := by
      unfold afterStart at hcmd
      split at hcmd
      · exact Option.some.inj hcmd ▸ fun hmem => hline (List.mem_of_mem_drop hmem)
      · cases hcmd
    -- a command is rendered word by word
    have hwords : ∀ out, ((cmd.splitOn ' ').mapM (renderWord plugin) >>= fun words =>
        some ("ExecStart=".toList ++ List.intercalate [' '] words)) = some out → '\n' ∉ out := by
      intro out h
      obtain ⟨words, hwords, h⟩ := Option.bind_eq_some_iff.mp h
      obtain rfl := Option.some.inj h
      simp only [List.mem_append, not_or]
      refine ⟨hexec, fun hc => ?_⟩
      rcases mem_intercalate hc with hc | ⟨word, hword, hc⟩
      · simp at hc
      · obtain ⟨w, hw, hrender⟩ := mem_of_mapM hwords hword
        exact not_mem_renderWord (fun hmem => hcmd' (mem_part hw hmem).1) hrender hc
    cases receiver with
    | none => exact hwords out h
    -- the receiver of an override takes the place of the plugin's own
    | some rx =>
      rcases hoptions : afterFirst (pluginDirMark ++ "/bin/airdrop-serve.py".toList) cmd with
        _ | options
      · simp only [hoptions] at h
        exact hwords out h
      · simp only [hoptions] at h
        obtain ⟨word, hword, h⟩ := Option.bind_eq_some_iff.mp h
        obtain rfl := Option.some.inj h
        simp only [List.mem_append, not_or]
        exact ⟨⟨hexec, not_mem_systemdQuote hword⟩, not_mem_afterFirst hoptions hcmd'⟩

/-- **The lines of the template.**  The unit has as many lines as the template. -/
theorem renderUnit_lines {template plugin : Text} {receiver : Option Text} {unit : Text}
    (h : renderUnit template plugin receiver = some unit) :
    (unit.splitOn '\n').length = (template.splitOn '\n').length := by
  by_cases hcontrol : plugin.any isControl = true
  · simp [renderUnit, hcontrol] at h
  · have hplugin : '\n' ∉ plugin := by
      intro hc
      exact hcontrol (List.any_eq_true.mpr ⟨'\n', hc, isControl_lineFeed⟩)
    simp only [renderUnit, if_neg hcontrol] at h
    obtain ⟨lines, hlines, h⟩ := Option.bind_eq_some_iff.mp h
    obtain rfl := Option.some.inj h
    have hlength := length_of_mapM hlines
    have hnone : ∀ l ∈ lines, '\n' ∉ l := by
      intro l hl
      obtain ⟨line, hline, hrender⟩ := mem_of_mapM hlines hl
      exact not_mem_renderLine hplugin (fun hmem => (mem_part hline hmem).2 rfl) hrender
    have hne : lines ≠ [] := by
      intro hnil
      rw [hnil] at hlength
      exact List.splitOn_ne_nil _ _ (List.length_eq_zero_iff.mp hlength.symm)
    rw [List.splitOn_intercalate _ hnone hne, hlength]

end Cli

end Omdrop
