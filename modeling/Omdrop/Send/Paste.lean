import Mathlib.Data.List.SplitBy
import Omdrop.Send.Choose
import Omdrop.Shell.Reading

namespace Omdrop.Send

open Omdrop.Text Omdrop.Shell

/-!
# Pasting a suggested command

When several peers match, the commands to choose among them are shown with their files as a shell
would write them.  `shellQuote_reads_iff` says for which names such a command, pasted, sends the
file that was meant: those that are put between quotes, and those without braces to expand.
-/

/-! ### Single quotes -/

/-- A text between single quotes is read as quoted parts. -/
theorem wordFrom_singleQuoted (t rest : Text) : ∃ parts : List (List UInt8),
    wordFrom .bare (singleQuoted t ++ rest) =
      (wordFrom .bare rest).map (parts.map .quoted ++ ·) ∧
    parts.flatten = utf8 t ∧ parts ≠ [] := by
  suffices h : ∀ acc : Text, ∃ parts : List (List UInt8),
      wordFrom (.single acc) (t.flatMap (fun c => if c = '\'' then "'\\''".toList else [c]) ++
        '\'' :: rest) = (wordFrom .bare rest).map (parts.map .quoted ++ ·) ∧
      parts.flatten = utf8 (acc ++ t) ∧ parts ≠ [] by
    obtain ⟨parts, hword, hparts⟩ := h []
    refine ⟨parts, ?_, hparts⟩
    rw [← hword]
    simp [singleQuoted, wordFrom]
  induction t with
  | nil =>
    intro acc
    exact ⟨[utf8 acc], rfl, by simp⟩
  | cons c t ih =>
    intro acc
    by_cases hc : c = '\''
    · -- the quotes are closed, the character stands behind a backslash, and they are opened again
      subst hc
      obtain ⟨parts, hword, hflat, -⟩ := ih []
      refine ⟨utf8 acc :: utf8 ['\''] :: parts, ?_, by simp [hflat, utf8], by simp⟩
      rw [List.flatMap_cons, if_pos rfl]
      show ((wordFrom (.single []) (t.flatMap _ ++ '\'' :: rest)).map
        (.quoted (utf8 ['\'']) :: ·)).map (.quoted (utf8 acc) :: ·) = _
      rw [hword]
      cases wordFrom .bare rest <;> rfl
    · obtain ⟨parts, hword, hflat, hne⟩ := ih (acc ++ [c])
      refine ⟨parts, ?_, by rw [hflat, List.append_assoc]; rfl, hne⟩
      rw [List.flatMap_cons, if_neg hc, ← hword]
      show wordFrom (.single acc) (c :: _) = _
      rw [wordFrom, if_neg hc]
      rfl

/-! ### Escapes -/

/-- An octal escape has three digits. -/
theorem octal_digits : ∀ n : Fin 256, (padded 8 3 n).map Char.ofNat =
    [Char.ofNat (48 + n / 64), Char.ofNat (48 + n / 8 % 8), Char.ofNat (48 + n % 8)] := by
  decide +kernel

theorem octalVal_digit : ∀ d < 8, octalVal (Char.ofNat (48 + d)) = some d := by
  decide

/-- Behind three digits nothing more is of the number. -/
private theorem ansiFrom_three (v : Nat) (rest : Text) :
    ansiFrom (.octal 3 v) rest = (ansiFrom .plain rest).map (UInt8.ofNat v :: ·) := by
  cases rest <;> rfl

/-- A byte as an octal escape is read back. -/
private theorem ansiFrom_octal (b : UInt8) (rest : Text) :
    ansiFrom .plain ('\\' :: (padded 8 3 b.toNat).map Char.ofNat ++ rest) =
      (ansiFrom .plain rest).map (b :: ·) := by
  obtain ⟨n, hn⟩ : ∃ n, b.toNat = n := ⟨_, rfl⟩
  have hlt : n < 256 := hn ▸ b.toNat_lt
  have hb : UInt8.ofNat n = b := by rw [← hn, UInt8.ofNat_toNat]
  have hdigits := octal_digits ⟨n, hlt⟩
  have hvalue : (n / 64 * 8 + n / 8 % 8) * 8 + n % 8 = n := by omega
  simp only at hdigits
  rw [hn, hdigits]
  have h1 : octalVal (Char.ofNat (48 + n / 64)) = some (n / 64) := octalVal_digit _ (by omega)
  have h2 : octalVal (Char.ofNat (48 + n / 8 % 8)) = some (n / 8 % 8) := octalVal_digit _ (by omega)
  have h3 : octalVal (Char.ofNat (48 + n % 8)) = some (n % 8) := octalVal_digit _ (by omega)
  show ansiFrom .plain ('\\' :: _ :: _ :: _ :: rest) = _
  rw [ansiFrom_digit h1, ansiFrom_moreDigits (by decide) h2, ansiFrom_moreDigits (by decide) h3,
    hvalue, ansiFrom_three, hb]

/-- Bytes as octal escapes are read back. -/
private theorem ansiFrom_octals (bs : List UInt8) (rest : Text) :
    ansiFrom .plain (bs.flatMap (fun b => '\\' :: (padded 8 3 b.toNat).map Char.ofNat) ++ rest) =
      (ansiFrom .plain rest).map (bs ++ ·) := by
  induction bs with
  | nil => simp
  | cons b bs ih =>
    rw [List.flatMap_cons, List.append_assoc, ansiFrom_octal, ih]
    cases ansiFrom .plain rest <;> rfl

/-- **A control character is read back from its escape.** -/
theorem ansiFrom_controlEscape (c : Char) (rest : Text) :
    ansiFrom .plain (controlEscape c ++ rest) =
      (ansiFrom .plain rest).map (utf8 [c] ++ ·) := by
  unfold controlEscape
  split
  all_goals first
    | rfl
    | exact ansiFrom_octals _ _

/-- **Control characters are read back from their escapes.** -/
theorem ansiFrom_controlEscapes (run : Text) :
    ansiFrom .plain (run.flatMap controlEscape) = some (utf8 run) := by
  induction run with
  | nil => rfl
  | cons c run ih =>
    rw [List.flatMap_cons, ansiFrom_controlEscape, ih]
    exact congrArg some (utf8_append [c] run).symm

/-- Escapes are part of what stands between `$'` and `'`. -/
private theorem wordFrom_octals (bs : List UInt8) (acc rest : Text) :
    wordFrom (.ansi acc)
        (bs.flatMap (fun b => '\\' :: (padded 8 3 b.toNat).map Char.ofNat) ++ rest) =
      wordFrom (.ansi (acc ++ bs.flatMap fun b => '\\' :: (padded 8 3 b.toNat).map Char.ofNat))
        rest := by
  induction bs generalizing acc with
  | nil => simp
  | cons b bs ih =>
    have hlt : b.toNat < 256 := b.toNat_lt
    have hdigits := octal_digits ⟨b.toNat, hlt⟩
    have hplain : ∀ d < 8, Char.ofNat (48 + d) ≠ '\'' ∧ Char.ofNat (48 + d) ≠ '\\' := by decide
    obtain ⟨h1, h1'⟩ := hplain (b.toNat / 64) (by omega)
    obtain ⟨h2, h2'⟩ := hplain (b.toNat / 8 % 8) (by omega)
    obtain ⟨h3, h3'⟩ := hplain (b.toNat % 8) (by omega)
    simp only at hdigits
    rw [List.flatMap_cons, hdigits, List.append_assoc]
    show wordFrom (.ansi (acc ++ ['\\', Char.ofNat (48 + b.toNat / 64)]))
      (Char.ofNat (48 + b.toNat / 8 % 8) :: Char.ofNat (48 + b.toNat % 8) :: (_ ++ rest)) = _
    rw [wordFrom, if_neg h2, if_neg h2', wordFrom, if_neg h3, if_neg h3', ih]
    simp

private theorem wordFrom_controlEscapes (run acc rest : Text) :
    wordFrom (.ansi acc) (run.flatMap controlEscape ++ rest) =
      wordFrom (.ansi (acc ++ run.flatMap controlEscape)) rest := by
  induction run generalizing acc with
  | nil => simp
  | cons c run ih =>
    have hone : ∀ more, wordFrom (.ansi acc) (controlEscape c ++ more) =
        wordFrom (.ansi (acc ++ controlEscape c)) more := by
      intro more
      unfold controlEscape
      split
      all_goals first
        | rfl
        | exact wordFrom_octals _ _ _
    rw [List.flatMap_cons, List.append_assoc, hone, ih, List.append_assoc]

/-! ### Runs -/

/-- The bytes of a text without a zero byte are all kept. -/
theorem takeWhile_utf8 {t : Text} (h : '\x00' ∉ t) : (utf8 t).takeWhile (· ≠ 0) = utf8 t := by
  rw [List.takeWhile_eq_self_iff]
  intro b hb
  rw [decide_eq_true_eq]
  rintro rfl
  exact h (mem_of_ascii_mem_utf8 (by decide) hb)

/-- A run in its quotes is read as quoted parts, without a zero byte and what comes behind it in the
    run. -/
private theorem wordFrom_run (run rest : Text) :
    ∃ parts : List (List UInt8),
      wordFrom .bare ((if run.any isControl then "$'".toList ++ run.flatMap controlEscape ++ ['\'']
        else singleQuoted run) ++ rest) =
        (wordFrom .bare rest).map (parts.map .quoted ++ ·) ∧
      parts.flatten = (utf8 run).takeWhile (· ≠ 0) ∧ parts ≠ [] := by
  split
  · refine ⟨[(utf8 run).takeWhile (· ≠ 0)], ?_, by simp, by simp⟩
    show wordFrom (.ansi []) (run.flatMap controlEscape ++ ['\''] ++ rest) = _
    rw [List.append_assoc, wordFrom_controlEscapes, List.nil_append]
    show ((ansiBytes (run.flatMap controlEscape)).bind fun bytes =>
      (wordFrom .bare rest).map (.quoted bytes :: ·)) = _
    rw [ansiBytes, ansiFrom_controlEscapes]
    rfl
  · rename_i hany
    obtain ⟨parts, hword, hflat, hne⟩ := wordFrom_singleQuoted run rest
    refine ⟨parts, hword, hflat.trans (takeWhile_utf8 fun h0 => ?_).symm, hne⟩
    exact hany (List.any_eq_true.mpr ⟨_, h0, by decide⟩)

/-- All runs in their quotes are read as quoted parts. -/
private theorem wordFrom_runs (runs : List Text) : ∃ parts : List (List UInt8),
    wordFrom .bare (runs.flatMap fun run =>
      if run.any isControl then "$'".toList ++ run.flatMap controlEscape ++ ['\'']
      else singleQuoted run) = some (parts.map .quoted) ∧
    parts.flatten = runs.flatMap (fun run => (utf8 run).takeWhile (· ≠ 0)) ∧
    (runs ≠ [] → parts ≠ []) := by
  induction runs with
  | nil => exact ⟨[], rfl, rfl, fun h => absurd rfl h⟩
  | cons run runs ih =>
    obtain ⟨parts, hword, hflat, -⟩ := ih
    obtain ⟨first, hrun, hfirst, hne⟩ := wordFrom_run run (runs.flatMap _)
    refine ⟨first ++ parts, ?_, ?_, fun _ => by simp [hne]⟩
    · rw [List.flatMap_cons, hrun, hword, List.map_append]
      rfl
    · rw [List.flatten_append, hfirst, hflat, List.flatMap_cons]

/-- The runs of a text read as the text, unless it has a zero byte. -/
private theorem wordFrom_quotedRuns (t : Text) : ∃ parts : List (List UInt8),
    wordFrom .bare (quotedRuns t) = some (parts.map .quoted) ∧
    (parts.flatten = utf8 t ↔ '\x00' ∉ t) ∧ (t ≠ [] → parts ≠ []) := by
  obtain ⟨parts, hword, hflat, hne⟩ :=
    wordFrom_runs (t.splitBy fun a b => isControl a == isControl b)
  have hruns := List.flatten_splitBy (fun a b => isControl a == isControl b) t
  refine ⟨parts, hword, ⟨fun h h0 => ?_, fun h0 => ?_⟩, fun h => hne (List.splitBy_ne_nil.mpr h)⟩
  · have hzero : (0 : UInt8) ∈ utf8 t := List.mem_flatMap.mpr ⟨_, h0, by decide⟩
    rw [← h, hflat] at hzero
    obtain ⟨run, -, hrun⟩ := List.mem_flatMap.mp hzero
    have hkept := List.mem_takeWhile_imp hrun
    simp at hkept
  · have hkept : ∀ run ∈ t.splitBy fun a b => isControl a == isControl b,
        (utf8 run).takeWhile (· ≠ 0) = utf8 run := by
      intro run hrun
      refine takeWhile_utf8 fun h => h0 ?_
      rw [← hruns]
      exact List.mem_flatten_of_mem hrun h
    rw [hflat, List.flatMap_congr hkept]
    conv_rhs => rw [← hruns]
    rw [utf8, List.flatten_eq_flatMap, List.flatMap_assoc]
    rfl

/-! ### The whole name -/

/-- Does a text have a character that means something to a shell? -/
def isSpecial (t : Text) : Bool :=
  t.any (· ∈ " !\"$&'()*;<=>?[\\^`|".toList) || t.head?.any (· ∈ ['#', '~'])

/-- Is a text shown as it is, without quotes? -/
def shownBare (t : Text) : Bool := t ≠ [] && !t.any isControl && !isSpecial t

private theorem shellQuote_control {t : Text} (hne : t ≠ []) (h : t.any isControl = true) :
    shellQuote t = (if t.head?.any isControl then "''".toList else []) ++ quotedRuns t := by
  simp only [shellQuote, if_neg hne, if_pos h]

private theorem shellQuote_special {t : Text} (hne : t ≠ []) (hcontrol : t.any isControl = false)
    (h : isSpecial t = true) :
    shellQuote t = '"' :: t ++ ['"'] ∧ (∀ c ∈ t, c ∉ ['"', '\\', '$', '`']) ∨
      shellQuote t = singleQuoted t := by
  unfold isSpecial at h
  simp only [shellQuote, if_neg hne, hcontrol, Bool.false_eq_true, if_false, h, Bool.not_true]
  split
  · rename_i hdouble
    refine .inl ⟨rfl, fun c hc hm => ?_⟩
    have hnone := hdouble.2
    rw [Bool.not_eq_true', List.any_eq_false] at hnone
    refine hnone c hc (decide_eq_true ?_)
    simp only [List.mem_cons, List.not_mem_nil, or_false] at hm
    rcases hm with rfl | rfl | rfl | rfl <;> decide
  · exact .inr rfl

private theorem shellQuote_bare {t : Text} (h : shownBare t = true) : shellQuote t = t := by
  simp only [shownBare, isSpecial, Bool.and_eq_true, decide_eq_true_eq, Bool.not_eq_true'] at h
  obtain ⟨⟨hne, hcontrol⟩, hspecial⟩ := h
  simp only [shellQuote, if_neg hne, hcontrol, Bool.false_eq_true, if_false, hspecial,
    Bool.not_false, if_true]

variable [Sequences]

/-- Between quotes everything but a zero byte is kept. -/
private theorem readArgument_quotes {s : Text} (h : shownBare s = false) :
    readArgument (shellQuote s) = some [utf8 s] ↔ '\x00' ∉ s := by
  by_cases hnil : s = []
  · subst hnil
    have hword : wordFrom .bare (shellQuote []) = some (([[]] : List (List UInt8)).map .quoted) :=
      rfl
    have hread : readArgument (shellQuote []) = some [[[]].flatten] :=
      readArgument_quoted hword (by decide)
    rw [hread]
    simp
  by_cases hcontrol : s.any isControl = true
  · -- control characters and other text, each in quotes of their own
    obtain ⟨parts, hword, hflat, hne⟩ := wordFrom_quotedRuns s
    rw [shellQuote_control hnil hcontrol]
    split
    · have hempty : wordFrom .bare ("''".toList ++ quotedRuns s) =
          some (([] :: parts).map .quoted) := by
        show (wordFrom .bare (quotedRuns s)).map (.quoted [] :: ·) = _
        rw [hword]
        rfl
      rw [readArgument_quoted hempty (by simp), Option.some.injEq, List.cons.injEq, List.flatten_cons, List.nil_append]
      simpa using hflat
    · rw [List.nil_append, readArgument_quoted hword (hne hnil), Option.some.injEq, List.cons.injEq]
      simpa using hflat
  have hzero : '\x00' ∉ s := fun h => hcontrol (List.any_eq_true.mpr ⟨_, h, by decide⟩)
  rw [Bool.not_eq_true] at hcontrol
  have hspecial : isSpecial s = true := by
    simpa [shownBare, hnil, hcontrol] using h
  refine ⟨fun _ => hzero, fun _ => ?_⟩
  rcases shellQuote_special hnil hcontrol hspecial with ⟨hform, hchars⟩ | hform
  · have hword : wordFrom .bare ('"' :: s ++ ['"']) = some ([utf8 s].map .quoted) :=
      wordFrom_double hchars [] []
    rw [hform, readArgument_quoted hword (by simp)]
    simp
  · obtain ⟨parts, hword, hflat, hne⟩ := wordFrom_singleQuoted s []
    rw [List.append_nil] at hword
    have hword' : wordFrom .bare (singleQuoted s) = some (parts.map .quoted) := by
      rw [hword]
      exact congrArg some (List.append_nil _)
    rw [hform, readArgument_quoted hword' hne, hflat]

/-- **What a pasted name is read as**: the name, if and only if it has no zero byte and, where it is
    shown without quotes, no braces that are expanded. -/
theorem shellQuote_reads_iff (s : Text) : readArgument (shellQuote s) = some [utf8 s] ↔
    '\x00' ∉ s ∧ (shownBare s = true → ¬ BraceExpression true (s.map .bare)) := by
  by_cases hbare : shownBare s = true
  · have hform := hbare
    simp only [shownBare, isSpecial, Bool.and_eq_true, decide_eq_true_eq, Bool.not_eq_true',
      Bool.or_eq_false_iff, List.any_eq_false] at hform
    obtain ⟨⟨hne, hcontrol⟩, hspecial, hstart⟩ := hform
    have hzero : '\x00' ∉ s := fun h => hcontrol _ h (by decide)
    have hplain : ∀ c ∈ s, c ∉ "'\"\\$`*?[".toList ∧ isMeta c = false := by
      intro c hc
      have hnot : c ∉ " !\"$&'()*;<=>?[\\^`|".toList := by simpa using hspecial c hc
      have hprint : ¬ isControl c = true := hcontrol c hc
      have hquotes : ∀ x ∈ "'\"\\$`*?[".toList, x ∈ " !\"$&'()*;<=>?[\\^`|".toList := by decide
      have hmeta : ∀ x ∈ "|&;()<> \t\n".toList,
          x ∈ " !\"$&'()*;<=>?[\\^`|".toList ∨ isControl x = true := by decide
      refine ⟨fun hm => hnot (hquotes c hm), ?_⟩
      rw [isMeta, decide_eq_false_iff_not]
      intro hm
      rcases hmeta c hm with h | h
      · exact hnot h
      · exact hprint h
    have hhead : s.head? ≠ some '#' ∧ s.head? ≠ some '~' := by
      constructor <;> intro h <;> rw [h] at hstart <;> simp at hstart
    rw [shellQuote_bare hbare, readArgument_bare hne hplain hhead]
    exact ⟨fun h => ⟨hzero, fun _ => h⟩, fun h => h.2 hbare⟩
  · rw [readArgument_quotes (by simpa using hbare)]
    exact ⟨fun h => ⟨h, fun h' => absurd h' hbare⟩, fun h => h.1⟩

omit [Sequences] in
/-- **Two names in one**: a file called `{a,b}` is shown without quotes and read as two. -/
theorem shellQuote_splits :
    @readArgument .none (shellQuote "{a,b}") = some [utf8 "a", utf8 "b"] ∧
    ¬ ∀ (_ : Sequences) (s : Text), readArgument (shellQuote s) = some [utf8 s] := by
  have htwo : @readArgument .none (shellQuote "{a,b}") = some [utf8 "a", utf8 "b"] := by
    decide +kernel
  refine ⟨htwo, fun h => ?_⟩
  have hone := h .none "{a,b}"
  rw [htwo] at hone
  revert hone
  decide

end Omdrop.Send
