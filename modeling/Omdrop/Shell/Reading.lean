import Omdrop.Shell.Braces

namespace Omdrop.Shell

open Omdrop.Text

/-!
# Reading an argument

How bash reads one argument of a command line: the quotes and what they keep, brace expansion,
and the removal of the quotes.  What a word becomes by tilde, parameter, command or pathname
expansion depends on where it is read, so that a word with a bare tilde in front, with a dollar
sign or a backtick outside of single quotes, or with a bare `*`, `?` or `[` has no reading here;
neither has a text that ends the argument or the command.  Nothing that is read is split again,
since words are split in what was expanded only.
-/

/-! ### Quotes with escapes -/

/-- The byte that a character behind a backslash stands for between `$'` and `'`, where it is a
    letter or stands for itself. -/
def ansiByte (c : Char) : Option UInt8 :=
  if c = 'n' then some 10
  else if c = 't' then some 9
  else if c = 'r' then some 13
  else if c = 'a' then some 7
  else if c = 'b' then some 8
  else if c = 'v' then some 11
  else if c = 'f' then some 12
  else if c = 'E' ∨ c = 'e' then some 27
  else if c = '\\' then some 92
  else if c = '\'' then some 39
  else if c = '"' then some 34
  else if c = '?' then some 63
  else none

/-- The value of an octal digit. -/
def octalVal (c : Char) : Option Nat := digitVal 8 c.toNat

/-- Where the reader of escapes stands: behind a backslash, or behind some digits of an octal number
    with the value so far. -/
inductive AnsiState
  | plain
  | backslash
  | octal (digits value : Nat)

/-- The bytes between `$'` and `'` from some point on.  Numbers in hexadecimal, Unicode and control
    escapes are not read. -/
def ansiFrom : AnsiState → Text → Option (List UInt8)
  | .plain, []         => some []
  | .backslash, []     => none
  | .octal _ v, []     => some [UInt8.ofNat v]
  | .plain, c :: t     =>
    if c = '\\' then ansiFrom .backslash t else (ansiFrom .plain t).map (utf8 [c] ++ ·)
  | .backslash, c :: t =>
    match octalVal c with
    | some v => ansiFrom (.octal 1 v) t
    | none   => (ansiByte c).bind fun b => (ansiFrom .plain t).map (b :: ·)
  | .octal digits v, c :: t =>
    match if digits < 3 then octalVal c else none with
    | some d => ansiFrom (.octal (digits + 1) (v * 8 + d)) t
    | none   =>
      (if c = '\\' then ansiFrom .backslash t else (ansiFrom .plain t).map (utf8 [c] ++ ·)).map
        (UInt8.ofNat v :: ·)

/-- A digit behind a backslash begins a number. -/
theorem ansiFrom_digit {c : Char} {v : Nat} (h : octalVal c = some v) (rest : Text) :
    ansiFrom .plain ('\\' :: c :: rest) = ansiFrom (.octal 1 v) rest := by
  rw [ansiFrom, if_pos rfl, ansiFrom, h]

/-- Up to three digits are of the number. -/
theorem ansiFrom_moreDigits {c : Char} {digits v d : Nat} (hdigits : digits < 3)
    (h : octalVal c = some d) (rest : Text) :
    ansiFrom (.octal digits v) (c :: rest) = ansiFrom (.octal (digits + 1) (v * 8 + d)) rest := by
  rw [ansiFrom, if_pos hdigits, h]

/-- The bytes between `$'` and `'`; a zero byte ends them. -/
def ansiBytes (t : Text) : Option (List UInt8) :=
  (ansiFrom .plain t).map (·.takeWhile (· ≠ 0))

/-! ### Words -/

/-- Where the reader of a word stands, with what it has read of a part in quotes. -/
inductive Quoting
  | bare
  | escaped
  | dollar
  | single (part : Text)
  | double (part : Text)
  | doubleEscaped (part : Text)
  | ansi (part : Text)
  | ansiEscaped (part : Text)

/-- The characters that end a word. -/
def isMeta (c : Char) : Bool := c ∈ "|&;()<> \t\n".toList

/-- The symbols of a word from some point on. -/
def wordFrom : Quoting → Text → Option Word
  | .bare, []              => some []
  | .dollar, []            => some [.bare '$']
  | .escaped, []           => none
  | .single _, []          => none
  | .double _, []          => none
  | .doubleEscaped _, []   => none
  | .ansi _, []            => none
  | .ansiEscaped _, []     => none
  | .bare, c :: t          =>
    if c = '\'' then wordFrom (.single []) t
    else if c = '"' then wordFrom (.double []) t
    else if c = '\\' then wordFrom .escaped t
    else if c = '$' then wordFrom .dollar t
    else if c = '`' ∨ isMeta c = true then none
    else (wordFrom .bare t).map (.bare c :: ·)
  | .escaped, c :: t       =>
    if c = '\n' then wordFrom .bare t else (wordFrom .bare t).map (.quoted (utf8 [c]) :: ·)
  | .dollar, c :: t        => if c = '\'' then wordFrom (.ansi []) t else none
  | .single part, c :: t   =>
    if c = '\'' then (wordFrom .bare t).map (.quoted (utf8 part) :: ·)
    else wordFrom (.single (part ++ [c])) t
  | .double part, c :: t   =>
    if c = '"' then (wordFrom .bare t).map (.quoted (utf8 part) :: ·)
    else if c = '\\' then wordFrom (.doubleEscaped part) t
    else if c = '$' ∨ c = '`' then none
    else wordFrom (.double (part ++ [c])) t
  | .doubleEscaped part, c :: t =>
    if c = '\n' then wordFrom (.double part) t
    else if c = '$' ∨ c = '`' ∨ c = '"' ∨ c = '\\' then wordFrom (.double (part ++ [c])) t
    else wordFrom (.double (part ++ ['\\', c])) t
  | .ansi part, c :: t     =>
    if c = '\'' then
      (ansiBytes part).bind fun bytes => (wordFrom .bare t).map (.quoted bytes :: ·)
    else if c = '\\' then wordFrom (.ansiEscaped part) t
    else wordFrom (.ansi (part ++ [c])) t
  | .ansiEscaped part, c :: t => wordFrom (.ansi (part ++ ['\\', c])) t

/-- Does what a word stands for depend on the home directories or on the files there are? -/
def Depends (w : Word) : Prop :=
  w.head? = some (.bare '~') ∨ .bare '*' ∈ w ∨ .bare '?' ∈ w ∨ .bare '[' ∈ w

instance (w : Word) : Decidable (Depends w) := inferInstanceAs (Decidable (_ ∨ _))

/-- The arguments that a text stands for where one argument is expected. -/
def readArgument [Sequences] (t : Text) : Option (List (List UInt8)) :=
  if t.head? = some '#' then none
  else
    (wordFrom .bare t).bind fun word =>
      let words := braceExpand true word
      if ∃ w ∈ words, Depends w then none
      else some ((words.filter (· ≠ [])).map Word.bytes)

/-! ### Quotes keep what is in them -/

theorem wordFrom_double {part : Text} (hpart : ∀ c ∈ part, c ∉ ['"', '\\', '$', '`'])
    (acc rest : Text) :
    wordFrom (.double acc) (part ++ '"' :: rest) =
      (wordFrom .bare rest).map (.quoted (utf8 (acc ++ part)) :: ·) := by
  induction part generalizing acc with
  | nil =>
    rw [List.append_nil]
    rfl
  | cons c part ih =>
    rw [List.forall_mem_cons] at hpart
    have hc : c ≠ '"' ∧ c ≠ '\\' ∧ ¬ (c = '$' ∨ c = '`') := by simpa using hpart.1
    rw [List.cons_append, wordFrom, if_neg hc.1, if_neg hc.2.1, if_neg hc.2.2, ih hpart.2,
      List.append_assoc]
    rfl

/-- Characters that mean nothing to a shell stand bare. -/
private theorem wordFrom_bare {t : Text}
    (ht : ∀ c ∈ t, c ∉ ['\'', '"', '\\', '$', '`'] ∧ isMeta c = false) :
    wordFrom .bare t = some (t.map .bare) := by
  induction t with
  | nil => rfl
  | cons c t ih =>
    rw [List.forall_mem_cons] at ht
    obtain ⟨⟨hc, hmeta⟩, ht⟩ := ht
    have hc' : c ≠ '\'' ∧ c ≠ '"' ∧ c ≠ '\\' ∧ c ≠ '$' ∧ c ≠ '`' := by simpa using hc
    rw [wordFrom, if_neg hc'.1, if_neg hc'.2.1, if_neg hc'.2.2.1, if_neg hc'.2.2.2.1,
      if_neg (by simp [hc'.2.2.2.2, hmeta]), ih ht]
    rfl

/-- A word of quoted parts is one argument. -/
theorem readArgument_quoted [Sequences] {t : Text} {parts : List (List UInt8)}
    (hword : wordFrom .bare t = some (parts.map .quoted)) (hne : parts ≠ []) :
    readArgument t = some [parts.flatten] := by
  have hquoted : ∀ x ∈ parts.map Sym.quoted, ∃ bytes, x = .quoted bytes := by
    intro x hx
    obtain ⟨bytes, -, rfl⟩ := List.mem_map.mp hx
    exact ⟨bytes, rfl⟩
  have hbare : ∀ c, Sym.bare c ∉ parts.map Sym.quoted := by
    intro c hc
    obtain ⟨bytes, hb⟩ := hquoted _ hc
    cases hb
  have hdepends : ¬ Depends (parts.map Sym.quoted) := by
    rintro (h | h | h | h)
    · exact hbare _ (List.mem_of_mem_head? h)
    all_goals exact hbare _ h
  have hstart : t.head? ≠ some '#' := by
    intro h
    obtain ⟨rest, rfl⟩ : ∃ rest, t = '#' :: rest := by
      cases t with
      | nil => cases h
      | cons c t => exact ⟨t, by rw [Option.some.inj h]⟩
    have hmap : (wordFrom .bare rest).map (.bare '#' :: ·) = some (parts.map .quoted) := hword
    obtain ⟨word, -, hsharp⟩ := Option.map_eq_some_iff.mp hmap
    exact hbare _ (hsharp ▸ List.mem_cons_self)
  rw [readArgument, if_neg hstart, hword, Option.bind_some,
    braceExpand_eq_self _ _ (not_braceExpression_quoted hquoted)]
  have hfilter : [parts.map Sym.quoted].filter (· ≠ []) = [parts.map Sym.quoted] := by
    simp [hne]
  have hbytes : Word.bytes (parts.map Sym.quoted) = parts.flatten := by
    rw [Word.bytes, List.flatMap_map]
    exact List.flatMap_id'
  simp only [List.mem_singleton, exists_eq_left, hdepends, if_false, hfilter, List.map_singleton,
    hbytes]

/-- A word of bare characters is one argument if and only if none of its braces is expanded. -/
theorem readArgument_bare [Sequences] {t : Text} (hne : t ≠ [])
    (ht : ∀ c ∈ t, c ∉ "'\"\\$`*?[".toList ∧ isMeta c = false)
    (hstart : t.head? ≠ some '#' ∧ t.head? ≠ some '~') :
    readArgument t = some [utf8 t] ↔ ¬ BraceExpression true (t.map .bare) := by
  have hword : wordFrom .bare t = some (t.map .bare) := by
    refine wordFrom_bare fun c hc => ⟨fun hm => (ht c hc).1 ?_, (ht c hc).2⟩
    simp only [List.mem_cons, List.not_mem_nil, or_false] at hm
    rcases hm with rfl | rfl | rfl | rfl | rfl <;> decide
  have hbytes : Word.bytes (t.map .bare) = utf8 t := by
    rw [Word.bytes, List.flatMap_map, utf8]
    exact List.flatMap_congr fun c _ => by simp [Sym.bytes, utf8]
  rw [readArgument, if_neg hstart.1, hword, Option.bind_some]
  constructor
  · intro h hb
    -- every word that an expansion gives is shorter than the text
    simp only at h
    split at h
    · cases h
    · have hmem : utf8 t ∈ ((braceExpand true (t.map .bare)).filter (· ≠ [])).map Word.bytes := by
        rw [Option.some.inj h]
        exact List.mem_singleton_self _
      obtain ⟨w, hw, hwt⟩ := List.mem_map.mp hmem
      have hlt := (length_braceExpand _ _ (List.mem_filter.mp hw).1).2 hb
      rw [hwt, hbytes] at hlt
      exact Nat.lt_irrefl _ hlt
  · intro hb
    have hdepends : ¬ Depends (t.map .bare) := by
      have hnot : ∀ c, c ∈ "'\"\\$`*?[".toList → Sym.bare c ∉ t.map Sym.bare := by
        intro c hc hm
        obtain ⟨c', hc', heq⟩ := List.mem_map.mp hm
        rw [Sym.bare.injEq] at heq
        exact (ht c (heq ▸ hc')).1 hc
      rintro (h | h | h | h)
      · rw [List.head?_map, Option.map_eq_some_iff] at h
        obtain ⟨c, hc, heq⟩ := h
        rw [Sym.bare.injEq] at heq
        exact hstart.2 (heq ▸ hc)
      all_goals exact hnot _ (by decide) h
    have hfilter : [t.map Sym.bare].filter (· ≠ []) = [t.map Sym.bare] := by
      simp [hne]
    rw [braceExpand_eq_self _ _ hb]
    simp only [List.mem_singleton, exists_eq_left, hdepends, if_false, hfilter, List.map_singleton,
      hbytes]

end Omdrop.Shell
