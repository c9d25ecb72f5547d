import Omdrop.Cli.Unit

namespace Omdrop.Cli

open Omdrop.Text

/-!
# The desktop entry of the link opener

`desktopExecQuote` writes the path of the command for the `Exec` key of a desktop entry.  A
desktop reads it in three steps: the string of the key file, the arguments in it, the field codes
of each.  `decodeExec` is strict, so that a value whose meaning is left open by the format has
none; `decodeExec_desktopExecQuote` takes the steps one after the other, each undoing the
escaping that came last.
-/

/-- A path for the `Exec` key: a backslash before every `"`, backtick, `$` and backslash, every
    backslash doubled again for the key file, and every percent sign doubled. -/
def desktopExecQuote (s : Text) : Text :=
  let s := replace "$" "\\$" (replace "`" "\\`" (replace "\"" "\\\"" (replace "\\" "\\\\" s)))
  let s := replace "%" "%%" (replace "\\" "\\\\" s)
  '"' :: s ++ ['"']

/-! ### How a desktop reads it -/

/-- What a character behind a backslash stands for in a key file. -/
def keyFileEscape (c : Char) : Option Char :=
  if c = 's' then some ' '
  else if c = 'n' then some '\n'
  else if c = 't' then some '\t'
  else if c = 'r' then some '\r'
  else if c = '\\' then some '\\'
  else none

/-- The string that a value of a key file stands for. -/
def keyFileUnescape : Text → Option Text
  | []     => some []
  | c :: t =>
    if isControl c then none
    else if c = '\\' then
      match t with
      | []     => none
      | e :: t => (keyFileEscape e).bind fun x => (keyFileUnescape t).map (x :: ·)
    else (keyFileUnescape t).map (c :: ·)

/-- The characters that stand between quotes behind a backslash only. -/
def isQuoteSpecial (c : Char) : Bool := c == '"' || c == '`' || c == '$' || c == '\\'

/-- The characters that an argument without quotes may not have. -/
def isReserved (c : Char) : Bool := c ∈ " \t\n\"'\\><~|&;$*?#()`".toList

/-- Where the reader of the arguments stands, with the argument so far. -/
inductive ExecState
  | gap
  | bare (arg : Text)
  | quoted (arg : Text)
  | escaped (arg : Text)
  | closed (arg : Text)

/-- The arguments of a command line from some point on. -/
def execArgsFrom : ExecState → Text → Option (List Text)
  | .gap, []           => some []
  | .bare arg, []      => some [arg]
  | .closed arg, []    => some [arg]
  | .quoted _, []      => none
  | .escaped _, []     => none
  | .gap, c :: t       =>
    if c = ' ' then execArgsFrom .gap t
    else if c = '"' then execArgsFrom (.quoted []) t
    else if isReserved c then none
    else execArgsFrom (.bare [c]) t
  | .bare arg, c :: t  =>
    if c = ' ' then (execArgsFrom .gap t).map (arg :: ·)
    else if isReserved c then none
    else execArgsFrom (.bare (arg ++ [c])) t
  | .quoted arg, c :: t =>
    if c = '"' then execArgsFrom (.closed arg) t
    else if c = '\\' then execArgsFrom (.escaped arg) t
    else if isQuoteSpecial c then none
    else execArgsFrom (.quoted (arg ++ [c])) t
  | .escaped arg, c :: t =>
    if isQuoteSpecial c then execArgsFrom (.quoted (arg ++ [c])) t else none
  | .closed arg, c :: t =>
    if c = ' ' then (execArgsFrom .gap t).map (arg :: ·) else none

/-- An argument whose only field code is the percent sign itself. -/
def percentOf : Text → Option Text
  | []     => some []
  | c :: t =>
    if c = '%' then
      match t with
      | []     => none
      | e :: t => if e = '%' then (percentOf t).map ('%' :: ·) else none
    else (percentOf t).map (c :: ·)

/-- The arguments that an `Exec` value stands for. -/
def decodeExec (v : Text) : Option (List Text) :=
  (keyFileUnescape v).bind fun line => (execArgsFrom .gap line).bind fun args =>
    args.mapM percentOf

/-! ### Step by step -/

/-- A character replaced wherever it stands. -/
theorem replace_char (c : Char) (new t : Text) :
    replace [c] new t = t.flatMap fun x => if x = c then new else [x] := by
  unfold replace
  induction t with
  | nil => rfl
  | cons x t ih =>
    rw [List.flatMap_cons, ← ih, replaceFrom]
    by_cases hx : x = c
    · rw [if_pos (by simp [hx]), if_pos hx]
      rfl
    · rw [if_neg (by simpa using fun h => hx h.symm), if_neg hx]
      rfl

/-- Every occurrence of a character doubled. -/
def doubled (c : Char) (s : Text) : Text := s.flatMap fun x => if x = c then [c, c] else [x]

/-- A backslash before everything that needs one between quotes. -/
def quoteEscaped (s : Text) : Text :=
  s.flatMap fun c => if isQuoteSpecial c then ['\\', c] else [c]

theorem doubled_cons (c x : Char) (s : Text) :
    doubled c (x :: s) = (if x = c then [c, c] else [x]) ++ doubled c s := rfl

private theorem quoteEscaped_cons (c : Char) (s : Text) :
    quoteEscaped (c :: s) = (if isQuoteSpecial c then ['\\', c] else [c]) ++ quoteEscaped s := rfl

/-- What is quoted is the path escaped, its backslashes doubled and then its percent signs. -/
private theorem desktopExecQuote_eq (s : Text) :
    desktopExecQuote s = '"' :: doubled '%' (doubled '\\' (quoteEscaped s)) ++ ['"'] := by
  have hspecial : replace ['$'] "\\$" (replace ['`'] "\\`" (replace ['"'] "\\\""
      (replace ['\\'] "\\\\" s))) = quoteEscaped s := by
    simp only [replace_char, List.flatMap_assoc, quoteEscaped]
    refine List.flatMap_congr fun c _ => ?_
    by_cases hb : c = '\\'
    · subst hb
      rfl
    by_cases hq : c = '"'
    · subst hq
      rfl
    by_cases ht : c = '`'
    · subst ht
      rfl
    by_cases hd : c = '$'
    · subst hd
      rfl
    simp [isQuoteSpecial, hb, hq, ht, hd]
  show '"' :: replace ['%'] ['%', '%'] (replace ['\\'] ['\\', '\\'] (replace ['$'] "\\$"
    (replace ['`'] "\\`" (replace ['"'] "\\\"" (replace ['\\'] "\\\\" s))))) ++ ['"'] = _
  rw [hspecial, replace_char, replace_char]
  rfl

/-- The order in which two characters are doubled is all the same. -/
private theorem doubled_comm {c d : Char} (h : c ≠ d) (s : Text) :
    doubled c (doubled d s) = doubled d (doubled c s) := by
  simp only [doubled, List.flatMap_assoc]
  refine List.flatMap_congr fun x _ => ?_
  by_cases hc : x = c <;> by_cases hd : x = d <;> simp_all

/-- So is that of doubling percent signs and of escaping. -/
private theorem doubled_quoteEscaped (s : Text) :
    doubled '%' (quoteEscaped s) = quoteEscaped (doubled '%' s) := by
  simp only [doubled, quoteEscaped, List.flatMap_assoc]
  refine List.flatMap_congr fun x _ => ?_
  by_cases hp : x = '%'
  · subst hp
    rfl
  · by_cases hx : isQuoteSpecial x = true <;> simp [hp, hx]

/-- **First step**: the key file gives back what its backslashes were doubled in. -/
theorem keyFileUnescape_doubled {s : Text} (hs : ∀ c ∈ s, isControl c = false) :
    keyFileUnescape (doubled '\\' s) = some s := by
  induction s with
  | nil => rfl
  | cons c s ih =>
    rw [List.forall_mem_cons] at hs
    rw [doubled_cons]
    by_cases hc : c = '\\'
    · subst hc
      show ((some '\\').bind fun x => (keyFileUnescape (doubled '\\' s)).map (x :: ·)) = _
      rw [ih hs.2]
      rfl
    · rw [if_neg hc]
      show keyFileUnescape (c :: doubled '\\' s) = _
      rw [keyFileUnescape.eq_def]
      simp [hs.1, hc, ih hs.2]

/-- **Second step**: between quotes, the reader of the arguments gives back what was escaped. -/
theorem execArgsFrom_quoteEscaped (arg s : Text) :
    execArgsFrom (.quoted arg) (quoteEscaped s ++ ['"']) = some [arg ++ s] := by
  induction s generalizing arg with
  | nil =>
    rw [List.append_nil]
    rfl
  | cons c s ih =>
    rw [quoteEscaped_cons]
    by_cases hc : isQuoteSpecial c = true
    · rw [if_pos hc]
      show execArgsFrom (.escaped arg) (c :: (quoteEscaped s ++ ['"'])) = _
      rw [execArgsFrom, if_pos hc, ih, List.append_assoc]
      rfl
    · have hquote : c ≠ '"' := fun h => hc (by rw [h]; rfl)
      have hback : c ≠ '\\' := fun h => hc (by rw [h]; rfl)
      rw [if_neg hc]
      show execArgsFrom (.quoted arg) (c :: (quoteEscaped s ++ ['"'])) = _
      rw [execArgsFrom, if_neg hquote, if_neg hback, if_neg hc, ih, List.append_assoc]
      rfl

/-- **Third step**: a doubled percent sign is one. -/
theorem percentOf_doubled (s : Text) : percentOf (doubled '%' s) = some s := by
  induction s with
  | nil => rfl
  | cons c s ih =>
    rw [doubled_cons]
    by_cases hc : c = '%'
    · subst hc
      show (percentOf (doubled '%' s)).map ('%' :: ·) = _
      rw [ih]
      rfl
    · rw [if_neg hc]
      show percentOf (c :: doubled '%' s) = _
      rw [percentOf.eq_def]
      simp [hc, ih]

private theorem isControl_quoted {s : Text} (hs : ∀ c ∈ s, isControl c = false) :
    ∀ c ∈ '"' :: doubled '%' (quoteEscaped s) ++ ['"'], isControl c = false := by
  intro c hc
  simp only [doubled, quoteEscaped, List.cons_append, List.mem_cons, List.mem_append,
    List.mem_flatMap, List.not_mem_nil, or_false] at hc
  rcases hc with rfl | ⟨x, ⟨y, hy, hx⟩, hc⟩ | rfl
  · rfl
  · have hx' : isControl x = false := by
      split_ifs at hx
      · rcases List.mem_pair.mp hx with rfl | rfl
        · rfl
        · exact hs _ hy
      · exact List.mem_singleton.mp hx ▸ hs _ hy
    split_ifs at hc
    · rcases List.mem_pair.mp hc with rfl | rfl <;> rfl
    · exact List.mem_singleton.mp hc ▸ hx'
  · rfl

/-- **The path comes back as the one argument.** -/
theorem decodeExec_desktopExecQuote {s : Text} (hs : ∀ c ∈ s, isControl c = false) :
    decodeExec (desktopExecQuote s) = some [s] := by
  have hquotes : desktopExecQuote s =
      doubled '\\' ('"' :: doubled '%' (quoteEscaped s) ++ ['"']) := by
    rw [desktopExecQuote_eq, doubled_comm (by decide)]
    simp [doubled]
  rw [decodeExec, hquotes, keyFileUnescape_doubled (isControl_quoted hs), Option.bind_some,
    doubled_quoteEscaped]
  show ((execArgsFrom (.quoted []) (quoteEscaped (doubled '%' s) ++ ['"'])).bind _) = _
  rw [execArgsFrom_quoteEscaped, Option.bind_some, List.nil_append]
  show ([doubled '%' s].mapM percentOf) = _
  rw [List.mapM_cons, percentOf_doubled]
  rfl

theorem decodeExec_desktopExecQuote_path :
    decodeExec (desktopExecQuote "/x$y%z\\w") = some ["/x$y%z\\w".toList] :=
  decodeExec_desktopExecQuote (by decide)

end Omdrop.Cli
