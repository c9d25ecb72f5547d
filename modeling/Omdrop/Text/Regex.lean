import Omdrop.Text.Basic

namespace Omdrop.Text

/-!
# Regular expressions

Expressions as a backtracking matcher reads them: `runs` lists the ways in which an expression
matches the start of a text in the order in which they are tried, each with what its groups
captured and the rest of the text, and `first` is the first of them at the first place where there
is one.  The lemmas say what the ways are for expressions that leave a matcher no choice.
-/

/-- An expression. -/
inductive Regex
  | empty
  | one (p : Char → Bool)
  | seq (r s : Regex)
  | alt (r s : Regex)
  /-- as many as possible of the characters of a class, fewer when that fails -/
  | star (p : Char → Bool)
  | group (r : Regex)

namespace Regex

/-- At least one of the characters of a class. -/
def plus (p : Char → Bool) : Regex := seq (one p) (star p)

/-- One, or nothing when that fails. -/
def opt (r : Regex) : Regex := alt r empty

/-- An expression so many times. -/
def times : Nat → Regex → Regex
  | 0,     _ => empty
  | n + 1, r => seq r (times n r)

/-- A text. -/
def lit : Text → Regex
  | []     => empty
  | c :: t => seq (one (· == c)) (lit t)

/-- The ways in which a class of characters is repeated: the captures, of which there are none, and
    the rest. -/
def starRuns (p : Char → Bool) : Text → List (List Text × Text)
  | []     => [([], [])]
  | c :: t => if p c then starRuns p t ++ [([], c :: t)] else [([], c :: t)]

/-- The ways in which an expression matches the start of a text, in the order of preference. -/
def runs : Regex → Text → List (List Text × Text)
  | empty, t     => [([], t)]
  | one _, []    => []
  | one p, c :: t => if p c then [([], t)] else []
  | seq r s, t   =>
    (runs r t).flatMap fun (caps, rest) => (runs s rest).map fun (more, rest) => (caps ++ more, rest)
  | alt r s, t   => runs r t ++ runs s t
  | star p, t    => starRuns p t
  | group r, t   =>
    (runs r t).map fun (caps, rest) => (t.take (t.length - rest.length) :: caps, rest)

/-- What the groups captured where an expression matches first. -/
def first (r : Regex) : Text → Option (List Text)
  | []     => (runs r []).head?.map Prod.fst
  | c :: t =>
    match (runs r (c :: t)).head? with
    | some (caps, _) => some caps
    | none           => first r t

/-! ### Expressions of a fixed length -/

/-- What follows characters of some classes, one of each. -/
def stripClasses : List (Char → Bool) → Text → Option Text
  | [], t               => some t
  | _ :: _, []          => none
  | p :: classes, c :: t => if p c then stripClasses classes t else none

/-- Classes by place strip a text that meets them. -/
theorem stripClasses_range (f : Nat → Char → Bool) (k n : Nat) (t : Text) :
    stripClasses ((List.range' k n).map f) t =
      if ((t.take n).length == n && ((t.take n).zipIdx k).all fun (c, i) => f i c) = true then
        some (t.drop n)
      else none := by
  induction n generalizing k t with
  | zero => simp [stripClasses]
  | succ n ih =>
    cases t with
    | nil => simp [List.range'_succ, stripClasses]
    | cons c t =>
      have hlen : ((t.take n).length + 1 == n + 1) = ((t.take n).length == n) := by simp
      rw [List.range'_succ, List.map_cons, stripClasses, ih, List.take_succ_cons,
        List.zipIdx_cons, List.all_cons, List.length_cons, List.drop_succ_cons, hlen]
      show _ = if (_ && (f k c && _)) = true then _ else _
      cases f k c with
      | false => simp
      | true =>
        rw [Bool.true_and]
        rfl

/-- An expression that matches characters of some classes, one of each, and nothing else. -/
def Fixed (r : Regex) (classes : List (Char → Bool)) : Prop :=
  ∀ t, runs r t = (stripClasses classes t).toList.map fun rest => ([], rest)

/-- The empty expression matches the empty text. -/
theorem fixed_empty : Fixed empty [] := fun _ => rfl

/-- One character matches one. -/
theorem fixed_one (p : Char → Bool) : Fixed (one p) [p] := by
  intro t
  cases t with
  | nil => rfl
  | cons c t =>
    rw [runs, stripClasses]
    split <;> rfl

/-- Classes are stripped one after the other. -/
private theorem stripClasses_append (ps qs : List (Char → Bool)) (t : Text) :
    stripClasses (ps ++ qs) t = (stripClasses ps t).bind (stripClasses qs) := by
  induction ps generalizing t with
  | nil => rfl
  | cons p ps ih =>
    cases t with
    | nil => rfl
    | cons c t =>
      rw [List.cons_append, stripClasses, stripClasses, ih]
      split <;> rfl

/-- Behind an expression of a fixed length there is one rest to go on with. -/
theorem Fixed.runs_seq {r : Regex} {ps : List (Char → Bool)} (hr : Fixed r ps) (s : Regex)
    (t : Text) : runs (Regex.seq r s) t = (stripClasses ps t).elim [] (runs s) := by
  rw [runs, hr t]
  cases stripClasses ps t <;> simp

/-- Two fixed expressions make a fixed one. -/
theorem Fixed.seq {r s : Regex} {ps qs : List (Char → Bool)} (hr : Fixed r ps) (hs : Fixed s qs) :
    Fixed (seq r s) (ps ++ qs) := by
  intro t
  rw [runs, hr t, stripClasses_append]
  cases stripClasses ps t with
  | none => rfl
  | some rest =>
    simp only [Option.toList_some, List.map_cons, List.map_nil, List.flatMap_cons,
      List.flatMap_nil, List.append_nil, Option.bind_some, List.nil_append, hs rest]
    cases stripClasses qs rest <;> rfl

/-- A fixed expression several times is fixed. -/
theorem Fixed.times {r : Regex} {ps : List (Char → Bool)} (hr : Fixed r ps) (n : Nat) :
    Fixed (times n r) (List.replicate n ps).flatten := by
  induction n with
  | zero => exact fixed_empty
  | succ n ih => exact hr.seq ih

/-- A literal is fixed. -/
theorem fixed_lit (t : Text) : Fixed (lit t) (t.map fun c => (· == c)) := by
  induction t with
  | nil => exact fixed_empty
  | cons c t ih => exact (fixed_one _).seq ih

/-- A literal matches itself. -/
theorem stripClasses_lit (t u : Text) :
    stripClasses (t.map fun c => (· == c)) u = t.isPrefixOf? u := by
  induction t generalizing u with
  | nil => rfl
  | cons c t ih =>
    cases u with
    | nil => rfl
    | cons d u =>
      rw [List.map_cons, stripClasses, List.isPrefixOf?, ih, BEq.comm]

/-! ### Repetition -/

/-- The first way of repeating a class is to take all that is there. -/
theorem head_starRuns (p : Char → Bool) (t : Text) :
    (starRuns p t).head? = some ([], t.dropWhile p) := by
  induction t with
  | nil => rfl
  | cons c t ih =>
    rw [starRuns, List.dropWhile_cons]
    split
    · rw [List.head?_append, ih]
      rfl
    · rfl

/-- What comes behind a class and does not start with it leaves no choice. -/
theorem runs_star_seq {p : Char → Bool} {s : Regex}
    (hs : ∀ c t, p c = true → runs s (c :: t) = []) (t : Text) :
    runs (seq (star p) s) t = runs s (t.dropWhile p) := by
  have hnil : ∀ u, (starRuns p u).flatMap (fun (caps, rest) =>
      (runs s rest).map fun (more, rest) => (caps ++ more, rest)) = runs s (u.dropWhile p) := by
    intro u
    induction u with
    | nil => simp [starRuns]
    | cons c u ih =>
      rw [starRuns, List.dropWhile_cons]
      split
      · rename_i hc
        rw [List.flatMap_append, ih]
        simp [hs c u hc]
      · simp
  exact hnil t

/-- A run of characters that nothing after it begins with is taken whole. -/
theorem runs_plus_seq {p : Char → Bool} {s : Regex}
    (hs : ∀ c t, p c = true → runs s (c :: t) = []) (t : Text) :
    runs (seq (plus p) s) t =
      if t.head?.any p then runs s (t.dropWhile p) else [] := by
  cases t with
  | nil => rfl
  | cons c t =>
    by_cases hc : p c = true
    · have hone : runs (plus p) (c :: t) = starRuns p t := by
        simp [plus, runs, hc]
      rw [List.head?_cons, Option.any_some, if_pos hc, List.dropWhile_cons, if_pos hc,
        ← runs_star_seq hs t, runs, hone]
      rfl
    · simp [plus, runs, hc]

end Regex

end Omdrop.Text
