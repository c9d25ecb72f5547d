import Mathlib.Data.List.Infix
import Omdrop.Text.Basic

namespace Omdrop.Text

/-!
# Pieces of text

`splitFirst` cuts text at the first occurrence of a pattern, and `pieces` at every occurrence of a
separator of two characters.  Joined with the separator, texts are cut into the pieces of each
(`pieces_intercalate`).
-/

/-! ### The first occurrence -/

/-- What stands before the first occurrence of a pattern, and behind it. -/
def splitFirst (pat : Text) : Text → Option (Text × Text)
  | []      => if pat = [] then some ([], []) else none
  | c :: cs =>
    if pat <+: c :: cs then some ([], (c :: cs).drop pat.length)
    else (splitFirst pat cs).map fun x => (c :: x.1, x.2)

theorem splitFirst_eq_some {pat t a b : Text} (h : splitFirst pat t = some (a, b)) :
    t = a ++ pat ++ b := by
  induction t generalizing a with
  | nil =>
    unfold splitFirst at h
    split_ifs at h with hpat
    obtain ⟨rfl, rfl⟩ := Prod.mk.inj (Option.some.inj h)
    rw [hpat]
    rfl
  | cons c cs ih =>
    unfold splitFirst at h
    split_ifs at h with hpat
    · obtain ⟨rfl, rfl⟩ := Prod.mk.inj (Option.some.inj h)
      obtain ⟨rest, hrest⟩ := hpat
      rw [← hrest, List.drop_left, List.nil_append]
    · obtain ⟨x, hx, heq⟩ := Option.map_eq_some_iff.mp h
      obtain ⟨rfl, rfl⟩ := Prod.mk.inj heq
      rw [ih hx]
      rfl

/-- Before a pattern whose first character does not occur there is nothing to find. -/
theorem splitFirst_append {p : Char} {pat a : Text} (h : p ∉ a) (b : Text) :
    splitFirst (p :: pat) (a ++ (p :: pat) ++ b) = some (a, b) := by
  induction a with
  | nil =>
    show splitFirst (p :: pat) (p :: (pat ++ b)) = _
    have hpre : p :: pat <+: p :: (pat ++ b) := List.prefix_append (p :: pat) b
    rw [splitFirst, if_pos hpre, List.length_cons, List.drop_succ_cons, List.drop_left]
  | cons c a ih =>
    rw [List.mem_cons, not_or] at h
    have hpre : ¬ p :: pat <+: c :: (a ++ (p :: pat) ++ b) := by
      rw [List.cons_prefix_cons]
      exact fun hc => h.1 hc.1
    show splitFirst (p :: pat) (c :: (a ++ (p :: pat) ++ b)) = _
    rw [splitFirst, if_neg hpre, ih h.2]
    rfl

/-- Two texts are cut at the first occurrence of a character alike. -/
theorem append_cons_inj {c : Char} {a b t u : Text} (ha : c ∉ a) (hb : c ∉ b)
    (h : a ++ c :: t = b ++ c :: u) : a = b ∧ t = u := by
  have hsplit : splitFirst [c] (a ++ [c] ++ t) = splitFirst [c] (b ++ [c] ++ u) := by
    rw [List.append_assoc, List.append_assoc]
    exact congrArg _ h
  rw [splitFirst_append ha, splitFirst_append hb] at hsplit
  exact Prod.mk.inj (Option.some.inj hsplit)

/-! ### Every occurrence -/

/-- Text cut at every occurrence of a separator of two characters. -/
def pieces (x y : Char) : Text → List Text
  | []          => [[]]
  | [c]         => [[c]]
  | c :: d :: t =>
    if c = x ∧ d = y then [] :: pieces x y t else (pieces x y (d :: t)).modifyHead (c :: ·)

variable {x y : Char}

theorem pieces_ne_nil (t : Text) : pieces x y t ≠ [] := by
  fun_induction pieces x y t with
  | case1 => exact List.cons_ne_nil _ _
  | case2 => exact List.cons_ne_nil _ _
  | case3 => exact List.cons_ne_nil _ _
  | case4 c d t _ ih =>
    obtain ⟨p, ps, hps⟩ := List.exists_cons_of_ne_nil ih
    rw [hps]
    exact List.cons_ne_nil _ _

/-- Joined, the pieces are the text. -/
theorem intercalate_pieces (t : Text) : List.intercalate [x, y] (pieces x y t) = t := by
  fun_induction pieces x y t with
  | case1 => rfl
  | case2 => rfl
  | case3 c d t h ih =>
    -- a separator divides the pieces
    obtain ⟨rfl, rfl⟩ := h
    obtain ⟨p, ps, hps⟩ := List.exists_cons_of_ne_nil (pieces_ne_nil (x := c) (y := d) t)
    rw [hps] at ih ⊢
    rw [List.intercalate_cons_cons, ih]
    rfl
  | case4 c d t _ ih =>
    -- a character of a piece
    obtain ⟨p, ps, hps⟩ := List.exists_cons_of_ne_nil (pieces_ne_nil (x := x) (y := y) (d :: t))
    rw [hps] at ih ⊢
    show List.intercalate [x, y] ((c :: p) :: ps) = c :: d :: t
    rw [← ih]
    cases ps with
    | nil => rfl
    | cons q ps => rfl

/-- A separator that does not overlap itself is found between two texts. -/
theorem pieces_append (hxy : x ≠ y) (a b : Text) :
    pieces x y (a ++ x :: y :: b) = pieces x y a ++ pieces x y b := by
  fun_induction pieces x y a with
  | case1 => rw [List.nil_append, pieces, if_pos ⟨rfl, rfl⟩]; rfl
  | case2 c =>
    have hne : ¬ (c = x ∧ x = y) := fun h => hxy h.2
    show pieces x y (c :: x :: y :: b) = _
    rw [pieces, if_neg hne, pieces, if_pos ⟨rfl, rfl⟩]
    rfl
  | case3 c d t h ih =>
    show pieces x y (c :: d :: (t ++ x :: y :: b)) = _
    rw [pieces, if_pos h, ih]
    rfl
  | case4 c d t h ih =>
    obtain ⟨p, ps, hps⟩ := List.exists_cons_of_ne_nil (pieces_ne_nil (x := x) (y := y) (d :: t))
    show pieces x y (c :: d :: (t ++ x :: y :: b)) = _
    rw [hps] at ih ⊢
    rw [pieces, if_neg h]
    show (pieces x y ((d :: t) ++ x :: y :: b)).modifyHead (c :: ·) = _
    rw [ih]
    rfl

/-- **Joined texts are cut into the pieces of each.** -/
theorem pieces_intercalate (hxy : x ≠ y) {ts : List Text} (h : ts ≠ []) :
    pieces x y (List.intercalate [x, y] ts) = ts.flatMap (pieces x y) := by
  induction ts with
  | nil => exact absurd rfl h
  | cons t ts ih =>
    cases ts with
    | nil => simp [List.intercalate]
    | cons u ts =>
      rw [List.intercalate_cons_cons, List.append_assoc]
      show pieces x y (t ++ x :: y :: List.intercalate [x, y] (u :: ts)) = _
      rw [pieces_append hxy, ih (List.cons_ne_nil _ _)]
      rfl

end Omdrop.Text
