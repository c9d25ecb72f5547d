import Mathlib.Data.Nat.Digits.Lemmas

namespace Omdrop.Text

/-!
# Numerals

Numbers as text in any base up to sixteen, by the codes of their characters: `numeral` writes
one, `value` reads one back, and `value_numeral`, `value_zeros_append` say that they agree,
also for numerals padded with zeros to a fixed width.
-/

/-- The value of a digit, upper or lower case. -/
def digitVal (base code : Nat) : Option Nat :=
  let d :=
    if 48 ≤ code ∧ code ≤ 57 then some (code - 48)
    else if 97 ≤ code ∧ code ≤ 122 then some (code - 87)
    else if 65 ≤ code ∧ code ≤ 90 then some (code - 55)
    else none
  d.filter (· < base)

/-- The digit of a value below sixteen, in lower case. -/
def digitCode (d : Nat) : Nat := if d < 10 then 48 + d else 87 + d

/-- Read a numeral after a part worth `acc`; `none` when a character is no digit. -/
def valueFrom (base acc : Nat) : List Nat → Option Nat
  | []      => some acc
  | c :: cs => (digitVal base c).bind fun d => valueFrom base (acc * base + d) cs

/-- The number that a numeral stands for. -/
def value (base : Nat) (codes : List Nat) : Option Nat := valueFrom base 0 codes

/-- A number, without leading zeros. -/
def numeral (base n : Nat) : List Nat :=
  if n = 0 then [48] else (Nat.digits base n).reverse.map digitCode

/-- A number, padded with zeros to `width` characters. -/
def padded (base width n : Nat) : List Nat := (numeral base n).leftpad width 48

theorem digitVal_digitCode {base d : Nat} (hb : base ≤ 16) (hd : d < base) :
    digitVal base (digitCode d) = some d := by
  unfold digitVal digitCode
  by_cases h : d < 10
  · have h1 : 48 ≤ 48 + d ∧ 48 + d ≤ 57 := by omega
    simp [h, h1, hd]
  · have h1 : ¬ (87 + d ≤ 57) := by omega
    have h2 : 97 ≤ 87 + d ∧ 87 + d ≤ 122 := by omega
    simp [h, h1, h2, hd]

theorem digitCode_lt (d : Nat) (h : d < 16) : digitCode d < 128 := by
  unfold digitCode
  split <;> omega

theorem valueFrom_append (base acc : Nat) (xs ys : List Nat) :
    valueFrom base acc (xs ++ ys) =
      (valueFrom base acc xs).bind fun v => valueFrom base v ys := by
  induction xs generalizing acc with
  | nil => rfl
  | cons x xs ih =>
    simp only [List.cons_append, valueFrom]
    cases digitVal base x with
    | none => rfl
    | some d => exact ih _

/-- Digits read in order of weight add up to their number. -/
private theorem valueFrom_digits {base : Nat} (hb : base ≤ 16) (acc : Nat) {ds : List Nat}
    (hds : ∀ d ∈ ds, d < base) :
    valueFrom base acc (ds.reverse.map digitCode) =
      some (acc * base ^ ds.length + Nat.ofDigits base ds) := by
  induction ds with
  | nil => simp [valueFrom]
  | cons d ds ih =>
    have hd : d < base := hds d (by simp)
    rw [List.reverse_cons, List.map_append, valueFrom_append,
      ih fun x hx => hds x (List.mem_cons_of_mem _ hx)]
    simp only [Option.bind_some, List.map_cons, List.map_nil, valueFrom,
      digitVal_digitCode hb hd, Nat.ofDigits_cons, List.length_cons, Option.some.injEq]
    ring

/-- **Numerals read back.** -/
theorem value_numeral {base : Nat} (h1 : 1 < base) (hb : base ≤ 16) (n : Nat) :
    value base (numeral base n) = some n := by
  unfold value numeral
  split
  · rename_i hn
    have h0 : digitVal base 48 = some 0 := digitVal_digitCode hb (by omega : 0 < base)
    simp [valueFrom, h0, hn]
  · rw [valueFrom_digits hb 0 fun d hd => Nat.digits_lt_base h1 hd, Nat.ofDigits_digits]
    simp

/-- Leading zeros change nothing. -/
theorem value_zeros_append {base : Nat} (h0 : 0 < base) (hb : base ≤ 16) (k : Nat)
    (codes : List Nat) : value base (List.replicate k 48 ++ codes) = value base codes := by
  have hz : digitVal base 48 = some 0 := digitVal_digitCode hb h0
  induction k with
  | zero => rfl
  | succ k ih =>
    rw [← ih]
    simp [value, List.replicate_succ, valueFrom, hz]

theorem value_padded {base : Nat} (h1 : 1 < base) (hb : base ≤ 16) (width n : Nat) :
    value base (padded base width n) = some n := by
  rw [padded, List.leftpad, value_zeros_append (by omega) hb, value_numeral h1 hb]

/-- A digit is an ASCII character. -/
private theorem lt_of_digitVal {base code d : Nat} (h : digitVal base code = some d) :
    0 < code ∧ code < 128 ∧ d < base := by
  unfold digitVal at h
  rw [Option.filter_eq_some_iff] at h
  obtain ⟨hd, hlt⟩ := h
  refine ⟨?_, ?_, by simpa using hlt⟩ <;> split_ifs at hd <;> omega

/-- A numeral is made of digits, and bounded by their number. -/
theorem lt_of_valueFrom {base acc n : Nat} {codes : List Nat}
    (h : valueFrom base acc codes = some n) :
    (∀ c ∈ codes, 0 < c ∧ c < 128) ∧ n < (acc + 1) * base ^ codes.length := by
  induction codes generalizing acc with
  | nil =>
    simp only [valueFrom, Option.some.injEq] at h
    simp [h]
  | cons c cs ih =>
    simp only [valueFrom, Option.bind_eq_some_iff] at h
    obtain ⟨d, hd, h⟩ := h
    obtain ⟨hpos, hascii, hlt⟩ := lt_of_digitVal hd
    obtain ⟨hcs, hn⟩ := ih h
    refine ⟨List.forall_mem_cons.mpr ⟨⟨hpos, hascii⟩, hcs⟩, ?_⟩
    have hstep : acc * base + d + 1 ≤ (acc + 1) * base := by
      rw [Nat.add_mul, Nat.one_mul]
      omega
    calc n < (acc * base + d + 1) * base ^ cs.length := hn
      _ ≤ (acc + 1) * base * base ^ cs.length := Nat.mul_le_mul_right _ hstep
      _ = (acc + 1) * base ^ (c :: cs).length := by
        rw [List.length_cons, Nat.pow_succ, Nat.mul_assoc, Nat.mul_comm base]

theorem numeral_ne_nil {base : Nat} (n : Nat) : numeral base n ≠ [] := by
  unfold numeral
  split
  · simp
  · rename_i hn
    simpa [Nat.digits_eq_nil_iff_eq_zero] using hn

/-- A number below `base ^ k` needs at most `k` digits. -/
theorem length_numeral_le {base n k : Nat} (h1 : 1 < base) (hk : 0 < k) (h : n < base ^ k) :
    (numeral base n).length ≤ k := by
  unfold numeral
  split
  · exact hk
  · rw [List.length_map, List.length_reverse]
    exact (Nat.digits_length_le_iff h1 n).mpr h

theorem length_padded {base width n : Nat} (h1 : 1 < base) (hw : 0 < width)
    (h : n < base ^ width) : (padded base width n).length = width := by
  have := length_numeral_le h1 hw h
  rw [padded, List.leftpad, List.length_append, List.length_replicate]
  omega

/-- What stands in a numeral is a digit. -/
theorem digitVal_of_mem_numeral {base : Nat} (h1 : 1 < base) (hb : base ≤ 16) {n c : Nat}
    (hc : c ∈ numeral base n) : ∃ d < base, c = digitCode d := by
  unfold numeral at hc
  split at hc
  · rw [List.mem_singleton] at hc
    exact ⟨0, by omega, hc⟩
  · obtain ⟨d, hd, rfl⟩ := List.mem_map.mp hc
    exact ⟨d, Nat.digits_lt_base h1 (List.mem_reverse.mp hd), rfl⟩

end Omdrop.Text
