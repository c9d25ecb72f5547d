import Mathlib.Tactic.IntervalCases
import Omdrop.Text.Basic

namespace Omdrop.Text

/-!
# UTF-8

Bytes as text: `decodeUtf8` reads them sequence by sequence and marks what is none, at most up
to the byte that rules a sequence out.  `fromUtf8` refuses such bytes and `fromUtf8Lossy` puts
the replacement character for each of them.
-/

/-- The bytes of text. -/
def utf8 (t : Text) : List UInt8 := t.flatMap String.utf8EncodeChar

@[simp] theorem utf8_append (s t : Text) : utf8 (s ++ t) = utf8 s ++ utf8 t := List.flatMap_append

@[simp] theorem utf8_nil : utf8 [] = [] := rfl

/-- A character has at least one byte. -/
theorem length_le_utf8 (t : Text) : t.length ≤ (utf8 t).length := by
  induction t with
  | nil => simp
  | cons c t ih =>
    have hpos : 0 < (String.utf8EncodeChar c).length := by
      rw [String.length_utf8EncodeChar]
      exact c.utf8Size_pos
    show t.length + 1 ≤ (String.utf8EncodeChar c ++ utf8 t).length
    rw [List.length_append]
    omega

/-- A sequence that a byte begins: how many bytes it needs after the first, the least and the
    greatest that the next of them may be, and what the first byte is worth. -/
structure Utf8Lead where
  tails : Nat
  low : Nat
  high : Nat
  value : Nat

/-- The sequence that a byte above the ASCII range begins. -/
def utf8Lead (b : Nat) : Option Utf8Lead :=
  if 0xc2 ≤ b ∧ b ≤ 0xdf then some ⟨1, 0x80, 0xbf, b - 0xc0⟩
  else if b = 0xe0 then some ⟨2, 0xa0, 0xbf, 0⟩
  else if 0xe1 ≤ b ∧ b ≤ 0xec then some ⟨2, 0x80, 0xbf, b - 0xe0⟩
  else if b = 0xed then some ⟨2, 0x80, 0x9f, 0xd⟩
  else if 0xee ≤ b ∧ b ≤ 0xef then some ⟨2, 0x80, 0xbf, b - 0xe0⟩
  else if b = 0xf0 then some ⟨3, 0x90, 0xbf, 0⟩
  else if 0xf1 ≤ b ∧ b ≤ 0xf3 then some ⟨3, 0x80, 0xbf, b - 0xf0⟩
  else if b = 0xf4 then some ⟨3, 0x80, 0x8f, 4⟩
  else none

/-- The code point of a sequence of which `k` bytes are to come, and what follows it; `none` at
    the first byte that rules it out. -/
def utf8Tails : Nat → Nat → Nat → Nat → List UInt8 → Option Nat × List UInt8
  | 0, _, _, value, bs            => (some value, bs)
  | _ + 1, _, _, _, []            => (none, [])
  | k + 1, low, high, value, b :: bs =>
    if low ≤ b.toNat ∧ b.toNat ≤ high then
      utf8Tails k 0x80 0xbf (value * 64 + (b.toNat - 0x80)) bs
    else (none, b :: bs)

private theorem length_utf8Tails_le (k low high value : Nat) (bs : List UInt8) :
    (utf8Tails k low high value bs).2.length ≤ bs.length := by
  fun_induction utf8Tails k low high value bs with
  | case1 => exact le_rfl
  | case2 => exact le_rfl
  | case3 _ _ _ _ b bs _ ih => exact ih.trans (Nat.le_succ _)
  | case4 => exact le_rfl

/-- The characters of some bytes, `none` for every maximal part of a sequence that is cut
    short. -/
def decodeUtf8 : List UInt8 → List (Option Char)
  | []      => []
  | b :: bs =>
    if b.toNat < 0x80 then some (Char.ofNat b.toNat) :: decodeUtf8 bs
    else match utf8Lead b.toNat with
      | none      => none :: decodeUtf8 bs
      | some lead =>
        match _h : utf8Tails lead.tails lead.low lead.high lead.value bs with
        | (code, rest) => code.map Char.ofNat :: decodeUtf8 rest
termination_by bs => bs.length
decreasing_by
  · exact Nat.lt_succ_self _
  · exact Nat.lt_succ_self _
  · have := length_utf8Tails_le lead.tails lead.low lead.high lead.value bs
    rw [_h] at this
    exact Nat.lt_succ_of_le this

/-- Bytes as text, when they are. -/
def fromUtf8 (bs : List UInt8) : Option Text := (decodeUtf8 bs).mapM id

/-- Bytes as text, with replacement characters for what is none. -/
def fromUtf8Lossy (bs : List UInt8) : Text := (decodeUtf8 bs).map (·.getD '\ufffd')

/-! ### ASCII -/

/-- Is the character in the ASCII range, and not NUL? -/
def IsAscii (c : Char) : Prop := 0 < c.toNat ∧ c.toNat < 0x80

instance (c : Char) : Decidable (IsAscii c) := inferInstanceAs (Decidable (_ ∧ _))

theorem toNat_ofNat_or (n : Nat) : (Char.ofNat n).toNat = n ∨ (Char.ofNat n).toNat = 0 := by
  unfold Char.ofNat
  by_cases hv : n.isValidChar
  · rw [dif_pos hv]
    exact .inl rfl
  · rw [dif_neg hv]
    exact .inr rfl

theorem toNat_ofNat_of_lt_128 {n : Nat} (h : n < 0x80) : (Char.ofNat n).toNat = n := by
  have hv : n.isValidChar := .inl (by omega)
  unfold Char.ofNat
  rw [dif_pos hv]
  rfl

/-- The bytes of ASCII text are its characters. -/
theorem utf8_ascii {t : Text} (h : ∀ c ∈ t, c.toNat < 0x80) :
    utf8 t = t.map fun c => UInt8.ofNat c.toNat := by
  unfold utf8
  rw [List.map_eq_flatMap]
  refine List.flatMap_congr fun c hc => ?_
  have hsize : c.utf8Size = 1 :=
    Char.utf8Size_eq_one_iff.mpr (UInt32.le_iff_toNat_le.mpr (Nat.le_of_lt_succ (h c hc)))
  exact String.utf8EncodeChar_eq_singleton hsize

/-- ASCII text has a byte for every character. -/
theorem length_utf8_of_ascii {t : Text} (h : ∀ c ∈ t, c.toNat < 0x80) :
    (utf8 t).length = t.length := by
  rw [utf8_ascii h, List.length_map]

/-- Later bytes only add to a sequence's value. -/
private theorem le_utf8Tails {k low high value code : Nat} {bs rest : List UInt8} (hk : 0 < k)
    (h : utf8Tails k low high value bs = (some code, rest)) :
    (value * 64 + (low - 0x80)) * 64 ^ (k - 1) ≤ code := by
  fun_induction utf8Tails k low high value bs with
  | case1 => omega
  | case2 => simp at h
  | case3 k low high value b bs hb ih =>
    have hstep : value * 64 + (low - 0x80) ≤ value * 64 + (b.toNat - 0x80) := by omega
    rcases Nat.eq_zero_or_pos k with rfl | hpos
    · simp only [utf8Tails, Prod.mk.injEq, Option.some.injEq] at h
      rw [← h.1]
      simpa using hstep
    · refine (Nat.mul_le_mul_right _ hstep).trans (le_trans ?_ (ih hpos h))
      obtain ⟨k, rfl⟩ : ∃ k', k = k' + 1 := ⟨k - 1, by omega⟩
      rw [Nat.succ_sub_one, Nat.add_sub_cancel, Nat.pow_succ, Nat.mul_comm (64 ^ k),
        ← Nat.mul_assoc]
      exact Nat.mul_le_mul_right _ (Nat.le_add_right _ _)
  | case4 => simp at h

/-- A sequence stands for no ASCII character. -/
theorem code_of_lead {b code : Nat} {lead : Utf8Lead} {bs rest : List UInt8}
    (hlead : utf8Lead b = some lead)
    (h : utf8Tails lead.tails lead.low lead.high lead.value bs = (some code, rest)) :
    0x80 ≤ code := by
  have hbound : 0 < lead.tails ∧
      0x80 ≤ (lead.value * 64 + (lead.low - 0x80)) * 64 ^ (lead.tails - 1) := by
    unfold utf8Lead at hlead
    split_ifs at hlead <;> cases hlead <;> simp <;> omega
  exact hbound.2.trans (le_utf8Tails hbound.1 h)

/-- ASCII text can only have come from its own bytes. -/
theorem bytes_of_fromUtf8Lossy {bs : List UInt8} {t : Text} (h : fromUtf8Lossy bs = t)
    (ht : ∀ c ∈ t, IsAscii c) : bs = t.map fun c => UInt8.ofNat c.toNat := by
  unfold fromUtf8Lossy at h
  fun_induction decodeUtf8 bs generalizing t with
  | case1 => rw [← h]; rfl
  | case2 b bs hb ih =>
    -- an ASCII byte
    subst h
    rw [List.map_cons, List.map_cons, Option.getD_some, toNat_ofNat_of_lt_128 hb, ← ih rfl
      fun c hc => ht c (by simp [hc])]
    simp
  | case3 b bs hb hlead ih =>
    -- no sequence begins with this byte
    subst h
    exact absurd (ht '\ufffd' (by simp)).2 (by decide)
  | case4 b bs hb lead hlead code rest htails ih =>
    -- a sequence of several bytes, or the front of one
    subst h
    cases code with
    | none => exact absurd (ht '\ufffd' (by simp)).2 (by decide)
    | some code =>
      have hcode := code_of_lead hlead htails
      have hc := ht (Char.ofNat code) (by simp)
      unfold IsAscii at hc
      rcases toNat_ofNat_or code with h0 | h0 <;> omega

/-- The bytes of ASCII text are its own. -/
theorem fromUtf8_ascii {bs : List UInt8} (h : ∀ b ∈ bs, b.toNat < 0x80) :
    fromUtf8 bs = some (bs.map fun b => Char.ofNat b.toNat) := by
  unfold fromUtf8
  induction bs with
  | nil => simp [decodeUtf8]
  | cons b bs ih =>
    have hb := h b (by simp)
    rw [decodeUtf8, if_pos hb, List.mapM_cons, ih fun c hc => h c (by simp [hc])]
    rfl

theorem fromUtf8Lossy_eq_nil {bs : List UInt8} : fromUtf8Lossy bs = [] ↔ bs = [] := by
  refine ⟨fun h => ?_, fun h => by rw [h, fromUtf8Lossy, decodeUtf8, List.map_nil]⟩
  cases bs with
  | nil => rfl
  | cons b bs =>
    rw [fromUtf8Lossy, List.map_eq_nil_iff, decodeUtf8] at h
    split at h
    · cases h
    · split at h <;> cases h

/-! ### Decoding what was encoded -/

theorem toNat_ofNat_byte {n : Nat} (h : n < 256) : (UInt8.ofNat n).toNat = n := by
  rw [UInt8.toNat_ofNat', Nat.mod_eq_of_lt h]

/-- A sequence that is whole is the character it stands for. -/
theorem decodeUtf8_lead {b : UInt8} {lead : Utf8Lead} {tails bs : List UInt8} {code : Nat}
    (hb : ¬ b.toNat < 0x80) (hlead : utf8Lead b.toNat = some lead)
    (htails : utf8Tails lead.tails lead.low lead.high lead.value (tails ++ bs) = (some code, bs)) :
    decodeUtf8 (b :: (tails ++ bs)) = some (Char.ofNat code) :: decodeUtf8 bs := by
  rw [decodeUtf8, if_neg hb, hlead]
  dsimp only
  rw [htails]
  rfl

/-- One more byte of a sequence. -/
theorem utf8Tails_step {k low high value n : Nat} {bs : List UInt8} (hlow : low ≤ n)
    (hhigh : n ≤ high) (hn : n < 256) :
    utf8Tails (k + 1) low high value (UInt8.ofNat n :: bs) =
      utf8Tails k 0x80 0xbf (value * 64 + (n - 0x80)) bs := by
  rw [utf8Tails, toNat_ofNat_byte hn, if_pos ⟨hlow, hhigh⟩]

private theorem utf8Lead_two {n : Nat} (h : n < 0x10) :
    utf8Lead (n + 0xe0) =
      some ⟨2, if n = 0 then 0xa0 else 0x80, if n = 0xd then 0x9f else 0xbf, n⟩ := by
  interval_cases n <;> rfl

private theorem utf8Lead_three {n : Nat} (h : n < 5) :
    utf8Lead (n + 0xf0) =
      some ⟨3, if n = 0 then 0x90 else 0x80, if n = 4 then 0x8f else 0xbf, n⟩ := by
  interval_cases n <;> rfl

theorem utf8EncodeChar_eq (c : Char) :
    String.utf8EncodeChar c =
      if c.toNat ≤ 0x7f then [UInt8.ofNat c.toNat]
      else if c.toNat ≤ 0x7ff then
        [UInt8.ofNat (c.toNat / 64 % 0x20 + 0xc0), UInt8.ofNat (c.toNat % 0x40 + 0x80)]
      else if c.toNat ≤ 0xffff then
        [UInt8.ofNat (c.toNat / 4096 % 0x10 + 0xe0), UInt8.ofNat (c.toNat / 64 % 0x40 + 0x80),
          UInt8.ofNat (c.toNat % 0x40 + 0x80)]
      else
        [UInt8.ofNat (c.toNat / 262144 % 0x08 + 0xf0), UInt8.ofNat (c.toNat / 4096 % 0x40 + 0x80),
          UInt8.ofNat (c.toNat / 64 % 0x40 + 0x80), UInt8.ofNat (c.toNat % 0x40 + 0x80)] := rfl

/-- **A character comes back from its bytes.** -/
theorem decodeUtf8_char (c : Char) (bs : List UInt8) :
    decodeUtf8 (String.utf8EncodeChar c ++ bs) = some c :: decodeUtf8 bs := by
  have hvalid : c.toNat < 0xd800 ∨ 0xdfff < c.toNat ∧ c.toNat < 0x110000 := c.valid
  have hc : Char.ofNat c.toNat = c := Char.ofNat_toNat c
  generalize hv : c.toNat = v at hvalid hc
  rw [utf8EncodeChar_eq, hv]
  split_ifs with h₁ h₂ h₃
  · show decodeUtf8 (_ :: bs) = _
    rw [decodeUtf8, toNat_ofNat_byte (by omega), if_pos (by omega), hc]
  · have hb := toNat_ofNat_byte (n := v / 64 % 0x20 + 0xc0) (by omega)
    have hcode : v / 64 % 0x20 * 64 + (v % 0x40 + 0x80 - 0x80) = v := by omega
    have htails : utf8Tails 1 0x80 0xbf (v / 64 % 0x20) (UInt8.ofNat (v % 0x40 + 0x80) :: bs) =
        (some v, bs) := by
      rw [utf8Tails_step (by omega) (by omega) (by omega), utf8Tails, hcode]
    have hlead : utf8Lead (v / 64 % 0x20 + 0xc0) = some ⟨1, 0x80, 0xbf, v / 64 % 0x20⟩ := by
      rw [utf8Lead, if_pos (by omega), Nat.add_sub_cancel]
    rw [← hc]
    exact @decodeUtf8_lead _ _ [_] _ _ (by omega) (hb.symm ▸ hlead) htails
  · have hb := toNat_ofNat_byte (n := v / 4096 % 0x10 + 0xe0) (by omega)
    have hcode : (v / 4096 % 0x10 * 64 + (v / 64 % 0x40 + 0x80 - 0x80)) * 64 +
        (v % 0x40 + 0x80 - 0x80) = v := by omega
    have htails : utf8Tails 2 (if v / 4096 % 0x10 = 0 then 0xa0 else 0x80)
        (if v / 4096 % 0x10 = 0xd then 0x9f else 0xbf) (v / 4096 % 0x10)
        (UInt8.ofNat (v / 64 % 0x40 + 0x80) :: UInt8.ofNat (v % 0x40 + 0x80) :: bs) =
        (some v, bs) := by
      rw [utf8Tails_step (by split <;> omega) (by split <;> omega) (by omega),
        utf8Tails_step (by omega) (by omega) (by omega), utf8Tails, hcode]
    rw [← hc]
    exact @decodeUtf8_lead _ _ [_, _] _ _ (by omega) (hb.symm ▸ utf8Lead_two (by omega)) htails
  · have hb := toNat_ofNat_byte (n := v / 262144 % 0x08 + 0xf0) (by omega)
    have hcode : ((v / 262144 % 0x08 * 64 + (v / 4096 % 0x40 + 0x80 - 0x80)) * 64 +
        (v / 64 % 0x40 + 0x80 - 0x80)) * 64 + (v % 0x40 + 0x80 - 0x80) = v := by omega
    have htails : utf8Tails 3 (if v / 262144 % 0x08 = 0 then 0x90 else 0x80)
        (if v / 262144 % 0x08 = 4 then 0x8f else 0xbf) (v / 262144 % 0x08)
        (UInt8.ofNat (v / 4096 % 0x40 + 0x80) :: UInt8.ofNat (v / 64 % 0x40 + 0x80) ::
          UInt8.ofNat (v % 0x40 + 0x80) :: bs) = (some v, bs) := by
      rw [utf8Tails_step (by split <;> omega) (by split <;> omega) (by omega),
        utf8Tails_step (by omega) (by omega) (by omega),
        utf8Tails_step (by omega) (by omega) (by omega), utf8Tails, hcode]
    rw [← hc]
    exact @decodeUtf8_lead _ _ [_, _, _] _ _ (by omega) (hb.symm ▸ utf8Lead_three (by omega))
      htails

/-- **Text comes back from its bytes.** -/
theorem fromUtf8Lossy_utf8 (t : Text) : fromUtf8Lossy (utf8 t) = t := by
  unfold fromUtf8Lossy
  induction t with
  | nil => rw [utf8_nil, decodeUtf8, List.map_nil]
  | cons c t ih =>
    show (decodeUtf8 (String.utf8EncodeChar c ++ utf8 t)).map _ = _
    rw [decodeUtf8_char, List.map_cons, ih]
    rfl

/-- Text in front is text in front. -/
theorem fromUtf8Lossy_utf8_append (t : Text) (bs : List UInt8) :
    fromUtf8Lossy (utf8 t ++ bs) = t ++ fromUtf8Lossy bs := by
  unfold fromUtf8Lossy
  induction t with
  | nil => rfl
  | cons c t ih =>
    show (decodeUtf8 (String.utf8EncodeChar c ++ utf8 t ++ bs)).map _ = _
    rw [List.append_assoc, decodeUtf8_char, List.map_cons, ih]
    rfl

/-! ### Sequences that are cut short -/

/-- A sequence that is whole is not when bytes of it are missing. -/
private theorem utf8Tails_cut {k low high value code : Nat} {bs cut : List UInt8}
    (h : utf8Tails k low high value bs = (some code, [])) (hcut : cut <+: bs) (hne : cut ≠ bs) :
    utf8Tails k low high value cut = (none, []) := by
  fun_induction utf8Tails k low high value bs generalizing cut with
  | case1 low high value bs =>
    cases h
    exact absurd (List.prefix_nil.mp hcut) hne
  | case2 => cases h
  | case3 k low high value b bs hb ih =>
    cases cut with
    | nil => rfl
    | cons b' cut =>
      obtain ⟨rfl, hrest⟩ := List.cons_prefix_cons.mp hcut
      rw [utf8Tails, if_pos hb]
      exact ih h hrest fun hrest => hne (by rw [hrest])
  | case4 => cases h

/-- What is left of a character that is cut short is one part of a sequence. -/
theorem decodeUtf8_cut {c : Char} {cut : List UInt8} (hcut : cut <+: String.utf8EncodeChar c)
    (hnil : cut ≠ []) (hne : cut ≠ String.utf8EncodeChar c) : decodeUtf8 cut = [none] := by
  have hwhole := decodeUtf8_char c []
  rw [List.append_nil] at hwhole
  cases cut with
  | nil => exact absurd rfl hnil
  | cons b cut =>
    obtain ⟨rest, hrest⟩ := hcut
    rw [← hrest, List.cons_append] at hwhole hne
    have hdecode : decodeUtf8 [] = [] := by rw [decodeUtf8]
    rw [hdecode, decodeUtf8] at hwhole
    have hcut : cut <+: cut ++ rest := List.prefix_append _ _
    have hne : cut ≠ cut ++ rest := fun h => hne (by rw [← h])
    split at hwhole
    · -- a byte in the ASCII range is the whole character
      have htail := (List.cons.inj hwhole).2
      have hempty : fromUtf8Lossy (cut ++ rest) = [] := by rw [fromUtf8Lossy, htail]; rfl
      rw [fromUtf8Lossy_eq_nil] at hempty
      rw [hempty] at hcut hne
      exact absurd (List.prefix_nil.mp hcut) hne
    · rename_i hb
      split at hwhole
      · cases hwhole
      · rename_i lead hlead
        obtain ⟨hcode, htail⟩ := List.cons.inj hwhole
        have hempty : fromUtf8Lossy
            (utf8Tails lead.tails lead.low lead.high lead.value (cut ++ rest)).2 = [] := by
          rw [fromUtf8Lossy, htail]
          rfl
        obtain ⟨code, hcode⟩ := Option.map_eq_some_iff.mp hcode
        rw [decodeUtf8, if_neg hb, hlead]
        dsimp only
        rw [utf8Tails_cut (Prod.ext hcode.1 (fromUtf8Lossy_eq_nil.mp hempty)) hcut hne]
        rw [hdecode]
        rfl

/-- So many bytes of text are text, and what is left of one character. -/
theorem take_utf8 (t : Text) (n : Nat) :
    ∃ (t₁ t₂ : Text) (cut : List UInt8), t = t₁ ++ t₂ ∧ (utf8 t).take n = utf8 t₁ ++ cut ∧
      (cut = [] ∨ ∃ c, cut <+: String.utf8EncodeChar c ∧ cut ≠ [] ∧
        cut ≠ String.utf8EncodeChar c) := by
  induction t generalizing n with
  | nil => exact ⟨[], [], [], rfl, by rw [utf8_nil, List.take_nil]; rfl, .inl rfl⟩
  | cons c t ih =>
    have hcons : utf8 (c :: t) = String.utf8EncodeChar c ++ utf8 t := rfl
    by_cases hlt : n < (String.utf8EncodeChar c).length
    · refine ⟨[], c :: t, (String.utf8EncodeChar c).take n, rfl, ?_, ?_⟩
      · rw [hcons, List.take_append_of_le_length (by omega)]
        rfl
      · by_cases hnil : (String.utf8EncodeChar c).take n = []
        · exact .inl hnil
        · refine .inr ⟨c, List.take_prefix _ _, hnil, fun h => ?_⟩
          have hlen := congrArg List.length h
          rw [List.length_take] at hlen
          omega
    · obtain ⟨t₁, t₂, cut, rfl, htake, hcut⟩ := ih (n - (String.utf8EncodeChar c).length)
      refine ⟨c :: t₁, t₂, cut, rfl, ?_, hcut⟩
      rw [hcons, List.take_append, List.take_of_length_le (by omega), htake, ← List.append_assoc]
      rfl

/-! ### ASCII in text -/

/-- A byte in the ASCII range is a character of its own. -/
theorem mem_of_ascii_mem_utf8 {t : Text} {b : UInt8} (hb : b.toNat < 0x80) (h : b ∈ utf8 t) :
    Char.ofNat b.toNat ∈ t := by
  obtain ⟨c, hc, hbyte⟩ := List.mem_flatMap.mp h
  have hb_eq : c.toNat = b.toNat := by
    rw [utf8EncodeChar_eq] at hbyte
    split_ifs at hbyte with h₁ h₂ h₃ <;>
      simp only [List.mem_cons, List.not_mem_nil, or_false] at hbyte
    · rw [hbyte, toNat_ofNat_byte (by omega)]
    · rcases hbyte with rfl | rfl <;> rw [toNat_ofNat_byte (by omega)] at hb <;> omega
    · rcases hbyte with rfl | rfl | rfl <;> rw [toNat_ofNat_byte (by omega)] at hb <;> omega
    · rcases hbyte with rfl | rfl | rfl | rfl <;> rw [toNat_ofNat_byte (by omega)] at hb <;> omega
  rw [← hb_eq, Char.ofNat_toNat]
  exact hc

private theorem utf8Tails_suffix (k low high value : Nat) (bs : List UInt8) :
    (utf8Tails k low high value bs).2 <:+ bs := by
  fun_induction utf8Tails k low high value bs with
  | case1 => exact List.suffix_refl _
  | case2 => exact List.suffix_refl _
  | case3 _ _ _ _ b bs _ ih => exact ih.trans (List.suffix_cons _ _)
  | case4 => exact List.suffix_refl _

/-- A character in the ASCII range is a byte of its own. -/
theorem mem_of_ascii_mem_fromUtf8Lossy {bs : List UInt8} {c : Char} (hc : IsAscii c)
    (h : c ∈ fromUtf8Lossy bs) : UInt8.ofNat c.toNat ∈ bs := by
  unfold IsAscii at hc
  unfold fromUtf8Lossy at h
  fun_induction decodeUtf8 bs with
  | case1 => cases h
  | case2 b bs hb ih =>
    rcases List.mem_cons.mp h with rfl | h
    · show UInt8.ofNat (Char.ofNat b.toNat).toNat ∈ b :: bs
      rw [toNat_ofNat_of_lt_128 hb, UInt8.ofNat_toNat]
      exact List.mem_cons_self
    · exact List.mem_cons_of_mem _ (ih h)
  | case3 b bs hb hlead ih =>
    rcases List.mem_cons.mp h with rfl | h
    · exact absurd hc.2 (by decide)
    · exact List.mem_cons_of_mem _ (ih h)
  | case4 b bs hb lead hlead code rest htails ih =>
    rcases List.mem_cons.mp h with rfl | h
    · cases code with
      | none => exact absurd hc.2 (by decide)
      | some code =>
        have hcode := code_of_lead hlead htails
        have hlt : (Char.ofNat code).toNat < 0x80 := hc.2
        have hpos : 0 < (Char.ofNat code).toNat := hc.1
        rcases toNat_ofNat_or code with h0 | h0 <;> omega
    · have hsub := utf8Tails_suffix lead.tails lead.low lead.high lead.value bs
      rw [htails] at hsub
      exact List.mem_cons_of_mem _ (hsub.subset (ih h))

end Omdrop.Text
