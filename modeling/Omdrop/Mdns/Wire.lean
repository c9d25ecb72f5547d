import Mathlib

namespace Omdrop.Mdns

/-!
# Names in DNS messages

A message is bytes, and `At` says which bytes stand in it where.  A name is a list of labels;
`NameAt` says that one is written from an offset on, label by label or with pointers to where the
rest of it is written, and `wire` is a name as it is written without pointers.
-/

/-- Those bytes stand in a message, from an offset on. -/
def At (msg : List UInt8) (off : Nat) (bs : List UInt8) : Prop := bs <+: msg.drop off

section At

variable {msg bs cs : List UInt8} {off : Nat} {b : UInt8}

/-- Bytes between others stand after the first of them. -/
theorem at_append (pre bs post : List UInt8) : At (pre ++ (bs ++ post)) pre.length bs := by
  unfold At
  rw [List.drop_left]
  exact List.prefix_append _ _

/-- The front of bytes that stand somewhere stands there. -/
theorem At.left (h : At msg off (bs ++ cs)) : At msg off bs := (List.prefix_append _ _).trans h

/-- What follows the front stands behind it. -/
theorem At.right (h : At msg off (bs ++ cs)) : At msg (off + bs.length) cs := by
  obtain ⟨post, hpost⟩ := h
  refine ⟨post, ?_⟩
  rw [← List.drop_drop, ← hpost, List.append_assoc, List.drop_left]

/-- The first byte stands at the offset. -/
theorem At.head (h : At msg off (b :: bs)) : msg[off]? = some b := by
  obtain ⟨post, hpost⟩ := h
  rw [← List.head?_drop, ← hpost]
  rfl

/-- The others stand after it. -/
theorem At.tail (h : At msg off (b :: bs)) : At msg (off + 1) bs := @At.right _ [b] _ _ h

/-- Of the bytes from the offset on, as many as these are these. -/
theorem At.take (h : At msg off bs) : (msg.drop off).take bs.length = bs := by
  obtain ⟨post, hpost⟩ := h
  rw [← hpost, List.take_left]

/-- Bytes that stand in a packet end within it. -/
theorem At.le (h : At msg off bs) (hne : bs ≠ []) : off + bs.length ≤ msg.length := by
  have hlen := h.length_le
  have hpos := List.length_pos_iff.mpr hne
  rw [List.length_drop] at hlen
  omega

end At

/-! ### Numbers and slices -/

/-- The 16-bit number at an offset, high byte first. -/
def be16 (msg : List UInt8) (off : Nat) : Option Nat := do
  let hi ← msg[off]?
  let lo ← msg[off + 1]?
  some (hi.toNat * 256 + lo.toNat)

/-- A number in two bytes. -/
def toBe16 (n : Nat) : List UInt8 := [.ofNat (n / 256), .ofNat n]

/-- The 32-bit number at an offset. -/
def be32 (msg : List UInt8) (off : Nat) : Option Nat := do
  let hi ← be16 msg off
  let lo ← be16 msg (off + 2)
  some (hi * 65536 + lo)

/-- A number in four bytes. -/
def toBe32 (n : Nat) : List UInt8 := toBe16 (n / 65536) ++ toBe16 (n % 65536)

/-- The `n` bytes at an offset. -/
def slice (msg : List UInt8) (off n : Nat) : Option (List UInt8) :=
  if off + n ≤ msg.length then some ((msg.drop off).take n) else none

@[simp] theorem length_toBe16 (n : Nat) : (toBe16 n).length = 2 := rfl
@[simp] theorem length_toBe32 (n : Nat) : (toBe32 n).length = 4 := rfl

/-- A 16-bit number is read where it stands. -/
theorem be16_at {msg : List UInt8} {off n : Nat} (hn : n < 65536) (h : At msg off (toBe16 n)) :
    be16 msg off = some n := by
  have hlo : At msg (off + 1) [.ofNat n] := h.tail
  unfold be16
  rw [h.head, hlo.head]
  simp only [Option.bind_eq_bind, Option.bind_some, UInt8.toNat_ofNat', Option.some.injEq]
  omega

/-- A 32-bit number is read where it stands. -/
theorem be32_at {msg : List UInt8} {off n : Nat} (hn : n < 2 ^ 32) (h : At msg off (toBe32 n)) :
    be32 msg off = some n := by
  have hhi : be16 msg off = some (n / 65536) := be16_at (by omega) h.left
  have hlo : be16 msg (off + 2) = some (n % 65536) := be16_at (by omega) h.right
  unfold be32
  rw [hhi, hlo]
  simp only [Option.bind_eq_bind, Option.bind_some, Option.some.injEq]
  omega

/-- Bytes are sliced from where they stand. -/
theorem slice_at {msg bs : List UInt8} {off : Nat} (hoff : off ≤ msg.length)
    (h : At msg off bs) : slice msg off bs.length = some bs := by
  have hlen := h.length_le
  rw [List.length_drop] at hlen
  unfold slice
  rw [if_pos (by omega), h.take]

/-! ### Names -/

/-- From an offset on, a name is written in a message: its labels, the pointers that lead to them,
    and the offset behind it. -/
inductive NameAt (msg : List UInt8) : Nat → List (List UInt8) → Nat → Nat → Prop
  | root {off : Nat} (h : At msg off [0]) : NameAt msg off [] 0 (off + 1)
  | label {off hops next : Nat} {l : List UInt8} {ls : List (List UInt8)} (hne : l ≠ [])
      (hlen : l.length < 64) (h : At msg off (.ofNat l.length :: l))
      (rest : NameAt msg (off + 1 + l.length) ls hops next) : NameAt msg off (l :: ls) hops next
  | pointer {off target hops next : Nat} {ls : List (List UInt8)} (htarget : target < 0x4000)
      (h : At msg off (toBe16 (0xc000 + target))) (rest : NameAt msg target ls hops next) :
      NameAt msg off ls (hops + 1) (off + 2)

/-- From an offset on, a name with labels shorter than `most` is written in a message: its labels,
    the pointers that lead to them, and the offset behind it. -/
inductive WalkAt (most : Nat) (msg : List UInt8) : Nat → List (List UInt8) → Nat → Nat → Prop
  | root {off : Nat} (h : At msg off [0]) : WalkAt most msg off [] 0 (off + 1)
  | label {off hops next : Nat} {l : List UInt8} {ls : List (List UInt8)} (hne : l ≠ [])
      (hlen : l.length < most) (h : At msg off (.ofNat l.length :: l))
      (rest : WalkAt most msg (off + 1 + l.length) ls hops next) :
      WalkAt most msg off (l :: ls) hops next
  | pointer {off target hops next : Nat} {ls : List (List UInt8)} (htarget : target < 0x4000)
      (h : At msg off (toBe16 (0xc000 + target))) (rest : WalkAt most msg target ls hops next) :
      WalkAt most msg off ls (hops + 1) (off + 2)

/-- A name as it is written without pointers. -/
def wire (ls : List (List UInt8)) : List UInt8 :=
  ls.flatMap (fun l => .ofNat l.length :: l) ++ [0]

/-- A label that can be written. -/
def Fits (l : List UInt8) : Prop := l ≠ [] ∧ l.length < 64

/-- A label is written as its length and its bytes. -/
theorem wire_cons (l : List UInt8) (ls : List (List UInt8)) :
    wire (l :: ls) = .ofNat l.length :: (l ++ wire ls) := by
  unfold wire
  simp

/-- A name takes a byte for each label and one for its end. -/
theorem length_wire (ls : List (List UInt8)) :
    (wire ls).length = (ls.map (·.length + 1)).sum + 1 := by
  induction ls with
  | nil => rfl
  | cons l ls ih =>
    rw [wire_cons, List.length_cons, List.length_append, ih, List.map_cons, List.sum_cons]
    omega

/-- **What is written without pointers is a name.** -/
theorem nameAt_wire {msg : List UInt8} {off : Nat} {ls : List (List UInt8)}
    (hls : ∀ l ∈ ls, Fits l) (h : At msg off (wire ls)) :
    NameAt msg off ls 0 (off + (wire ls).length) := by
  induction ls generalizing off with
  | nil => exact .root h
  | cons l ls ih =>
    rw [wire_cons] at h
    have hl := hls l List.mem_cons_self
    have hlabel : At msg off (.ofNat l.length :: l) := @At.left _ (_ :: l) (wire ls) _ h
    have hrest : At msg (off + 1 + l.length) (wire ls) := h.tail.right
    have hnext : off + (wire (l :: ls)).length = off + 1 + l.length + (wire ls).length := by
      rw [wire_cons, List.length_cons, List.length_append]
      omega
    rw [hnext]
    exact .label hl.1 hl.2 hlabel (ih (fun x hx => hls x (List.mem_cons_of_mem _ hx)) hrest)

/-- A name stands inside its message. -/
theorem NameAt.lt {msg : List UInt8} {off hops next : Nat} {ls : List (List UInt8)}
    (h : NameAt msg off ls hops next) : off < msg.length := by
  have hhead {b : UInt8} {bs : List UInt8} (hat : At msg off (b :: bs)) : off < msg.length :=
    (List.getElem?_eq_some_iff.mp hat.head).1
  cases h with
  | root hat => exact hhead hat
  | label _ _ hat _ => exact hhead hat
  | pointer _ hat _ => exact hhead hat

/-- What the browser takes for a name. -/
theorem walkAt_iff {msg : List UInt8} {off hops next : Nat} {ls : List (List UInt8)} :
    WalkAt 64 msg off ls hops next ↔ NameAt msg off ls hops next := by
  constructor
  · intro h
    induction h with
    | root h => exact .root h
    | label hne hlen h _ ih => exact .label hne hlen h ih
    | pointer htarget h _ ih => exact .pointer htarget h ih
  · intro h
    induction h with
    | root h => exact .root h
    | label hne hlen h _ ih => exact .label hne hlen h ih
    | pointer htarget h _ ih => exact .pointer htarget h ih

/-- A walk is one for longer labels too. -/
theorem WalkAt.mono {most most' : Nat} (hmost : most ≤ most') {msg : List UInt8}
    {off hops next : Nat} {ls : List (List UInt8)} (h : WalkAt most msg off ls hops next) :
    WalkAt most' msg off ls hops next := by
  induction h with
  | root h => exact .root h
  | label hne hlen h _ ih => exact .label hne (by omega) h ih
  | pointer htarget h _ ih => exact .pointer htarget h ih

/-! ### Bytes that lead on -/

set_option maxRecDepth 4000 in

/-- The two high bits tell a label from a pointer. -/
theorem mask_iff (b : UInt8) :
    (b &&& 0xc0 = 0 ↔ b.toNat < 64) ∧ (b &&& 0xc0 = 0xc0 ↔ 192 ≤ b.toNat) := by
  have hall : ∀ n < 256, (UInt8.ofNat n &&& 0xc0 = 0 ↔ n < 64) ∧
      (UInt8.ofNat n &&& 0xc0 = 0xc0 ↔ 192 ≤ n) := by decide
  have h := hall b.toNat b.toNat_lt
  rwa [UInt8.ofNat_toNat] at h

/-- A label that fits has its length in a byte that is not zero. -/
theorem label_byte {l : List UInt8} (hne : l ≠ []) (hlen : l.length < 192) :
    (UInt8.ofNat l.length).toNat = l.length ∧ UInt8.ofNat l.length ≠ 0 := by
  have hbyte : (UInt8.ofNat l.length).toNat = l.length := by
    rw [UInt8.toNat_ofNat']
    omega
  refine ⟨hbyte, fun h => hne (List.eq_nil_of_length_eq_zero ?_)⟩
  rw [← hbyte, h]
  rfl

/-- A pointer's first byte has both high bits. -/
theorem pointer_byte {target : Nat} (htarget : target < 0x4000) :
    192 ≤ (UInt8.ofNat ((0xc000 + target) / 256)).toNat := by
  rw [UInt8.toNat_ofNat']
  omega

end Omdrop.Mdns
