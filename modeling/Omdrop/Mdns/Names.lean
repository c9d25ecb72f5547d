import Mathlib
import Omdrop.Mdns.Respond

namespace Omdrop.Mdns

open Omdrop.Text

/-!
# Which names are read

`readers_exact` says that the browser's reader and the responder's come to exactly the walks along a
name and its pointers that stay within their limits.
-/

section Walks

variable {most : Nat} {msg : List UInt8} {off hops next : Nat} {ls : List (List UInt8)}

/-- A walk ends inside its message. -/
theorem WalkAt.next_le (h : WalkAt most msg off ls hops next) : next ≤ msg.length := by
  induction h with
  | root h => exact h.le (by simp)
  | label _ _ _ _ ih => exact ih
  | pointer _ h _ _ => exact h.le (by simp [toBe16])

/-- A walk that starts at an end of name is over. -/
theorem WalkAt.of_root (hmost : most ≤ 192) (hat : At msg off [0])
    (h : WalkAt most msg off ls hops next) : ls = [] ∧ hops = 0 ∧ next = off + 1 := by
  cases h with
  | root => exact ⟨rfl, rfl, rfl⟩
  | label hne hlen hlabel _ =>
    have hbyte := Option.some.inj (hat.head.symm.trans hlabel.head)
    exact absurd hbyte.symm (label_byte hne (by omega)).2
  | pointer htarget hptr _ =>
    have hbyte := Option.some.inj (hat.head.symm.trans hptr.head)
    have hle := pointer_byte htarget
    rw [← hbyte] at hle
    exact absurd hle (by decide)

/-- A walk that starts at a label goes on behind it. -/
theorem WalkAt.of_label {l : List UInt8} (hmost : most ≤ 192) (hne : l ≠ [])
    (hlen : l.length < most) (hat : At msg off (.ofNat l.length :: l))
    (h : WalkAt most msg off ls hops next) :
    ∃ ls', ls = l :: ls' ∧ WalkAt most msg (off + 1 + l.length) ls' hops next := by
  obtain ⟨hnat, hzero⟩ := label_byte hne (by omega)
  cases h with
  | root hroot => exact absurd (Option.some.inj (hat.head.symm.trans hroot.head)) hzero
  | @label _ _ _ l' ls' hne' hlen' hat' rest =>
    have hbyte := Option.some.inj (hat.head.symm.trans hat'.head)
    have hsame : l.length = l'.length := by
      rw [← hnat, hbyte, (label_byte hne' (by omega)).1]
    have hl : l = l' := by
      rw [← hat.tail.take, hsame, hat'.tail.take]
    subst hl
    exact ⟨ls', rfl, rest⟩
  | pointer htarget hptr _ =>
    have hbyte := Option.some.inj (hat.head.symm.trans hptr.head)
    have hle := pointer_byte htarget
    rw [← hbyte, hnat] at hle
    omega

/-- A walk that starts at a pointer goes on where it points to. -/
theorem WalkAt.of_pointer {target : Nat} (hmost : most ≤ 192) (htarget : target < 0x4000)
    (hat : At msg off (toBe16 (0xc000 + target))) (h : WalkAt most msg off ls hops next) :
    ∃ hops' next', hops = hops' + 1 ∧ next = off + 2 ∧ WalkAt most msg target ls hops' next' := by
  have hle := pointer_byte htarget
  cases h with
  | root hroot =>
    rw [Option.some.inj (hat.head.symm.trans hroot.head)] at hle
    exact absurd hle (by decide)
  | label hne hlen hlabel _ =>
    rw [Option.some.inj (hat.head.symm.trans hlabel.head), (label_byte hne (by omega)).1] at hle
    omega
  | @pointer _ target' hops' next' _ htarget' hat' rest =>
    have hword : 0xc000 + target = 0xc000 + target' :=
      Option.some.inj ((be16_at (by omega) hat).symm.trans (be16_at (by omega) hat'))
    have hsame : target' = target := by omega
    subst hsame
    exact ⟨hops', next', rfl, rfl, rest⟩

/-- **There is one walk.** -/
theorem WalkAt.unique (hmost : most ≤ 192) {hops' next' : Nat} {ls' : List (List UInt8)}
    (h : WalkAt most msg off ls hops next) (h' : WalkAt most msg off ls' hops' next') :
    ls = ls' ∧ hops = hops' ∧ next = next' := by
  induction h generalizing ls' hops' next' with
  | root hat =>
    obtain ⟨rfl, rfl, rfl⟩ := h'.of_root hmost hat
    exact ⟨rfl, rfl, rfl⟩
  | label hne hlen hat _ ih =>
    obtain ⟨ls'', rfl, h''⟩ := h'.of_label hmost hne hlen hat
    obtain ⟨rfl, rfl, rfl⟩ := ih h''
    exact ⟨rfl, rfl, rfl⟩
  | pointer htarget hat _ ih =>
    obtain ⟨hops'', next'', rfl, rfl, h''⟩ := h'.of_pointer hmost htarget hat
    obtain ⟨rfl, rfl, -⟩ := ih h''
    exact ⟨rfl, rfl, rfl⟩

end Walks

/-! ### What is read is there -/

/-- What a slice takes out stands there. -/
private theorem at_of_slice {msg bs : List UInt8} {off n : Nat} (h : slice msg off n = some bs) :
    bs.length = n ∧ At msg off bs := by
  unfold slice at h
  split at h
  · rename_i hle
    cases h
    exact ⟨by rw [List.length_take, List.length_drop]; omega, List.take_prefix _ _⟩
  · cases h

/-- A byte and what stands behind it stand there. -/
theorem at_cons {msg bs : List UInt8} {off : Nat} {b : UInt8} (hb : msg[off]? = some b)
    (h : At msg (off + 1) bs) : At msg off (b :: bs) := by
  obtain ⟨hoff, rfl⟩ := List.getElem?_eq_some_iff.mp hb
  obtain ⟨post, hpost⟩ := h
  refine ⟨post, ?_⟩
  rw [List.cons_append, hpost, ← List.drop_eq_getElem_cons hoff]

/-- A label that is sliced out goes before the walk behind it. -/
theorem WalkAt.of_slice {most : Nat} {msg : List UInt8} {off hops next : Nat} {len : UInt8}
    {label : List UInt8} {ls : List (List UInt8)} (hbyte : msg[off]? = some len)
    (hzero : ¬len = 0) (hlt : len.toNat < most) (hslice : slice msg (off + 1) len.toNat = some label)
    (rest : WalkAt most msg (off + 1 + len.toNat) ls hops next) :
    WalkAt most msg off (label :: ls) hops next := by
  obtain ⟨hlen, hat⟩ := at_of_slice hslice
  have hne : label ≠ [] := by
    intro hnil
    rw [hnil] at hlen
    exact hzero (UInt8.toNat_inj.mp hlen.symm)
  have hofNat : UInt8.ofNat label.length = len := by rw [hlen, UInt8.ofNat_toNat]
  rw [← hlen] at rest
  apply WalkAt.label hne (by omega) _ rest
  rw [hofNat]
  exact at_cons hbyte hat

/-- Two bytes that lead on as a pointer are one. -/
theorem at_pointer {msg : List UInt8} {off : Nat} {hi lo : UInt8} (hhi : msg[off]? = some hi)
    (hlo : msg[off + 1]? = some lo) (h : 192 ≤ hi.toNat) :
    At msg off (toBe16 (0xc000 + ((hi.toNat - 192) * 256 + lo.toNat))) := by
  have hhigh : (0xc000 + ((hi.toNat - 192) * 256 + lo.toNat)) / 256 = hi.toNat := by
    have := lo.toNat_lt
    omega
  have hlow : UInt8.ofNat (0xc000 + ((hi.toNat - 192) * 256 + lo.toNat)) = lo := by
    apply UInt8.toNat_inj.mp
    rw [UInt8.toNat_ofNat']
    have := lo.toNat_lt
    omega
  unfold toBe16
  rw [hhigh, hlow, UInt8.ofNat_toNat]
  apply at_cons hhi
  apply at_cons hlo
  exact List.nil_prefix

section

variable {msg : List UInt8} {off : Nat} {acc : List Text} {name : Text} {next : Nat}

/-- What the browser reads is a walk. -/
private theorem walkAt_of_readNameFrom {behind : Option Nat} {jumps total : Nat}
    (hjumps : jumps ≤ 32)
    (htotal : total ≤ 255) (h : readNameFrom msg off behind jumps total acc = some (name, next)) :
    ∃ ls hops after, WalkAt 64 msg off ls hops after ∧ jumps + hops ≤ 32 ∧
      total + (ls.map (·.length + 1)).sum ≤ 255 ∧
      name = dotted (acc ++ ls.map fromUtf8Lossy) ∧ next = behind.getD after := by
  fun_induction readNameFrom msg off behind jumps total acc with
  | case1 => cases h
  | case2 off behind jumps total acc hbyte =>
    -- the empty label ends the name
    cases h
    refine ⟨[], 0, off + 1, .root (at_cons hbyte List.nil_prefix), hjumps, htotal, ?_, rfl⟩
    rw [List.map_nil, List.append_nil]
  | case3 => cases h
  | case4 => cases h
  | case5 off behind jumps total acc len hbyte hmask hzero label hslice hfits ih =>
    -- a label is added to the name
    have hlt := (mask_iff len).1.mp hmask
    obtain ⟨ls, hops, after, hwalk, hhops, hsize, hname, hnext⟩ := ih hjumps (by omega) h
    refine ⟨label :: ls, hops, after, .of_slice hbyte hzero hlt hslice hwalk, hhops, ?_, ?_, hnext⟩
    · rw [List.map_cons, List.sum_cons]
      omega
    · rw [hname, List.append_assoc]
      rfl
  | case6 => cases h
  | case7 => cases h
  | case8 off behind jumps total acc hi hbyte hlabel hmask word hword hgo ih =>
    -- a pointer leads to an earlier place
    have hle := (mask_iff hi).2.mp hmask
    have hlt := hi.toNat_lt
    obtain ⟨ls, hops, after, hwalk, hhops, hsize, hname, hnext⟩ := ih (by omega) htotal h
    unfold be16 at hword
    rw [hbyte] at hword
    cases hlo : msg[off + 1]? with
    | none =>
      rw [hlo] at hword
      cases hword
    | some lo =>
      rw [hlo] at hword
      cases hword
      have hlo' := lo.toNat_lt
      simp only [word_target hle] at hwalk
      exact ⟨ls, hops + 1, off + 2, .pointer (by omega) (at_pointer hbyte hlo hle) hwalk,
        by omega, hsize, hname, hnext⟩
  | case9 => cases h

/-- What the responder reads is a walk. -/
private theorem walkAt_of_dnsNameFrom {before : Option Nat} {hops : Nat} (hhops : hops ≤ 16)
    (h : dnsNameFrom msg off before hops acc = some (name, next)) :
    ∃ ls more after, WalkAt 192 msg off ls more after ∧ hops + more ≤ 16 ∧
      name = dotted (acc ++ ls.map lowerLabel) ∧ next = before.getD after := by
  fun_induction dnsNameFrom msg off before hops acc with
  | case1 => cases h
  | case2 off before hops acc hbyte =>
    -- the empty label ends the name
    cases h
    refine ⟨[], 0, off + 1, .root (at_cons hbyte List.nil_prefix), hhops, ?_, rfl⟩
    rw [List.map_nil, List.append_nil]
  | case3 => cases h
  | case4 => cases h
  | case5 off before hops acc hi hbyte hzero hmask lo hlo hgo ih =>
    -- a pointer leads to another place
    have hle := (mask_iff hi).2.mp hmask
    have hlt := hi.toNat_lt
    have hlt' := lo.toNat_lt
    obtain ⟨ls, more, after, hwalk, hmore, hname, hnext⟩ := ih (by omega) h
    rw [byte_target hle] at hwalk
    exact ⟨ls, more + 1, off + 2, .pointer (by omega) (at_pointer hbyte hlo hle) hwalk,
      by omega, hname, hnext⟩
  | case6 => cases h
  | case7 off before hops acc n hbyte hzero hmask label hslice ih =>
    -- whatever else is a label, however long
    have hlt : n.toNat < 192 := Nat.lt_of_not_le (mt (mask_iff n).2.mpr hmask)
    obtain ⟨ls, more, after, hwalk, hmore, hname, hnext⟩ := ih hhops h
    refine ⟨label :: ls, more, after, .of_slice hbyte hzero hlt hslice hwalk, hmore, ?_, hnext⟩
    rw [hname, List.append_assoc]
    rfl

end

/-- **The readers are exact.**  Whatever the packet and the offset, the browser reads a name exactly
    when there is a walk along labels shorter than 64 bytes that stays within 32 pointers and 255
    bytes, the responder when there is one along labels shorter than 192 bytes that stays within
    16 pointers; what they return is the labels of that walk, of which there is one, and the
    offset behind it, which is inside the packet. -/
theorem readers_exact (msg : List UInt8) (off : Nat) :
    (∀ name next, readName msg off = some (name, next) ↔
      ∃ ls hops, WalkAt 64 msg off ls hops next ∧ hops ≤ 32 ∧
        (ls.map (·.length + 1)).sum ≤ 255 ∧ name = dotted (ls.map fromUtf8Lossy)) ∧
    (∀ name next, dnsName msg off = some (name, next) ↔
      ∃ ls hops, WalkAt 192 msg off ls hops next ∧ hops ≤ 16 ∧
        name = dotted (ls.map lowerLabel)) ∧
    (∀ most ls hops next ls' hops' next', most ≤ 192 → WalkAt most msg off ls hops next →
      WalkAt most msg off ls' hops' next' → ls = ls' ∧ hops = hops' ∧ next = next') ∧
    ∀ most ls hops next, WalkAt most msg off ls hops next → next ≤ msg.length := by
  refine ⟨fun name next => ⟨fun h => ?_, ?_⟩, fun name next => ⟨fun h => ?_, ?_⟩,
    fun most ls hops next ls' hops' next' hmost h h' => h.unique hmost h',
    fun most ls hops next h => h.next_le⟩
  · obtain ⟨ls, hops, after, hwalk, hhops, hsize, hname, rfl⟩ :=
      walkAt_of_readNameFrom (by omega) (by omega) h
    rw [Nat.zero_add] at hhops hsize
    exact ⟨ls, hops, hwalk, hhops, hsize, hname⟩
  · rintro ⟨ls, hops, hwalk, hhops, hsize, rfl⟩
    exact readName_of_nameAt (walkAt_iff.mp hwalk) hhops hsize
  · obtain ⟨ls, hops, after, hwalk, hhops, hname, rfl⟩ := walkAt_of_dnsNameFrom (by omega) h
    rw [Nat.zero_add] at hhops
    exact ⟨ls, hops, hwalk, hhops, hname⟩
  · rintro ⟨ls, hops, hwalk, hhops, rfl⟩
    exact dnsName_of_walkAt hwalk hhops

end Omdrop.Mdns
