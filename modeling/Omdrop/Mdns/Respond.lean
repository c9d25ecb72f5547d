import Mathlib
import Omdrop.Mdns.Browse

namespace Omdrop.Mdns

open Omdrop.Text

/-!
# What the responder answers

`questions` reads the names that a query asks for, `ourNames` are those that the responder knows
as its own, and a query for one of them is `wanted`.  `wanted_iff` says for which hosts and
instances that covers the names that its replies are about.
-/

/-- A byte of a label in lower case, or a replacement character. -/
def lowerByte (b : UInt8) : Char :=
  if b < 0x80 then (Char.ofNat b.toNat).toLower else '\ufffd'

/-- A label in lower case. -/
def lowerLabel (l : List UInt8) : Text := l.map lowerByte

/-- A name, with or without pointers, from where it goes on: where the text behind it starts if a
    pointer was followed, how many were, and the labels so far. -/
def dnsNameFrom (pkt : List UInt8) (off : Nat) (next : Option Nat) (hops : Nat) (ls : List Text) :
    Option (Text × Nat) :=
  match _h : pkt[off]? with
  | none   => none
  | some n =>
    if hn : n = 0 then some (dotted ls, next.getD (off + 1))
    else if n &&& 0xc0 = 0xc0 then
      match pkt[off + 1]? with
      | none     => none
      | some low =>
        if hhops : 16 < hops + 1 then none
        else dnsNameFrom pkt ((n &&& 0x3f).toNat <<< 8 ||| low.toNat)
          (some (next.getD (off + 2))) (hops + 1) ls
    else
      match slice pkt (off + 1) n.toNat with
      | none       => none
      | some label => dnsNameFrom pkt (off + 1 + n.toNat) next hops (ls ++ [lowerLabel label])
termination_by (17 - hops, pkt.length - off)
decreasing_by
  · exact Prod.Lex.left _ _ (by omega)
  · have hoff := (List.getElem?_eq_some_iff.mp _h).1
    exact Prod.Lex.right _ (by omega)

/-- The name at an offset, and where the text behind it starts. -/
def dnsName (pkt : List UInt8) (off : Nat) : Option (Text × Nat) := dnsNameFrom pkt off none 0 []

/-- The names of so many questions. -/
def questionNames (dns : List UInt8) : Nat → Nat → Option (List Text)
  | 0, _       => some []
  | n + 1, off => do
    let (name, after) ← dnsName dns off
    some (name :: (← questionNames dns n (after + 4)))

/-- The names that a query asks for; none, if it is no query or not well formed. -/
def questions (dns : List UInt8) : List Text :=
  match be16 dns 2, be16 dns 4 with
  | some flags, some qd =>
    if dns.length < 12 ∨ flags &&& 0x8000 ≠ 0 ∨ qd = 0 then []
    else (questionNames dns qd 12).getD []
  | _, _                => []

def ethPIpv6 : Nat := 0x86dd
def mdnsPort : Nat := 5353
def snapHead : List UInt8 := [0xaa, 0xaa, 0x03]
def appleOui : List UInt8 := [0x00, 0x17, 0xf2]
def awdlProto : List UInt8 := [0x08, 0x00]

/-- Where a frame's IPv6 header starts. -/
def ipv6Offset (frame : List UInt8) : Option Nat := do
  let etype ← be16 frame 12
  if etype = ethPIpv6 then some 14
  else if etype ≤ 1500 ∧ slice frame 14 3 = some snapHead then
    let ouiPid ← slice frame 17 5
    if ouiPid.take 3 ≠ appleOui ∨ ouiPid.drop 3 ≠ awdlProto then none
    else if (← be16 frame 28) ≠ ethPIpv6 then none
    else some 30
  else none

/-- Who sent a frame to the mDNS port, and the message in it. -/
def mdnsPayload (frame : List UInt8) : Option (List UInt8 × List UInt8) := do
  let src ← slice frame 6 6
  let off ← ipv6Offset frame
  let ip6 ← slice frame off 40
  if ip6[6]? ≠ some 17 then none
  else
    let udp ← slice frame (off + 40) 8
    if (← be16 udp 2) ≠ mdnsPort then none
    else some (src, frame.drop (off + 48))

/-- A name without the dots at its end. -/
def trimDots (name : Text) : Text := name.rdropWhile (· == '.')

/-- The names that the responder answers for. -/
def ourNames (host sid : Text) : List Text :=
  [trimDots (lower host), service, lower (instanceName sid)]

/-- The first question of a frame that names one of ours, if it is a query from somebody else. -/
def wanted (frame mac : List UInt8) (ours : List Text) : Option (List UInt8 × Text) := do
  let (src, dns) ← mdnsPayload frame
  if src = mac then none
  else some (src, ← (questions dns).find? (· ∈ ours))

/-! ### Queries -/

/-- How a frame goes on behind the addresses: as IPv6, or as IPv6 in Apple's encapsulation. -/
inductive Link : List UInt8 → Prop
  | plain : Link (toBe16 ethPIpv6)
  | snap {len : Nat} {rest : List UInt8} (hlen : len ≤ 1500) (hrest : rest.length = 6) :
      Link (toBe16 len ++ (snapHead ++ (appleOui ++ (awdlProto ++ (rest ++ toBe16 ethPIpv6)))))

/-- The frame carries the message from there to the mDNS port. -/
def Carries (frame src dns : List UInt8) : Prop :=
  ∃ dst link ip6 udp, dst.length = 6 ∧ src.length = 6 ∧ Link link ∧ ip6.length = 40 ∧
    ip6[6]? = some 17 ∧ udp.length = 8 ∧ be16 udp 2 = some mdnsPort ∧
    frame = dst ++ (src ++ (link ++ (ip6 ++ (udp ++ dns))))

/-- From an offset on, a message asks for those names. -/
inductive Questions (dns : List UInt8) : Nat → List (List (List UInt8)) → Prop
  | nil {off : Nat} : Questions dns off []
  | cons {off hops next : Nat} {ls : List (List UInt8)} {qs : List (List (List UInt8))}
      (h : NameAt dns off ls hops next) (hhops : hops ≤ 16) (hnext : next + 4 ≤ dns.length)
      (rest : Questions dns (next + 4) qs) : Questions dns off (ls :: qs)

/-- The message is a query for those names. -/
structure Query (dns : List UInt8) (qs : List (List (List UInt8))) : Prop where
  header : 12 ≤ dns.length
  isQuery : ∃ flags < 0x8000, be16 dns 2 = some flags
  count : be16 dns 4 = some qs.length
  questions : Questions dns 12 qs

/-- The frame is a query from there that asks for a name, in whatever letter case. -/
def Asks (frame src : List UInt8) (owner : Text) : Prop :=
  ∃ dns qs ls, Carries frame src dns ∧ Query dns qs ∧ ls ∈ qs ∧
    ls.map lowerLabel = (labels owner).map lower

/-! ### Queries are read -/

/-- Where the responder takes a pointer to lead. -/
theorem byte_target {hi lo : UInt8} (h : 192 ≤ hi.toNat) :
    (hi &&& 0x3f).toNat <<< 8 ||| lo.toNat = (hi.toNat - 192) * 256 + lo.toNat := by
  have hlow : lo.toNat < 2 ^ 8 := lo.toNat_lt
  have hand := Nat.and_two_pow_sub_one_eq_mod hi.toNat 6
  norm_num at hand
  have hmask : (hi &&& 0x3f).toNat = hi.toNat % 64 := by
    rw [UInt8.toNat_and]
    exact hand
  rw [hmask, ← Nat.shiftLeft_add_eq_or_of_lt hlow, Nat.shiftLeft_eq]
  have := hi.toNat_lt
  omega

section

variable {pkt : List UInt8} {off hops : Nat} {next : Option Nat} {acc : List Text}

/-- The empty label ends a name. -/
private theorem dnsNameFrom_root (h : At pkt off [0]) :
    dnsNameFrom pkt off next hops acc = some (dotted acc, next.getD (off + 1)) := by
  unfold dnsNameFrom
  split <;> rename_i hbyte <;> rw [h.head] at hbyte <;> cases hbyte
  rfl

/-- A label is added to the name. -/
private theorem dnsNameFrom_label {l : List UInt8} (hne : l ≠ []) (hlt : l.length < 192)
    (h : At pkt off (.ofNat l.length :: l)) :
    dnsNameFrom pkt off next hops acc =
      dnsNameFrom pkt (off + 1 + l.length) next hops (acc ++ [lowerLabel l]) := by
  obtain ⟨hlen, hzero⟩ := label_byte hne hlt
  have hmask : UInt8.ofNat l.length &&& 0xc0 ≠ 0xc0 := fun hptr => by
    have hle := (mask_iff _).2.mp hptr
    rw [hlen] at hle
    omega
  have hslice : slice pkt (off + 1) l.length = some l :=
    slice_at (List.getElem?_eq_some_iff.mp h.head).1 h.tail
  conv_lhs => unfold dnsNameFrom
  split <;> rename_i hbyte <;> rw [h.head] at hbyte <;> cases hbyte
  rw [dif_neg hzero, if_neg hmask, hlen, hslice]

/-- A pointer is followed while there are hops left. -/
private theorem dnsNameFrom_pointer {target : Nat} (htarget : target < 0x4000)
    (h : At pkt off (toBe16 (0xc000 + target))) (hhops : hops < 16) :
    dnsNameFrom pkt off next hops acc =
      dnsNameFrom pkt target (some (next.getD (off + 2))) (hops + 1) acc := by
  have hle := pointer_byte htarget
  have hzero : UInt8.ofNat ((0xc000 + target) / 256) ≠ 0 := by
    intro h0
    rw [h0] at hle
    exact absurd hle (by decide)
  have hword : (UInt8.ofNat ((0xc000 + target) / 256) &&& 0x3f).toNat <<< 8 |||
      (UInt8.ofNat (0xc000 + target)).toNat = target := by
    rw [byte_target hle, UInt8.toNat_ofNat', UInt8.toNat_ofNat']
    omega
  have hsecond : pkt[off + 1]? = some (.ofNat (0xc000 + target)) := h.tail.head
  conv_lhs => unfold dnsNameFrom
  split <;> rename_i hbyte <;> rw [h.head] at hbyte <;> cases hbyte
  rw [dif_neg hzero, if_pos ((mask_iff _).2.mpr hle), hsecond]
  dsimp only
  rw [dif_neg (by omega), hword]

/-- The names that a message holds are read in lower case, as long as they are led to by no more
    pointers than a name may be. -/
private theorem dnsNameFrom_of_walkAt {ls : List (List UInt8)} {more after : Nat}
    (h : WalkAt 192 pkt off ls more after) (hhops : hops + more ≤ 16) :
    dnsNameFrom pkt off next hops acc =
      some (dotted (acc ++ ls.map lowerLabel), next.getD after) := by
  induction h generalizing next hops acc with
  | root h =>
    rw [dnsNameFrom_root h, List.map_nil, List.append_nil]
  | label hne hlen h rest ih =>
    rw [dnsNameFrom_label hne hlen h, ih hhops, List.map_cons, List.append_assoc]
    rfl
  | pointer htarget h rest ih =>
    rw [dnsNameFrom_pointer htarget h (by omega), ih (by omega)]
    rfl

end

/-- The name at a walk is that of its labels. -/
theorem dnsName_of_walkAt {pkt : List UInt8} {off hops next : Nat} {ls : List (List UInt8)}
    (h : WalkAt 192 pkt off ls hops next) (hhops : hops ≤ 16) :
    dnsName pkt off = some (dotted (ls.map lowerLabel), next) := by
  unfold dnsName
  rw [dnsNameFrom_of_walkAt h (by omega)]
  rfl

/-- The names of the questions are those of their labels. -/
private theorem questionNames_of_questions {dns : List UInt8} {off : Nat}
    {qs : List (List (List UInt8))}
    (h : Questions dns off qs) :
    questionNames dns qs.length off = some (qs.map fun ls => dotted (ls.map lowerLabel)) := by
  induction h with
  | nil => rfl
  | cons h hhops hnext rest ih =>
    rw [List.length_cons, questionNames, dnsName_of_walkAt ((walkAt_iff.mpr h).mono (by decide)) hhops]
    simp only [Option.bind_eq_bind, Option.bind_some]
    rw [ih]
    rfl

/-- **What a query asks for is read.** -/
theorem questions_of_query {dns : List UInt8} {qs : List (List (List UInt8))} (h : Query dns qs) :
    questions dns = qs.map fun ls => dotted (ls.map lowerLabel) := by
  obtain ⟨flags, hlt, hflags⟩ := h.isQuery
  have hbit : flags &&& 0x8000 = 0 := by
    have hshift : flags < 2 ^ 15 := hlt
    apply Nat.eq_of_testBit_eq
    intro i
    have h15 : (0x8000 : Nat) = 2 ^ 15 := rfl
    rw [Nat.testBit_and, h15, Nat.testBit_two_pow, Nat.zero_testBit]
    by_cases hi : 15 = i
    · rw [← hi, Nat.testBit_lt_two_pow hshift]
      rfl
    · simp [hi]
  have hheader := h.header
  unfold questions
  rw [hflags, h.count]
  dsimp only
  by_cases hqs : qs = []
  · subst hqs
    rw [if_pos (.inr (.inr rfl))]
    rfl
  · have hpos := List.length_pos_iff.mpr hqs
    rw [if_neg (by simp [hbit, hqs]; omega), questionNames_of_questions h.questions]
    rfl

/-- Bytes that stand in a packet are sliced from it. -/
theorem slice_of_at {msg bs : List UInt8} {off : Nat} (hne : bs ≠ []) (h : At msg off bs) :
    slice msg off bs.length = some bs := by
  have hle := h.le hne
  exact slice_at (by omega) h

/-- The IPv6 header is where the frame's form has it. -/
private theorem ipv6Offset_of_link {frame link : List UInt8} (h : Link link)
    (hat : At frame 12 link) :
    ipv6Offset frame = some (12 + link.length) := by
  unfold ipv6Offset
  cases h with
  | plain =>
    rw [be16_at (by decide) hat]
    rfl
  | @snap len rest hlen hrest =>
    have hhead := hat.right
    have hproto : At frame 17 ((appleOui ++ awdlProto) ++ (rest ++ toBe16 ethPIpv6)) := by
      rw [List.append_assoc]
      exact hhead.right
    have hrestAt : At frame 22 (rest ++ toBe16 ethPIpv6) := hproto.right
    have hlast : At frame 28 (toBe16 ethPIpv6) := by
      have h := hrestAt.right
      rwa [hrest] at h
    have hsnap : slice frame 14 3 = some snapHead := slice_of_at (by decide) hhead.left
    have hpid : slice frame 17 5 = some (appleOui ++ awdlProto) :=
      slice_of_at (by decide) hproto.left
    rw [be16_at (by omega) hat.left]
    simp only [Option.bind_eq_bind, Option.bind_some]
    rw [if_neg (by unfold ethPIpv6; omega), if_pos ⟨hlen, hsnap⟩, hpid, Option.bind_some,
      if_neg (by decide), be16_at (by decide) hlast, Option.bind_some, if_neg (by simp)]
    simp only [List.length_append, length_toBe16, hrest]
    rfl

/-- **The message in a frame to the mDNS port is found.** -/
theorem mdnsPayload_of_carries {frame src dns : List UInt8} (h : Carries frame src dns) :
    mdnsPayload frame = some (src, dns) := by
  obtain ⟨dst, link, ip6, udp, hdst, hsrc, hlink, hip6, hnext, hudp, hport, rfl⟩ := h
  have hne {bs : List UInt8} {n : Nat} (hlen : bs.length = n + 1) : bs ≠ [] :=
    List.ne_nil_of_length_pos (by omega)
  have hframe : At (dst ++ (src ++ (link ++ (ip6 ++ (udp ++ dns))))) 0
      (dst ++ (src ++ (link ++ (ip6 ++ (udp ++ dns))))) := List.prefix_rfl
  have hsrcAt := hframe.right
  rw [hdst] at hsrcAt
  have hlinkAt := hsrcAt.right
  rw [hsrc] at hlinkAt
  have hip6At := hlinkAt.right
  have hudpAt := hip6At.right
  rw [hip6] at hudpAt
  have hdnsAt := hudpAt.right
  rw [hudp] at hdnsAt
  have hslice := slice_of_at (hne hsrc) hsrcAt.left
  have hslice6 := slice_of_at (hne hip6) hip6At.left
  have hsliceU := slice_of_at (hne hudp) hudpAt.left
  rw [hsrc] at hslice
  rw [hip6] at hslice6
  rw [hudp] at hsliceU
  have hdrop : (dst ++ (src ++ (link ++ (ip6 ++ (udp ++ dns))))).drop
      (12 + link.length + 48) = dns := by
    have h : dst ++ (src ++ (link ++ (ip6 ++ (udp ++ dns)))) =
        (dst ++ (src ++ (link ++ (ip6 ++ udp)))) ++ dns := by
      simp only [List.append_assoc]
    rw [h, List.drop_left']
    simp only [List.length_append, hdst, hsrc, hip6, hudp]
    omega
  have hoff := ipv6Offset_of_link hlink hlinkAt.left
  unfold mdnsPayload
  rw [hslice]
  simp only [Option.bind_eq_bind, Option.bind_some]
  rw [hoff, Option.bind_some, hslice6, Option.bind_some, if_neg (by simp [hnext]), hsliceU,
    Option.bind_some, hport, Option.bind_some, if_neg (by simp), hdrop]

/-! ### Names in lower case, and without empty labels -/

/-- Lowering a name lowers its labels. -/
theorem lower_dotted (ls : List Text) : lower (dotted ls) = dotted (ls.map lower) := by
  unfold dotted
  induction ls with
  | nil => rfl
  | cons l ls ih =>
    cases ls with
    | nil => simp
    | cons l' ls =>
      rw [List.map_cons, List.map_cons, List.intercalate_cons_cons, List.intercalate_cons_cons,
        ← List.map_cons, ← ih]
      simp [lower]

/-- No other character becomes a dot. -/
theorem toLower_eq_dot (c : Char) : c.toLower = '.' ↔ c = '.' := by
  constructor
  · intro h
    unfold Char.toLower at h
    split_ifs at h with hupper
    · have hval : c.val + ('a'.val - 'A'.val) = '.'.val := congrArg Char.val h
      have hle : c.val.toNat ≤ 90 := UInt32.le_iff_toNat_le.mp hupper.2
      have hsum : c.val.toNat + 32 = 46 := by
        have hnat := congrArg UInt32.toNat hval
        rw [UInt32.toNat_add] at hnat
        have hshift : ('a'.val - 'A'.val).toNat = 32 := rfl
        have hdot : '.'.val.toNat = 46 := rfl
        rw [hshift, hdot] at hnat
        omega
      have hge : 65 ≤ c.val.toNat := UInt32.le_iff_toNat_le.mp hupper.1
      omega
    · exact h
  · rintro rfl
    rfl

/-- A piece between dots holds none. -/
theorem dot_not_mem_splitOn {name l : Text} (h : l ∈ name.splitOn '.') : '.' ∉ l := by
  induction name generalizing l with
  | nil =>
    rw [List.splitOn_nil, List.mem_singleton] at h
    rw [h]
    simp
  | cons c cs ih =>
    rw [List.splitOn_cons_eq_if_modifyHead] at h
    split_ifs at h with hc
    · rcases List.mem_cons.mp h with rfl | h
      · simp
      · exact ih h
    · obtain ⟨head, tail, hsplit⟩ := List.exists_cons_of_ne_nil (List.splitOn_ne_nil '.' cs)
      rw [hsplit, List.modifyHead_cons] at h
      rcases List.mem_cons.mp h with rfl | h
      · rw [List.mem_cons, not_or]
        exact ⟨fun hdot => hc (by rw [← hdot]; rfl), ih (hsplit ▸ List.mem_cons_self)⟩
      · exact ih (hsplit ▸ List.mem_cons_of_mem _ h)

/-- Nothing more is left out of a name without empty labels. -/
theorem labels_normal (name : Text) : labels (normal name) = labels name := by
  unfold normal
  by_cases hnil : labels name = []
  · rw [hnil]
    rfl
  · have hdot : ∀ l ∈ labels name, '.' ∉ l := fun l hl =>
      dot_not_mem_splitOn (List.mem_filter.mp hl).1
    have hsplit : (dotted (labels name)).splitOn '.' = labels name :=
      List.splitOn_intercalate '.' hdot hnil
    have hfilter : (labels name).filter (· ≠ []) = labels name :=
      List.filter_eq_self.mpr fun l hl => (List.mem_filter.mp hl).2
    show ((dotted (labels name)).splitOn '.').filter (· ≠ []) = labels name
    rw [hsplit, hfilter]

/-- A name is tidy if none of its labels is empty. -/
def Tidy (name : Text) : Prop := ∀ l ∈ name.splitOn '.', l ≠ []

/-- Each label of a name counts with a dot, but for one. -/
theorem length_dotted {ls : List Text} (h : ls ≠ []) :
    (dotted ls).length + 1 = (ls.map (·.length + 1)).sum := by
  induction ls with
  | nil => exact absurd rfl h
  | cons l ls ih =>
    cases ls with
    | nil => simp [dotted]
    | cons l' ls =>
      have hrest := ih (by simp)
      unfold dotted at hrest ⊢
      rw [List.intercalate_cons_cons, List.length_append, List.length_append, List.length_singleton,
        List.map_cons, List.sum_cons, ← hrest]
      omega

/-- Every empty label that is left out is a dot less. -/
private theorem sum_filter_add_count (ls : List Text) :
    ((ls.filter (· ≠ [])).map (·.length + 1)).sum + ls.countP (· = []) =
      (ls.map (·.length + 1)).sum := by
  induction ls with
  | nil => rfl
  | cons l ls ih =>
    rw [List.filter_cons, List.countP_cons, List.map_cons, List.sum_cons, ← ih]
    by_cases hl : l = []
    · simp [hl]
      omega
    · simp [hl]
      omega

/-- A tidy name is what is written for it, and so is the empty one. -/
theorem lower_normal_iff (name : Text) :
    lower (normal name) = lower name ↔ Tidy name ∨ name = [] := by
  have hname : dotted (name.splitOn '.') = name := List.intercalate_splitOn '.'
  constructor
  · intro h
    have hlen : (normal name).length = name.length := by
      simpa [lower] using congrArg List.length h
    by_cases hnil : labels name = []
    · right
      rw [← List.length_eq_zero_iff, ← hlen]
      unfold normal
      rw [hnil]
      rfl
    · left
      intro l hl hempty
      have hsum := sum_filter_add_count (name.splitOn '.')
      have hcount : 0 < (name.splitOn '.').countP (· = []) :=
        List.countP_pos_iff.mpr ⟨l, hl, by simpa using hempty⟩
      have hshort : (normal name).length + 1 =
          (((name.splitOn '.').filter (· ≠ [])).map (·.length + 1)).sum := length_dotted hnil
      have hlong := length_dotted (List.splitOn_ne_nil '.' name)
      rw [hname] at hlong
      omega
  · rintro (h | rfl)
    · have hlabels : labels name = name.splitOn '.' :=
        List.filter_eq_self.mpr fun l hl => by simpa using h l hl
      unfold normal
      rw [hlabels, hname]
    · rfl

/-- A dot at the end is trimmed, and nothing before another character. -/
theorem trimDots_concat (name : Text) (c : Char) :
    trimDots (name ++ [c]) = if c = '.' then trimDots name else name ++ [c] := by
  unfold trimDots
  rw [List.rdropWhile_concat]
  simp

/-- Trimming dots and lowering do not disturb each other. -/
private theorem trimDots_lower (name : Text) : trimDots (lower name) = lower (trimDots name) := by
  induction name using List.reverseRecOn with
  | nil => rfl
  | append_singleton name c ih =>
    have happ : lower (name ++ [c]) = lower name ++ [c.toLower] := List.map_append
    rw [happ, trimDots_concat, trimDots_concat]
    by_cases hc : c = '.'
    · rw [if_pos hc, if_pos ((toLower_eq_dot c).mpr hc), ih]
    · rw [if_neg hc, if_neg fun h => hc ((toLower_eq_dot c).mp h), happ]

/-- The dots at a name's end are not written. -/
private theorem normal_trimDots (name : Text) : normal (trimDots name) = normal name := by
  unfold normal
  congr 1
  induction name using List.reverseRecOn with
  | nil => rfl
  | append_singleton name c ih =>
    rw [trimDots_concat]
    split_ifs with hc
    · subst hc
      rw [ih]
      unfold labels
      rw [List.splitOn_append_cons_self, List.filter_append]
      simp
    · rfl

/-- **Which hosts and instances are answered for**: those whose names are spelled without empty
    labels, but for dots at the end of the host's, unless what is written for one of them is a name
    that the responder knows from elsewhere. -/
def Spelled (host sid : Text) : Prop :=
  (Tidy (trimDots host) ∨ trimDots host = [] ∨ lower (normal host) = service ∨
    lower (normal host) = lower (instanceName sid)) ∧
  (Tidy (instanceName sid) ∨ lower (normal (instanceName sid)) = service ∨
    lower (normal (instanceName sid)) = trimDots (lower host))

/-- The host is spelled as the names that are answered to. -/
private theorem spelled_iff (host sid : Text) :
    Spelled host sid ↔ lower (normal host) ∈ ourNames host sid ∧
      lower (normal (instanceName sid)) ∈ ourNames host sid := by
  have hhost : lower (normal host) = trimDots (lower host) ↔
      Tidy (trimDots host) ∨ trimDots host = [] := by
    rw [trimDots_lower, ← normal_trimDots, lower_normal_iff]
  have hinst : lower (normal (instanceName sid)) = lower (instanceName sid) ↔
      Tidy (instanceName sid) := by
    rw [lower_normal_iff]
    simp [instanceName]
  unfold Spelled ourNames
  simp only [List.mem_cons, List.not_mem_nil, or_false]
  rw [hhost, hinst]
  constructor
  · rintro ⟨h, h'⟩
    exact ⟨by rwa [or_assoc], by rcases h' with h' | h' | h' <;> simp [h']⟩
  · rintro ⟨h, h'⟩
    exact ⟨by rwa [or_assoc] at h, by rcases h' with h' | h' | h' <;> simp [h']⟩

/-! ### What is answered -/

/-- A frame that asks for one name. -/
def askFrame (src : List UInt8) (name : Text) : List UInt8 :=
  [0x33, 0x33, 0, 0, 0, 0xfb] ++ (src ++ (toBe16 ethPIpv6 ++
    ((.replicate 6 0 ++ [17] ++ .replicate 33 0) ++ (([0, 0] ++ toBe16 mdnsPort ++ [0, 0, 0, 0]) ++
      ([0, 0, 0, 0, 0, 1, 0, 0, 0, 0, 0, 0] ++ (wire (wireLabels name) ++ [0, 1, 0, 1]))))))

/-- An ASCII label is lowered as its text is. -/
private theorem lowerLabel_utf8 {l : Text} (h : ∀ c ∈ l, c.toNat < 0x80) :
    lowerLabel (utf8 l) = lower l := by
  unfold lowerLabel lower
  rw [utf8_ascii h, List.map_map]
  refine List.map_congr_left fun c hc => ?_
  have hlt := h c hc
  have hcode : (UInt8.ofNat c.toNat).toNat = c.toNat := by
    rw [UInt8.toNat_ofNat']
    omega
  have hsmall : UInt8.ofNat c.toNat < 0x80 := by
    rw [UInt8.lt_iff_toNat_lt, hcode]
    exact hlt
  show lowerByte (UInt8.ofNat c.toNat) = c.toLower
  unfold lowerByte
  rw [if_pos hsmall, hcode, Char.ofNat_toNat]

/-- The labels of an accepted name are lowered as they stand on the wire. -/
theorem Accepted.lower_wireLabels {name : Text} (h : Accepted name) :
    (wireLabels name).map lowerLabel = (labels name).map lower := by
  unfold wireLabels
  rw [List.map_map]
  refine List.map_congr_left fun l hl => ?_
  exact lowerLabel_utf8 fun c hc =>
    toNat_lt_of_isPrintable (h.printable c (subset_of_mem_labels hl hc))

/-- It does. -/
theorem query_askFrame {name : Text} (h : Accepted name) {src : List UInt8}
    (hsrc : src.length = 6) :
    ∃ dns, Carries (askFrame src name) src dns ∧ Query dns [wireLabels name] := by
  refine ⟨[0, 0, 0, 0, 0, 1, 0, 0, 0, 0, 0, 0] ++ (wire (wireLabels name) ++ [0, 1, 0, 1]), ?_, ?_⟩
  · exact ⟨_, _, _, _, rfl, hsrc, .plain, rfl, rfl, rfl, by decide, rfl⟩
  · have hat : At ([0, 0, 0, 0, 0, 1, 0, 0, 0, 0, 0, 0] ++ (wire (wireLabels name) ++ [0, 1, 0, 1]))
        12 (wire (wireLabels name)) :=
      at_append [0, 0, 0, 0, 0, 1, 0, 0, 0, 0, 0, 0] _ _
    refine ⟨by simp, ⟨0, by decide, rfl⟩, rfl, .cons (nameAt_wire h.fits hat) (by decide) ?_ .nil⟩
    simp only [List.length_append, List.length_cons, List.length_nil]
    omega

/-- What is wanted of a frame with a query is decided by the names in it. -/
theorem wanted_of_query {frame src mac dns : List UInt8} {qs : List (List (List UInt8))}
    (hframe : Carries frame src dns) (hquery : Query dns qs) (hsrc : src ≠ mac) (ours : List Text) :
    (wanted frame mac ours).isSome ↔ ∃ ls ∈ qs, dotted (ls.map lowerLabel) ∈ ours := by
  unfold wanted
  rw [mdnsPayload_of_carries hframe]
  simp only [Option.bind_eq_bind, Option.bind_some]
  rw [if_neg hsrc, questions_of_query hquery]
  have hmem : (∃ ls ∈ qs, dotted (ls.map lowerLabel) ∈ ours) ↔
      ∃ q ∈ qs.map fun ls => dotted (ls.map lowerLabel), q ∈ ours := by
    simp
  rw [hmem]
  constructor
  · intro h
    obtain ⟨hit, hhit⟩ := Option.isSome_iff_exists.mp h
    obtain ⟨q, hq, -⟩ := Option.bind_eq_some_iff.mp hhit
    exact ⟨q, List.mem_of_find?_eq_some hq, by simpa using List.find?_some hq⟩
  · rintro ⟨q, hq, hours⟩
    obtain ⟨q', hq'⟩ := Option.isSome_iff_exists.mp
      (List.find?_isSome.mpr ⟨q, hq, by simpa using hours⟩ :
        ((qs.map fun ls => dotted (ls.map lowerLabel)).find? (· ∈ ours)).isSome)
    rw [hq']
    rfl

/-- A query for a name is answered if the name is ours. -/
theorem wanted_of_asks {frame src mac : List UInt8} {host sid owner : Text}
    (h : Asks frame src owner) (hsrc : src ≠ mac) (hnormal : normal owner = owner)
    (hours : lower owner ∈ ourNames host sid) :
    (wanted frame mac (ourNames host sid)).isSome := by
  obtain ⟨dns, qs, ls, hframe, hquery, hls, hsame⟩ := h
  rw [wanted_of_query hframe hquery hsrc]
  refine ⟨ls, hls, ?_⟩
  rw [hsame, ← lower_dotted]
  show lower (normal owner) ∈ _
  rwa [hnormal]

/-- Every query from somebody else for an owner name of a record in the reply is wanted. -/
def Responds (host sid : Text) (port : UInt16) (flags : UInt64) (ll : Vector UInt8 16)
    (mac : List UInt8) : Prop :=
  ∀ rep records, reply sid host port flags ll = .ok rep → parseMessage rep = some records →
    ∀ rr ∈ records, ∀ frame src, Asks frame src rr.name → src ≠ mac →
      (wanted frame mac (ourNames host sid)).isSome

/-- A normal name is its own normal form. -/
theorem normal_normal (name : Text) : normal (normal name) = normal name := by
  show dotted (labels (normal name)) = normal name
  rw [labels_normal]
  rfl

/-- **The responder answers for the names in its replies** if and only if the host and the instance
    are spelled as it keeps them. -/
theorem responds_iff {host sid : Text} (hsid : checkName (instanceName sid) = .ok ())
    (hhost : checkName host = .ok ()) (port : UInt16) (flags : UInt64) (ll : Vector UInt8 16)
    (mac : Vector UInt8 6) :
    Responds host sid port flags ll mac.toList ↔ Spelled host sid := by
  rw [accepted_iff] at hsid hhost
  obtain ⟨rep, hrep, hparse⟩ := exists_reply hsid hhost port flags ll
  rw [spelled_iff]
  constructor
  · intro h
    -- somebody else asks for one of the names
    let src : List UInt8 := mac.toList.map (· + 1)
    have hlen : src.length = 6 := by simp [src]
    have hsrc : src ≠ mac.toList := by
      obtain ⟨b, bs, hmac⟩ : ∃ b bs, mac.toList = b :: bs :=
        List.exists_cons_of_length_pos (by simp)
      intro heq
      have hmap : (b :: bs).map (· + 1) = b :: bs := hmac ▸ heq
      have hhead : b + 1 = b := (List.cons.inj hmap).1
      simp at hhead
    have hask {name : Text} (hname : Accepted name) (rr : Rr)
        (hrr : rr ∈ announced sid host port flags ll ++ [⟨normal host, 120, .other⟩])
        (howner : rr.name = normal name) : lower (normal name) ∈ ourNames host sid := by
      obtain ⟨dns, hframe, hquery⟩ := query_askFrame hname hlen
      have hasks : Asks (askFrame src name) src rr.name := by
        refine ⟨dns, _, wireLabels name, hframe, hquery, List.mem_singleton_self _, ?_⟩
        rw [howner, labels_normal, hname.lower_wireLabels]
      have hwanted := h rep _ hrep hparse rr hrr _ _ hasks hsrc
      obtain ⟨ls, hls, hours⟩ := (wanted_of_query hframe hquery hsrc _).mp hwanted
      rw [List.mem_singleton.mp hls, hname.lower_wireLabels, ← lower_dotted] at hours
      exact hours
    exact ⟨hask hhost ⟨normal host, 120, .other⟩ (by simp) rfl,
      hask hsid ⟨normal (instanceName sid), 120, .srv port.toNat (normal host)⟩
        (by simp [announced]) rfl⟩
  · rintro ⟨hours, hoursInst⟩ rep' records hrep' hparse' rr hrr frame src hasks hsrc
    obtain rfl := Except.ok.inj (hrep.symm.trans hrep')
    obtain rfl := Option.some.inj (hparse.symm.trans hparse')
    have hname : rr.name = service ∨ rr.name = normal (instanceName sid) ∨
        rr.name = normal host := by
      simp only [announced, List.cons_append, List.nil_append, List.mem_cons, List.not_mem_nil,
        or_false] at hrr
      rcases hrr with rfl | rfl | rfl | rfl | rfl <;> simp
    rcases hname with hname | hname | hname
    · rw [hname] at hasks
      have hservice : lower service = service := by decide
      refine wanted_of_asks hasks hsrc (by decide) ?_
      rw [hservice]
      exact List.mem_cons_of_mem _ List.mem_cons_self
    · rw [hname] at hasks
      exact wanted_of_asks hasks hsrc (normal_normal _) hoursInst
    · rw [hname] at hasks
      exact wanted_of_asks hasks hsrc (normal_normal _) hours

/-- A host with a dot at its end. -/
theorem responds_hume : Spelled "Hume.local." "0e9d036c5823" ∧
    Responds "Hume.local." "0e9d036c5823" 8771 0x88 (.replicate 16 0xfe)
      (Vector.replicate 6 2).toList := by
  have h : Spelled "Hume.local." "0e9d036c5823" := ⟨.inl (by unfold Tidy; decide),
    .inl (by unfold Tidy; decide)⟩
  exact ⟨h, (@responds_iff "Hume.local." "0e9d036c5823" (by decide) (by decide) 8771 0x88
    (.replicate 16 0xfe) (.replicate 6 2)).mpr h⟩

/-- A host with two dots in a row is announced, and a query for it is not answered. -/
theorem doubled_dot_unanswered : ∃ rep rr records frame src,
    reply "0e9d036c5823" "hume..local" 8771 0x88 (.replicate 16 0xfe) = .ok rep ∧
      parseMessage rep = some records ∧ rr ∈ records ∧ rr.name = "hume.local" ∧
      Asks frame src rr.name ∧ src ≠ [2, 0, 0, 0, 0, 1] ∧
      wanted frame [2, 0, 0, 0, 0, 1] (ourNames "hume..local" "0e9d036c5823") = none := by
  have hhost : Accepted "hume..local" := (accepted_iff _).mp (by decide)
  obtain ⟨rep, hrep, hparse⟩ := @exists_reply "0e9d036c5823" "hume..local"
    ((accepted_iff _).mp (by decide)) hhost 8771 0x88 (.replicate 16 0xfe)
  obtain ⟨dns, hframe, hquery⟩ := @query_askFrame "hume..local" hhost [2, 9, 9, 9, 9, 9] rfl
  refine ⟨rep, ⟨normal "hume..local", 120, .other⟩, _, askFrame [2, 9, 9, 9, 9, 9] "hume..local",
    [2, 9, 9, 9, 9, 9], hrep, hparse, by simp, by decide, ?_, by decide, ?_⟩
  · exact ⟨dns, _, _, hframe, hquery, List.mem_singleton_self _, by decide +kernel⟩
  · rw [← Option.not_isSome_iff_eq_none, wanted_of_query hframe hquery (by decide)]
    decide +kernel

end Omdrop.Mdns
