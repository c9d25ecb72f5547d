import Mathlib
import Omdrop.Mdns.Respond
import Omdrop.Stream.OnesComplement

namespace Omdrop.Mdns

open Omdrop.Text Omdrop.OnesComplement

/-!
# Frames

The advertiser's messages go out in UDP datagrams (`udp6`), and these in frames, plain or in
Apple's encapsulation (`wrap`).  `udp6_checksum` says that the datagrams check out, and
`mdnsPayload_wrap_iff` which frames the responder's own reader takes for what they are.
-/

/-! ### Checksums -/

/-- The 16-bit words of some bytes, the last one filled up with zero. -/
def words : List UInt8 → List Nat
  | hi :: lo :: bs => (hi.toNat * 256 + lo.toNat) :: words bs
  | [last]         => [last.toNat * 256]
  | []             => []

/-- A sum in 64 bits. -/
def sum64 (ws : List Nat) : Nat := ws.foldl (fun sum w => (sum + w) % 2 ^ 64) 0

/-- The Internet checksum of some bytes. -/
def csum16 (data : List UInt8) : Nat := 0xffff - fold 0x10000 (sum64 (words data))

/-- The source, the destination, the length and the protocol, as they are summed. -/
def pseudoHeader (src dst : Vector UInt8 16) (udpLen : Nat) : List UInt8 :=
  src.toList ++ (dst.toList ++ (toBe32 udpLen ++ [0, 0, 0, 17]))

/-- A datagram with that checksum. -/
def datagram (ck : Nat) (payload : List UInt8) : List UInt8 :=
  toBe16 mdnsPort ++ (toBe16 mdnsPort ++ (toBe16 (8 + payload.length) ++ (toBe16 ck ++ payload)))

/-- IPv6 and UDP, from the mDNS port to the mDNS port, with the checksum. -/
def udp6 (src dst : Vector UInt8 16) (payload : List UInt8) : Except Text (List UInt8) :=
  if 0xffff < 8 + payload.length then .error "UDP payload longer than 65527 bytes"
  else
    let sum := pseudoHeader src dst (8 + payload.length) ++ datagram 0 payload
    let ck := if csum16 sum = 0 then 0xffff else csum16 sum
    .ok ([0x60, 0, 0, 0] ++ (toBe16 (8 + payload.length) ++ ([17, 255] ++ (src.toList ++
      (dst.toList ++ datagram ck payload)))))

/-- The Ethernet address of the mDNS group. -/
def mdnsMac : List UInt8 := [0x33, 0x33, 0x00, 0x00, 0x00, 0xfb]
def awdlMagic : List UInt8 := [0x03, 0x04]

/-- A number in two bytes, low byte first. -/
def toLe16 (n : Nat) : List UInt8 := [.ofNat n, .ofNat (n / 256)]

/-- The frame to the mDNS group, in Apple's encapsulation or plain. -/
def wrap (mac : Vector UInt8 6) (payload : List UInt8) (seq : UInt16) (snap : Bool) :
    Except Text (List UInt8) :=
  if !snap then .ok (mdnsMac ++ (mac.toList ++ (toBe16 ethPIpv6 ++ payload)))
  else if 0xffff < 16 + payload.length then .error "SNAP body longer than 65535 bytes"
  else .ok (mdnsMac ++ (mac.toList ++ (toBe16 (16 + payload.length) ++ (snapHead ++ (appleOui ++
    (awdlProto ++ (awdlMagic ++ (toLe16 seq.toNat ++ ([0, 0] ++
      (toBe16 ethPIpv6 ++ payload))))))))))

/-! ### Datagrams check out -/

/-- A word is of 16 bits. -/
theorem words_lt {data : List UInt8} {w : Nat} (hw : w ∈ words data) : w < 0x10000 := by
  fun_induction words data with
  | case1 hi lo bs ih =>
    rcases List.mem_cons.mp hw with rfl | hw
    · have hhi := hi.toNat_lt
      have hlo := lo.toNat_lt
      omega
    · exact ih hw
  | case2 last =>
    obtain rfl := List.mem_singleton.mp hw
    have hlast := last.toNat_lt
    omega
  | case3 => cases hw

/-- An even number of bytes is summed by itself. -/
private theorem words_append {front : List UInt8} (h : front.length % 2 = 0) (back : List UInt8) :
    words (front ++ back) = words front ++ words back := by
  fun_induction words front with
  | case1 hi lo bs ih =>
    rw [List.length_cons, List.length_cons] at h
    show _ :: words (bs ++ back) = _
    rw [ih (by omega)]
    rfl
  | case2 last => simp at h
  | case3 => rfl

/-- There are no more words than bytes. -/
private theorem length_words_le (data : List UInt8) : (words data).length ≤ data.length := by
  fun_induction words data with
  | case1 hi lo bs ih =>
    simp only [List.length_cons]
    omega
  | case2 last => exact Nat.le_refl _
  | case3 => exact Nat.le_refl _

/-- The sum of the words is bounded by the number of bytes. -/
private theorem sum_words_le (data : List UInt8) : (words data).sum ≤ data.length * 0xffff := by
  have hall : ∀ w ∈ words data, w ≤ 0xffff := fun w hw => Nat.le_of_lt_succ (words_lt hw)
  have hsum := List.sum_le_card_nsmul _ _ hall
  rw [smul_eq_mul] at hsum
  exact hsum.trans (Nat.mul_le_mul_right _ (length_words_le data))

/-- Nothing overflows in a sum that is small enough in all. -/
private theorem sum64_eq {ws : List Nat} (h : ws.sum < 2 ^ 64) : sum64 ws = ws.sum := by
  have hfrom : ∀ s, s + ws.sum < 2 ^ 64 →
      ws.foldl (fun sum w => (sum + w) % 2 ^ 64) s = s + ws.sum := by
    clear h
    induction ws with
    | nil => exact fun s _ => rfl
    | cons w ws ih =>
      intro s h
      rw [List.sum_cons, ← Nat.add_assoc] at h
      rw [List.foldl_cons, Nat.mod_eq_of_lt (by omega), ih _ h, List.sum_cons, Nat.add_assoc]
  have := hfrom 0
  rw [Nat.zero_add] at this
  exact this h

/-- A 16-bit number is one word. -/
theorem words_toBe16 {n : Nat} (h : n < 0x10000) (bs : List UInt8) :
    words (toBe16 n ++ bs) = n :: words bs := by
  show ((UInt8.ofNat (n / 256)).toNat * 256 + (UInt8.ofNat n).toNat) :: words bs = _
  rw [UInt8.toNat_ofNat', UInt8.toNat_ofNat']
  congr 1
  omega

/-- The checksum adds itself to what a datagram sums to. -/
private theorem sum_words_datagram {ck : Nat} {payload : List UInt8} (hck : ck < 0x10000)
    (hlen : 8 + payload.length < 0x10000) :
    (words (datagram ck payload)).sum = (words (datagram 0 payload)).sum + ck := by
  unfold datagram
  rw [words_toBe16 (by decide), words_toBe16 (by decide), words_toBe16 hlen, words_toBe16 hck,
    words_toBe16 (by decide), words_toBe16 (by decide), words_toBe16 hlen, words_toBe16 (by decide)]
  simp only [List.sum_cons]
  omega

/-- What is summed up for a checksum. -/
def summed (src dst : Vector UInt8 16) (ck : Nat) (payload : List UInt8) : List UInt8 :=
  pseudoHeader src dst (8 + payload.length) ++ datagram ck payload

section Checksum

variable {src dst : Vector UInt8 16} {payload packet : List UInt8}

/-- The pseudo header is of 40 bytes. -/
theorem length_pseudoHeader (n : Nat) : (pseudoHeader src dst n).length = 40 := by
  unfold pseudoHeader
  simp

/-- What is summed is the pseudo header and the datagram. -/
theorem words_summed (ck : Nat) :
    words (summed src dst ck payload) =
      words (pseudoHeader src dst (8 + payload.length)) ++ words (datagram ck payload) :=
  words_append (by rw [length_pseudoHeader]) _

/-- The field counts as itself in the sum. -/
private theorem sum_words_summed {ck : Nat} (hck : ck < 0x10000)
    (hlen : 8 + payload.length < 0x10000) :
    (words (summed src dst ck payload)).sum = (words (summed src dst 0 payload)).sum + ck := by
  rw [words_summed, words_summed, List.sum_append, List.sum_append, sum_words_datagram hck hlen,
    Nat.add_assoc]

/-- The sum is not zero. -/
private theorem sum_summed_pos (ck : Nat) : 0 < (words (summed src dst ck payload)).sum := by
  have hport : words (datagram ck payload) =
      mdnsPort :: words (toBe16 mdnsPort ++ (toBe16 (8 + payload.length) ++ (toBe16 ck ++ payload))) :=
    words_toBe16 (by decide) _
  rw [words_summed, List.sum_append, hport, List.sum_cons]
  have : 0 < mdnsPort := by decide
  omega

/-- The sum over a datagram does not overflow. -/
theorem sum_summed_lt (ck : Nat) (hlen : 8 + payload.length < 0x10000) :
    (words (summed src dst ck payload)).sum < 2 ^ 64 := by
  have hsum := sum_words_le (summed src dst ck payload)
  have hsize : (summed src dst ck payload).length = 48 + payload.length := by
    unfold summed
    rw [List.length_append, length_pseudoHeader]
    show 40 + (datagram ck payload).length = _
    unfold datagram
    simp only [List.length_append, length_toBe16]
    omega
  rw [hsize] at hsum
  omega

/-- A datagram's checksum. -/
def checksum (src dst : Vector UInt8 16) (payload : List UInt8) : Nat :=
  let ck := csum16 (summed src dst 0 payload)
  if ck = 0 then 0xffff else ck

/-- An accepted payload makes a packet with these parts. -/
theorem udp6_eq (h : udp6 src dst payload = .ok packet) :
    8 + payload.length < 0x10000 ∧ packet = [0x60, 0, 0, 0] ++ (toBe16 (8 + payload.length) ++
      ([17, 255] ++ (src.toList ++ (dst.toList ++
        datagram (checksum src dst payload) payload)))) := by
  unfold udp6 at h
  split at h
  · cases h
  · cases h
    exact ⟨by omega, rfl⟩

/-- The checksum is the complement of the sum's residue, never zero. -/
theorem checksum_eq (hlen : 8 + payload.length < 0x10000) :
    checksum src dst payload =
      if 0x10000 - 1 - residue 0x10000 (words (summed src dst 0 payload)).sum = 0 then 0x10000 - 1
      else 0x10000 - 1 - residue 0x10000 (words (summed src dst 0 payload)).sum := by
  unfold checksum csum16
  rw [sum64_eq (sum_summed_lt 0 hlen), fold_eq (by decide)]

/-- The checksum is of 16 bits, and not zero. -/
private theorem checksum_bounds (hlen : 8 + payload.length < 0x10000) :
    0 < checksum src dst payload ∧ checksum src dst payload < 0x10000 := by
  rw [checksum_eq hlen]
  split <;> omega

/-- A packet is its header and a datagram. -/
theorem udp6_parts (h : udp6 src dst payload = .ok packet) :
    ∃ head : List UInt8, head.length = 40 ∧ head[6]? = some 17 ∧
      packet = head ++ datagram (checksum src dst payload) payload := by
  obtain ⟨-, rfl⟩ := udp6_eq h
  refine ⟨[0x60, 0, 0, 0] ++ (toBe16 (8 + payload.length) ++ ([17, 255] ++
    (src.toList ++ dst.toList))), by simp, rfl, by simp only [List.append_assoc]⟩

/-- **Datagrams check out.**  The one's-complement sum of the pseudo-header and the datagram is
    `0xffff`, its checksum is not zero, and neither the sums nor the length overflow. -/
theorem udp6_checksum (h : udp6 src dst payload = .ok packet) :
    (words (pseudoHeader src dst (8 + payload.length) ++ packet.drop 40)).foldl (add 0x10000) 0 =
        0xffff ∧
      (∃ ck, ck ≠ 0 ∧ be16 packet 46 = some ck) ∧
      (∀ front, front <+: words (summed src dst 0 payload) → front.sum < 2 ^ 64) ∧
      8 + payload.length < 2 ^ 16 := by
  have hlen := (udp6_eq h).1
  obtain ⟨hpos, hlt⟩ := @checksum_bounds src dst _ hlen
  obtain ⟨head, hhead, -, rfl⟩ := udp6_parts h
  refine ⟨?_, ⟨checksum src dst payload, by omega, ?_⟩, ?_, hlen⟩
  · rw [List.drop_left' hhead]
    show (words (summed src dst (checksum src dst payload) payload)).foldl _ 0 = _
    rw [foldl_add (by decide) fun w hw => words_lt hw, fold_eq (by decide),
      sum_words_summed hlt hlen, checksum_eq hlen]
    exact residue_complement (by decide) (sum_summed_pos 0)
  · have hdatagram : At (head ++ datagram (checksum src dst payload) payload) 40
        ((toBe16 mdnsPort ++ (toBe16 mdnsPort ++ toBe16 (8 + payload.length))) ++
          (toBe16 (checksum src dst payload) ++ payload)) := by
      have hat := at_append head (datagram (checksum src dst payload) payload) []
      rw [hhead, List.append_nil] at hat
      unfold datagram at hat ⊢
      simp only [List.append_assoc] at hat ⊢
      exact hat
    exact be16_at hlt hdatagram.right.left
  · intro front hfront
    exact (hfront.sublist.sum_le_sum fun _ _ => Nat.zero_le _).trans_lt (sum_summed_lt 0 hlen)

end Checksum

/-- A datagram of odd length. -/
theorem udp6_checksum_odd : ∃ packet,
    udp6 (.replicate 16 0) (.replicate 16 255) [97, 98, 99] = .ok packet ∧
      ∃ ck, ck ≠ 0 ∧ be16 packet 46 = some ck :=
  ⟨_, rfl, (@udp6_checksum (.replicate 16 0) (.replicate 16 255) [97, 98, 99] _ rfl).2.1⟩

/-! ### Frames are read -/

section Frames

variable {src dst : Vector UInt8 16} {mac : Vector UInt8 6} {payload packet frame : List UInt8}
variable {seq : UInt16}

/-- A packet is 48 bytes longer than its payload. -/
theorem length_udp6 (h : udp6 src dst payload = .ok packet) :
    packet.length = 48 + payload.length := by
  obtain ⟨head, hhead, -, rfl⟩ := udp6_parts h
  unfold datagram
  simp only [List.length_append, length_toBe16, hhead]
  omega

/-- A frame of either form carries its message, in Apple's if that is short enough. -/
private theorem carries_wrap {snap : Bool} (hudp : udp6 src dst payload = .ok packet)
    (hwrap : wrap mac packet seq snap = .ok frame) (hshort : snap = false ∨ payload.length ≤ 1436) :
    Carries frame mac.toList payload := by
  have hlen := length_udp6 hudp
  obtain ⟨head, hhead, hnext, rfl⟩ := udp6_parts hudp
  let udp : List UInt8 := toBe16 mdnsPort ++ (toBe16 mdnsPort ++ (toBe16 (8 + payload.length) ++
    toBe16 (checksum src dst payload)))
  have hdatagram : datagram (checksum src dst payload) payload = udp ++ payload := by
    simp only [udp, datagram, List.append_assoc]
  have hport : be16 udp 2 = some mdnsPort := rfl
  rw [hdatagram] at hwrap hlen
  unfold wrap at hwrap
  cases snap with
  | false =>
    cases hwrap
    exact ⟨mdnsMac, _, head, udp, rfl, by simp, .plain, hhead, hnext, rfl, hport, rfl⟩
  | true =>
    have hshort : payload.length ≤ 1436 := by simpa using hshort
    have hlink : Link (toBe16 (16 + (head ++ (udp ++ payload)).length) ++ (snapHead ++ (appleOui ++
        (awdlProto ++ ((awdlMagic ++ (toLe16 seq.toNat ++ [0, 0])) ++ toBe16 ethPIpv6))))) :=
      .snap (by omega) rfl
    rw [if_neg (by decide), if_neg (by omega)] at hwrap
    cases hwrap
    refine ⟨mdnsMac, _, head, udp, rfl, by simp, hlink, hhead, hnext, rfl, hport, ?_⟩
    simp only [List.append_assoc]

/-- A byte of a slice is a byte of the packet. -/
theorem getElem?_of_slice {msg bs : List UInt8} {off n k : Nat} (h : slice msg off n = some bs)
    (hk : k < n) : bs[k]? = msg[off + k]? := by
  unfold slice at h
  split at h <;> cases h
  rw [List.getElem?_take_of_lt hk, List.getElem?_drop]

/-- A frame in Apple's encapsulation that is too long for that is not read. -/
theorem mdnsPayload_long (hudp : udp6 src dst payload = .ok packet)
    (hwrap : wrap mac packet seq true = .ok frame) (hlong : 1436 < payload.length) :
    mdnsPayload frame = none := by
  have hlen := length_udp6 hudp
  have hmac : mac.toList.length = 6 := by simp
  unfold wrap at hwrap
  rw [if_neg (by decide)] at hwrap
  split at hwrap <;> cases hwrap
  rename_i hfits
  generalize hframe : mdnsMac ++ (mac.toList ++ (toBe16 (16 + packet.length) ++ _)) = frame
  have hat : At frame 12 (toBe16 (16 + packet.length) ++ ((snapHead ++ appleOui) ++ (awdlProto ++
      (awdlMagic ++ (toLe16 seq.toNat ++ ([0, 0] ++ (toBe16 ethPIpv6 ++ packet))))))) := by
    have hparts := at_append (mdnsMac ++ mac.toList) (toBe16 (16 + packet.length) ++
      ((snapHead ++ appleOui) ++ (awdlProto ++ (awdlMagic ++ (toLe16 seq.toNat ++ ([0, 0] ++
        (toBe16 ethPIpv6 ++ packet))))))) []
    have hmdns : mdnsMac.length = 6 := rfl
    rw [List.length_append, hmdns, hmac] at hparts
    rw [← hframe]
    simp only [List.append_assoc, List.append_nil] at hparts ⊢
    exact hparts
  have hetype : be16 frame 12 = some (16 + packet.length) := be16_at (by omega) hat.left
  have hproto : frame[20]? = some 0x08 := (At.head hat.right.right : frame[12 + 2 + 6]? = _)
  by_cases hipv6 : 16 + packet.length = ethPIpv6
  · -- the length is taken for the type of a plain frame, whose protocol is not UDP
    have hoff : ipv6Offset frame = some 14 := by
      unfold ipv6Offset
      rw [hetype]
      exact if_pos hipv6
    unfold mdnsPayload
    rw [hoff]
    cases slice frame 6 6 with
    | none => rfl
    | some src =>
      simp only [Option.bind_eq_bind, Option.bind_some]
      cases hip6 : slice frame 14 40 with
      | none => rfl
      | some ip6 =>
        rw [Option.bind_some, getElem?_of_slice hip6 (by decide), hproto, if_pos (by decide)]
  · have hoff : ipv6Offset frame = none := by
      unfold ipv6Offset
      rw [hetype]
      simp only [Option.bind_eq_bind, Option.bind_some]
      rw [if_neg hipv6, if_neg (by omega)]
    unfold mdnsPayload
    rw [hoff]
    cases slice frame 6 6 <;> rfl

/-- **Which frames are read.**  A frame that was built is read as its sender and its message
    exactly when it is plain, or its message has no more than 1436 bytes. -/
theorem mdnsPayload_wrap_iff {snap : Bool} (hudp : udp6 src dst payload = .ok packet)
    (hwrap : wrap mac packet seq snap = .ok frame) :
    mdnsPayload frame = some (mac.toList, payload) ↔ snap = false ∨ payload.length ≤ 1436 := by
  constructor
  · intro h
    by_contra hlong
    rw [not_or, Bool.not_eq_false, Nat.not_le] at hlong
    obtain ⟨rfl, hlong⟩ := hlong
    rw [mdnsPayload_long hudp hwrap hlong] at h
    cases h
  · exact fun hshort => mdnsPayload_of_carries (carries_wrap hudp hwrap hshort)

end Frames

/-- A short message in Apple's encapsulation. -/
theorem mdnsPayload_wrap_short : ∃ packet frame,
    udp6 (.replicate 16 0) (.replicate 16 255) [0, 0, 0x84, 0] = .ok packet ∧
      wrap (.replicate 6 2) packet 7 true = .ok frame ∧
      (mdnsPayload frame = some ((Vector.replicate 6 2).toList, [0, 0, 0x84, 0]) ↔
        true = false ∨ 4 ≤ 1436) :=
  ⟨_, _, rfl, rfl, @mdnsPayload_wrap_iff (.replicate 16 0) (.replicate 16 255) (.replicate 6 2)
    [0, 0, 0x84, 0] _ _ 7 true rfl rfl⟩

/-- **A frame is not read.**  The message in it has 1437 bytes. -/
theorem frame_unread : ∃ packet frame,
    udp6 (.replicate 16 0) (.replicate 16 255) (.replicate 1437 0) = .ok packet ∧
      wrap (.replicate 6 2) packet 7 true = .ok frame ∧
      mdnsPayload frame ≠ some ((Vector.replicate 6 2).toList, .replicate 1437 0) := by
  have hudp : ∃ packet,
      udp6 (.replicate 16 0) (.replicate 16 255) (.replicate 1437 0) = .ok packet := by
    unfold udp6
    rw [if_neg (by rw [List.length_replicate]; decide)]
    exact ⟨_, rfl⟩
  obtain ⟨packet, hpacket⟩ := hudp
  have hlen := length_udp6 hpacket
  rw [List.length_replicate] at hlen
  have hwrap : ∃ frame, wrap (.replicate 6 2) packet 7 true = .ok frame := by
    unfold wrap
    rw [if_neg (by decide), if_neg (by omega)]
    exact ⟨_, rfl⟩
  obtain ⟨frame, hframe⟩ := hwrap
  refine ⟨packet, frame, hpacket, hframe, ?_⟩
  rw [mdnsPayload_long hpacket hframe (by rw [List.length_replicate]; decide)]
  exact (Option.some_ne_none _).symm

end Omdrop.Mdns
