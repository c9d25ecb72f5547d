import Mathlib
import Omdrop.Mdns.Frames

namespace Omdrop.Mdns

open Omdrop.Text

/-!
# What the browser makes of it

`parseMessage` reads the records of a response, `absorb` keeps what they say, and `resolve` is
what the browser hands on: the instances of which everything is known.  `announced` says that an
announcement, and a reply, is all it takes.
-/

/-- A name, with or without pointers, from where it goes on: where the text behind it starts if a
    pointer was followed, how many were, the bytes so far, and the labels so far. -/
def readNameFrom (msg : List UInt8) (off : Nat) (behind : Option Nat) (jumps total : Nat)
    (ls : List Text) : Option (Text × Nat) :=
  match _h : msg[off]? with
  | none     => none
  | some len =>
    if len &&& 0xc0 = 0 then
      if hlen : len = 0 then some (dotted ls, behind.getD (off + 1))
      else
        match slice msg (off + 1) len.toNat with
        | none       => none
        | some label =>
          if 255 < total + (label.length + 1) then none
          else readNameFrom msg (off + 1 + len.toNat) behind jumps (total + (label.length + 1))
            (ls ++ [fromUtf8Lossy label])
    else if len &&& 0xc0 = 0xc0 then
      match be16 msg off with
      | none      => none
      | some word =>
        if hjumps : 32 < jumps + 1 ∨ msg.length ≤ word &&& 0x3fff then none
        else readNameFrom msg (word &&& 0x3fff) (some (behind.getD (off + 2))) (jumps + 1) total ls
    else none
termination_by (33 - jumps, msg.length - off)
decreasing_by
  · have hoff := (List.getElem?_eq_some_iff.mp _h).1
    exact Prod.Lex.right _ (by omega)
  · exact Prod.Lex.left _ _ (by omega)

/-- The name at an offset, and where the text behind it starts. -/
def readName (msg : List UInt8) (off : Nat) : Option (Text × Nat) :=
  readNameFrom msg off none 0 0 []

/-- What a record says. -/
inductive RData
  | ptr (target : Text)
  | srv (port : Nat) (target : Text)
  | txt (entries : List (Text × Text))
  | aaaa (addr : Vector UInt8 16)
  | other
  deriving DecidableEq

/-- A record. -/
structure Rr where
  name : Text
  ttl : Nat
  data : RData
  deriving DecidableEq

/-- The key and the value of an entry; an entry without a value is dropped. -/
def txtEntry (s : List UInt8) : List (Text × Text) :=
  let key := s.takeWhile (· ≠ 61)
  if key.length = s.length then []
  else [(fromUtf8Lossy key, fromUtf8Lossy (s.drop (key.length + 1)))]

/-- The entries of a text record. -/
def txtEntries : List UInt8 → Option (List (Text × Text))
  | []       => some []
  | l :: bs  =>
    if l.toNat ≤ bs.length then
      (txtEntries (bs.drop l.toNat)).map (txtEntry (bs.take l.toNat) ++ ·)
    else none
termination_by bs => bs.length
decreasing_by
  rw [List.length_drop, List.length_cons]
  omega

/-- The data of a record of the given type. -/
def parseData (msg : List UInt8) (rtype start : Nat) (rdata : List UInt8) : Option RData :=
  if rtype = 12 then do some (.ptr (← readName msg start).1)
  else if rtype = 33 ∧ 6 ≤ rdata.length then do
    some (.srv (← be16 msg (start + 4)) (← readName msg (start + 6)).1)
  else if rtype = 16 then do some (.txt (← txtEntries rdata))
  else if h : rtype = 28 ∧ rdata.length = 16 then some (.aaaa ⟨rdata.toArray, h.2⟩)
  else some .other

/-- The record at an offset, and where the next one starts. -/
def parseRecord (msg : List UInt8) (off : Nat) : Option (Rr × Nat) := do
  let (name, next) ← readName msg off
  let rtype ← be16 msg next
  let ttl ← be32 msg (next + 4)
  let rdlen ← be16 msg (next + 8)
  let start := next + 10
  let rdata ← slice msg start rdlen
  let data ← parseData msg rtype start rdata
  some (⟨name, ttl, data⟩, start + rdlen)

/-- So many questions are passed over. -/
def skipQuestions (msg : List UInt8) : Nat → Nat → Option Nat
  | 0, off     => some off
  | n + 1, off => do skipQuestions msg n ((← readName msg off).2 + 4)

/-- So many records. -/
def parseRecords (msg : List UInt8) : Nat → Nat → Option (List Rr)
  | 0, _       => some []
  | n + 1, off => do
    let (rr, next) ← parseRecord msg off
    some (rr :: (← parseRecords msg n next))

/-- Every record of a response. -/
def parseMessage (msg : List UInt8) : Option (List Rr) := do
  let flags ← be16 msg 2
  if flags &&& 0x8000 = 0 then none
  else
    let qd ← be16 msg 4
    let count := (← be16 msg 6) + (← be16 msg 8) + (← be16 msg 10)
    parseRecords msg count (← skipQuestions msg qd 12)

/-! ### What is kept -/

/-- What is known of an instance, and whether it has been handed on. -/
structure Instance where
  display : Text
  srv : Option (Nat × Text)
  txt : Option (List (Text × Text))
  done : Bool
  deriving DecidableEq

/-- The instances by name, and the addresses by host; both names in lower case. -/
structure Browser where
  instances : List (Text × Instance)
  hosts : List (Text × List (Vector UInt8 16))
  deriving DecidableEq

/-- A name in lower case. -/
def lower (name : Text) : Text := name.map Char.toLower

/-- An entry is changed, if there is one. -/
def change {β : Type} (key : Text) (f : β → β) (l : List (Text × β)) : List (Text × β) :=
  l.map fun e => if e.1 = key then (e.1, f e.2) else e

/-- There is an entry; a new one is as given. -/
def orInsert {β : Type} (key : Text) (new : β) (l : List (Text × β)) : List (Text × β) :=
  if l.any (·.1 = key) then l else l ++ [(key, new)]

/-- A pointer to an instance of the service makes it known. -/
def Browser.point (b : Browser) (rr : Rr) : Browser :=
  match rr.data with
  | .ptr target =>
    if 0 < rr.ttl ∧ lower rr.name = lower service then
      { b with instances := orInsert (lower target) ⟨target, none, none, false⟩ b.instances }
    else b
  | _           => b

/-- An address is added to a host's, which are forgotten first if this is a fresh answer; at most
    sixteen are kept. -/
def addAddr (fresh : Bool) (addr : Vector UInt8 16) (list : List (Vector UInt8 16)) :
    List (Vector UInt8 16) :=
  let list := if fresh then [] else list
  if addr ∉ list ∧ list.length < 16 then list ++ [addr] else list

/-- What a record says is kept: what is known, and the hosts that this answer has named. -/
def Browser.keep (b : Browser × List Text) (rr : Rr) : Browser × List Text :=
  let (b, seen) := b
  let key := lower rr.name
  if rr.ttl = 0 then (b, seen)
  else
    match rr.data with
    | .srv port target =>
      ({ b with instances := change key ({ · with srv := some (port, target) }) b.instances }, seen)
    | .txt entries     =>
      ({ b with instances := change key ({ · with txt := some entries }) b.instances }, seen)
    | .aaaa addr       =>
      ({ b with hosts := change key (addAddr (key ∉ seen) addr) (orInsert key [] b.hosts) },
        key :: seen)
    | _                => (b, seen)

/-- What a message says is kept, the pointers first. -/
def absorb (records : List Rr) (b : Browser) : Browser :=
  (records.foldl Browser.keep (records.foldl Browser.point b, [])).1

/-! ### What is handed on -/

/-- An instance of which everything is known. -/
structure Found where
  name : Text
  server : Text
  port : Nat
  addrs : List (Vector UInt8 16)
  props : List (Text × Text)
  deriving DecidableEq

/-- What an instance resolves to, if everything is known of it. -/
def Browser.found (b : Browser) (inst : Instance) : Option Found := do
  let (port, server) ← inst.srv
  let txt ← inst.txt
  let addrs ← b.hosts.lookup (lower server)
  if addrs = [] then none
  else some ⟨inst.display ++ ['.'], server ++ ['.'], port, addrs, txt⟩

/-- The instances that resolve now and had not before are handed on. -/
def Browser.resolve (b : Browser) : Browser × List Found :=
  let news := b.instances.filter fun e => !e.2.done && (b.found e.2).isSome
  ({ b with instances := b.instances.map fun e =>
      if (b.found e.2).isSome then (e.1, { e.2 with done := true }) else e },
    news.filterMap fun e => b.found e.2)

/-! ### Names are read -/

/-- Where the browser takes a pointer to lead. -/
theorem word_target {hi lo : UInt8} (h : 192 ≤ hi.toNat) :
    (hi.toNat * 256 + lo.toNat) &&& 0x3fff = (hi.toNat - 192) * 256 + lo.toNat := by
  have hand := Nat.and_two_pow_sub_one_eq_mod (hi.toNat * 256 + lo.toNat) 14
  norm_num at hand
  rw [hand]
  have := hi.toNat_lt
  have := lo.toNat_lt
  omega

section

variable {msg : List UInt8} {off : Nat} {behind : Option Nat} {jumps total : Nat} {acc : List Text}

private theorem readNameFrom_root (h : At msg off [0]) :
    readNameFrom msg off behind jumps total acc = some (dotted acc, behind.getD (off + 1)) := by
  unfold readNameFrom
  split <;> rename_i hbyte <;> rw [h.head] at hbyte <;> cases hbyte
  rfl

private theorem readNameFrom_label {l : List UInt8} (hl : Fits l)
    (h : At msg off (.ofNat l.length :: l))
    (htotal : total + (l.length + 1) ≤ 255) :
    readNameFrom msg off behind jumps total acc =
      readNameFrom msg (off + 1 + l.length) behind jumps (total + (l.length + 1))
        (acc ++ [fromUtf8Lossy l]) := by
  obtain ⟨hlen, hzero⟩ := label_byte hl.1 (by have := hl.2; omega)
  have hmask : UInt8.ofNat l.length &&& 0xc0 = 0 := (mask_iff _).1.mpr (by rw [hlen]; exact hl.2)
  have hslice : slice msg (off + 1) l.length = some l :=
    slice_at (List.getElem?_eq_some_iff.mp h.head).1 h.tail
  conv_lhs => unfold readNameFrom
  split <;> rename_i hbyte <;> rw [h.head] at hbyte <;> cases hbyte
  rw [if_pos hmask, dif_neg hzero, hlen, hslice]
  dsimp only
  rw [if_neg (by omega)]

private theorem readNameFrom_pointer {target : Nat} (htarget : target < 0x4000)
    (h : At msg off (toBe16 (0xc000 + target))) (hlt : target < msg.length) (hjumps : jumps < 32) :
    readNameFrom msg off behind jumps total acc =
      readNameFrom msg target (some (behind.getD (off + 2))) (jumps + 1) total acc := by
  have hmask : UInt8.ofNat ((0xc000 + target) / 256) &&& 0xc0 = 0xc0 :=
    (mask_iff _).2.mpr (pointer_byte htarget)
  have hword : (0xc000 + target) &&& 0x3fff = target := by
    have := Nat.and_two_pow_sub_one_eq_mod (0xc000 + target) 14
    norm_num at this
    rw [this]
    omega
  conv_lhs => unfold readNameFrom
  split <;> rename_i hbyte <;> rw [h.head] at hbyte <;> cases hbyte
  rw [hmask, if_neg (by decide), if_pos rfl, be16_at (by omega) h]
  dsimp only
  rw [dif_neg (by rw [hword]; omega), hword]

/-- The names that a message holds are read, as long as they are no longer and led to by no more
    pointers than a name may be. -/
private theorem readNameFrom_of_nameAt {ls : List (List UInt8)} {hops next : Nat}
    (h : NameAt msg off ls hops next) (hjumps : jumps + hops ≤ 32)
    (htotal : total + (ls.map (·.length + 1)).sum ≤ 255) :
    readNameFrom msg off behind jumps total acc =
      some (dotted (acc ++ ls.map fromUtf8Lossy), behind.getD next) := by
  induction h generalizing behind jumps total acc with
  | root h =>
    rw [readNameFrom_root h, List.map_nil, List.append_nil]
  | label hne hlen h rest ih =>
    rw [List.map_cons, List.sum_cons] at htotal
    rw [readNameFrom_label ⟨hne, hlen⟩ h (by omega), ih hjumps (by omega), List.map_cons,
      List.append_assoc]
    rfl
  | pointer htarget h rest ih =>
    rw [readNameFrom_pointer htarget h rest.lt (by omega), ih (by omega) htotal]
    rfl

end

theorem readName_of_nameAt {msg : List UInt8} {off hops next : Nat} {ls : List (List UInt8)}
    (h : NameAt msg off ls hops next) (hhops : hops ≤ 32)
    (hsize : (ls.map (·.length + 1)).sum ≤ 255) :
    readName msg off = some (dotted (ls.map fromUtf8Lossy), next) := by
  unfold readName
  rw [readNameFrom_of_nameAt h (by omega) (by omega)]
  rfl

/-- What the advertiser writes for a name is read as its labels that are not empty. -/
theorem Accepted.readName {name : Text} (hname : Accepted name) {msg : List UInt8} {off : Nat}
    (h : At msg off (wire (wireLabels name))) :
    readName msg off = some (normal name, off + (wire (wireLabels name)).length) := by
  have hsize := hname.size
  rw [readName_of_nameAt (nameAt_wire hname.fits h) (by omega) (by omega), map_wireLabels]
  rfl

/-! ### Records are read -/

/-- Those bytes are the data of a record that says so, wherever it stands. -/
def Says (rtype : Nat) (rdata : List UInt8) (data : RData) : Prop :=
  ∀ msg start, At msg start rdata → parseData msg rtype start rdata = some data

private theorem says_ptr {name : Text} (hname : Accepted name) :
    Says 12 (wire (wireLabels name)) (.ptr (normal name)) := by
  intro msg start h
  unfold parseData
  rw [if_pos rfl, hname.readName h]
  rfl

private theorem says_srv {name : Text} (hname : Accepted name) (port : UInt16) :
    Says 33 (srvData port (wire (wireLabels name))) (.srv port.toNat (normal name)) := by
  intro msg start h
  have hlen : 6 ≤ (srvData port (wire (wireLabels name))).length := by
    unfold srvData
    rw [List.length_append, List.length_append, length_toBe16]
    show 6 ≤ 4 + (2 + _)
    omega
  have hport : At msg (start + 4) (toBe16 port.toNat ++ wire (wireLabels name)) :=
    @At.right _ [0, 0, 0, 0] _ _ h
  have hhost : At msg (start + 6) (wire (wireLabels name)) := hport.right
  unfold parseData
  rw [if_neg (by decide), if_pos ⟨rfl, hlen⟩, be16_at port.toNat_lt hport.left,
    hname.readName hhost]
  rfl

private theorem says_aaaa (ll : Vector UInt8 16) : Says 28 ll.toList (.aaaa ll) := by
  intro msg start h
  have hlen : ll.toList.length = 16 := by simp
  unfold parseData
  rw [if_neg (by decide), if_neg (by simp), if_neg (by decide), dif_pos ⟨rfl, hlen⟩]
  rfl

/-- Data of a type that is not known say nothing. -/
private theorem says_other (rdata : List UInt8) : Says 47 rdata .other := by
  intro msg start h
  unfold parseData
  rw [if_neg (by decide), if_neg (by simp), if_neg (by decide), dif_neg (by simp)]

private theorem txtEntry_eq {key value : Text} (hkey : ∀ c ∈ key, c.toNat < 0x80 ∧ c ≠ '=') :
    txtEntry (utf8 (key ++ '=' :: value)) = [(key, value)] := by
  have hbytes : utf8 (key ++ '=' :: value) = utf8 key ++ (61 :: utf8 value) := by
    unfold utf8
    rw [List.flatMap_append, List.flatMap_cons]
    rfl
  have hne : ∀ b ∈ utf8 key, decide (b ≠ 61) = true := by
    intro b hb
    rw [utf8_ascii fun c hc => (hkey c hc).1] at hb
    obtain ⟨c, hc, rfl⟩ := List.mem_map.mp hb
    obtain ⟨hlt, hneq⟩ := hkey c hc
    rw [decide_eq_true_eq]
    intro heq
    have hcode : c.toNat = 61 := by
      have hval : c.toNat % 256 = 61 := by
        rw [← UInt8.toNat_ofNat', heq]
        rfl
      omega
    apply hneq
    rw [← Char.ofNat_toNat c, hcode]
  have htake : (utf8 key ++ (61 :: utf8 value)).takeWhile (· ≠ 61) = utf8 key := by
    rw [List.takeWhile_append_of_pos hne, List.takeWhile_cons_of_neg (by decide), List.append_nil]
  unfold txtEntry
  dsimp only
  rw [hbytes, htake, if_neg (by simp), ← List.drop_drop, List.drop_left, List.drop_succ_cons,
    List.drop_zero, fromUtf8Lossy_utf8, fromUtf8Lossy_utf8]

private theorem toNat_of_isDigit {c : Char} (h : c.isDigit = true) : c.toNat < 0x80 := by
  have hbounds : 48 ≤ c.toNat ∧ c.toNat ≤ 57 := by
    simpa [Char.isDigit, UInt32.le_iff_toNat_le] using h
  omega

/-- The flags fit the entry's length byte. -/
theorem length_flags_lt (flags : UInt64) :
    (utf8 ("flags=".toList ++ decimal flags.toNat)).length < 256 := by
  have hnum : (decimal flags.toNat).length ≤ 20 := by
    unfold decimal
    rw [List.length_map]
    exact length_numeral_le (by omega) (by omega) (flags.toNat_lt.trans (by decide))
  have hsix : ("flags=".toList : Text).length = 6 := rfl
  rw [length_utf8_of_ascii, List.length_append, hsix]
  · omega
  · intro c hc
    rcases List.mem_append.mp hc with hc | hc
    · have hall : ∀ c ∈ "flags=".toList, c.toNat < 0x80 := by decide
      exact hall c hc
    · exact toNat_of_isDigit (isDigit_of_mem_decimal hc)

private theorem says_txt (flags : UInt64) :
    Says 16 (txtData flags) (.txt [("flags".toList, decimal flags.toNat)]) := by
  intro msg start h
  have hentry : txtEntry (utf8 ("flags=".toList ++ decimal flags.toNat)) =
      [("flags".toList, decimal flags.toNat)] :=
    @txtEntry_eq "flags".toList _ (by decide)
  have hlen := length_flags_lt flags
  have hbyte : (UInt8.ofNat (utf8 ("flags=".toList ++ decimal flags.toNat)).length).toNat =
      (utf8 ("flags=".toList ++ decimal flags.toNat)).length := by
    rw [UInt8.toNat_ofNat']
    omega
  unfold parseData txtData
  dsimp only
  rw [if_neg (by decide), if_neg (by simp), if_pos rfl, txtEntries, hbyte, if_pos le_rfl,
    List.take_length, List.drop_length, txtEntries, hentry]
  rfl

/-- **A record that was written is read**, and the next one is looked for behind it. -/
theorem parseRecord_at {name : Text} (hname : Accepted name) {msg rdata : List UInt8}
    {off rtype rclass ttl : Nat} {data : RData} (htype : rtype < 65536) (httl : ttl < 2 ^ 32)
    (hlen : rdata.length < 65536) (hdata : Says rtype rdata data)
    (h : At msg off (record (wire (wireLabels name)) rtype rclass ttl rdata)) :
    parseRecord msg off = some (⟨normal name, ttl, data⟩,
      off + (record (wire (wireLabels name)) rtype rclass ttl rdata).length) := by
  have htypeAt := At.right h
  have hclassAt := At.right htypeAt
  have httlAt := At.right hclassAt
  have hlenAt := At.right httlAt
  have hdataAt := At.right hlenAt
  simp only [length_toBe16, length_toBe32] at hclassAt httlAt hlenAt hdataAt
  have hstart := (At.left hlenAt).le (by simp [toBe16])
  rw [length_toBe16] at hstart
  unfold parseRecord
  rw [hname.readName (At.left h)]
  simp only [Option.bind_eq_bind, Option.bind_some]
  rw [be16_at htype (At.left htypeAt), Option.bind_some, be32_at httl (At.left httlAt),
    Option.bind_some, be16_at hlen (At.left hlenAt), Option.bind_some,
    slice_at hstart hdataAt, Option.bind_some, hdata _ _ hdataAt, Option.bind_some]
  unfold record
  simp only [List.length_append, length_toBe16, length_toBe32]
  congr 2
  omega

/-! ### Messages are read -/

/-- The records of a response with so many answers and nothing else are looked for behind its
    header. -/
theorem parseMessage_header {n : Nat} (hn : n < 65536) (body : List UInt8) :
    parseMessage (header n ++ body) = parseRecords (header n ++ body) n 12 := by
  have hat (pre : List UInt8) (word : Nat) (post : List UInt8) (hword : word < 65536)
      (h : header n = pre ++ (toBe16 word ++ post)) :
      be16 (header n ++ body) pre.length = some word := by
    apply be16_at hword
    rw [h, List.append_assoc, List.append_assoc]
    exact at_append _ _ _
  have hflags : be16 (header n ++ body) 2 = some 0x8400 :=
    hat (toBe16 0) 0x8400 ([0, n, 0, 0].flatMap toBe16) (by omega) rfl
  have hqd : be16 (header n ++ body) 4 = some 0 :=
    hat ([0, 0x8400].flatMap toBe16) 0 ([n, 0, 0].flatMap toBe16) (by omega) rfl
  have han : be16 (header n ++ body) 6 = some n :=
    hat ([0, 0x8400, 0].flatMap toBe16) n ([0, 0].flatMap toBe16) hn rfl
  have hns : be16 (header n ++ body) 8 = some 0 :=
    hat ([0, 0x8400, 0, n].flatMap toBe16) 0 ([0].flatMap toBe16) (by omega) rfl
  have har : be16 (header n ++ body) 10 = some 0 :=
    hat ([0, 0x8400, 0, n, 0].flatMap toBe16) 0 [] (by omega) rfl
  unfold parseMessage
  rw [hflags, hqd, han, hns, har]
  rfl

/-- The records of an announcement. -/
def announced (sid host : Text) (port : UInt16) (flags : UInt64) (ll : Vector UInt8 16) :
    List Rr :=
  let inst := normal (instanceName sid)
  [⟨service, 4500, .ptr inst⟩, ⟨inst, 120, .srv port.toNat (normal host)⟩,
    ⟨inst, 4500, .txt [("flags", decimal flags.toNat)]⟩, ⟨normal host, 120, .aaaa ll⟩]

theorem parseRecords_succ {msg : List UInt8} {n off next : Nat} {rr : Rr}
    (h : parseRecord msg off = some (rr, next)) :
    parseRecords msg (n + 1) off = (parseRecords msg n next).map (rr :: ·) := by
  rw [parseRecords, h]
  simp only [Option.bind_eq_bind, Option.bind_some]
  cases parseRecords msg n next <;> rfl

/-- The records of an announcement stand behind its header, one after the other. -/
theorem exists_announcement {sid host : Text} (hsid : Accepted (instanceName sid))
    (hhost : Accepted host) (port : UInt16) (flags : UInt64) (ll : Vector UInt8 16) :
    ∃ body, announcement sid host port flags ll = .ok (header 4 ++ body) ∧
      ∀ n answers rest, parseRecords (header answers ++ (body ++ rest)) (4 + n) 12 =
        (parseRecords (header answers ++ (body ++ rest)) n (12 + body.length)).map
          (announced sid host port flags ll ++ ·) := by
  have hwire := hsid.length_wire_le
  have hwireHost := hhost.length_wire_le
  have hsrv : (srvData port (wire (wireLabels host))).length ≤ 65535 := by
    unfold srvData
    rw [List.length_append, List.length_append, length_toBe16]
    show 4 + (2 + _) ≤ _
    omega
  have htxt : (txtData flags).length ≤ 65535 := by
    have := length_flags_lt flags
    unfold txtData
    rw [List.length_cons]
    omega
  have hll : ll.toList.length ≤ 65535 := by simp
  -- the four records, each as it stands on the wire
  let inst := wire (wireLabels (instanceName sid))
  let ptr := record (wire (wireLabels service)) 12 1 4500 inst
  let srv := record inst 33 cacheFlush 120 (srvData port (wire (wireLabels host)))
  let txt := record inst 16 cacheFlush 4500 (txtData flags)
  let aaaa := record (wire (wireLabels host)) 28 cacheFlush 120 ll.toList
  refine ⟨ptr ++ (srv ++ (txt ++ aaaa)), ?_, fun n answers rest => ?_⟩
  · -- none of them is too long to be written
    unfold announcement
    dsimp only
    rw [hhost.dname, hsid.dname]
    simp only [bind, Except.bind]
    rw [accepted_service.rr (hwire.trans (by decide)), hsid.rr hsrv, hsid.rr htxt, hhost.rr hll]
    rfl
  · -- each stands where the one before it ends
    have hbody := at_append (header answers) (ptr ++ (srv ++ (txt ++ aaaa))) rest
    have hptr : At _ 12 ptr := At.left hbody
    have hrest : At _ (12 + ptr.length) (srv ++ (txt ++ aaaa)) := At.right hbody
    have hsrvAt : At _ (12 + ptr.length) srv := At.left hrest
    have hrest' : At _ (12 + ptr.length + srv.length) (txt ++ aaaa) := At.right hrest
    have htxtAt : At _ (12 + ptr.length + srv.length) txt := At.left hrest'
    have haaaa : At _ (12 + ptr.length + srv.length + txt.length) aaaa := At.right hrest'
    have hnext : 12 + ptr.length + srv.length + txt.length + aaaa.length =
        12 + (ptr ++ (srv ++ (txt ++ aaaa))).length := by
      simp only [List.length_append]
      omega
    have hservice : normal service = service := by decide
    have hcount : 4 + n = n + 1 + 1 + 1 + 1 := by omega
    rw [hcount, parseRecords_succ (parseRecord_at accepted_service (by decide) (by decide)
        (Nat.lt_succ_of_le (hwire.trans (by decide))) (says_ptr hsid) hptr),
      parseRecords_succ (parseRecord_at hsid (by decide) (by decide) (Nat.lt_succ_of_le hsrv)
        (says_srv hhost port) hsrvAt),
      parseRecords_succ (parseRecord_at hsid (by decide) (by decide) (Nat.lt_succ_of_le htxt)
        (says_txt flags) htxtAt),
      parseRecords_succ (parseRecord_at hhost (by decide) (by decide) (Nat.lt_succ_of_le hll)
        (says_aaaa ll) haaaa), hnext, hservice]
    simp only [Option.map_map]
    rfl

/-- The reply is the announcement with a record behind it, and a count that says so. -/
theorem exists_reply {sid host : Text} (hsid : Accepted (instanceName sid)) (hhost : Accepted host)
    (port : UInt16) (flags : UInt64) (ll : Vector UInt8 16) :
    ∃ rep, reply sid host port flags ll = .ok rep ∧
      parseMessage rep = some (announced sid host port flags ll ++ [⟨normal host, 120, .other⟩]) := by
  obtain ⟨body, hbody, hread⟩ := exists_announcement hsid hhost port flags ll
  have hwire := hhost.length_wire_le
  let rdata := wire (wireLabels host) ++ nsecTypes
  let nsec := record (wire (wireLabels host)) 47 cacheFlush 120 rdata
  have hdata : rdata.length ≤ 65535 := by
    rw [List.length_append]
    show _ + 8 ≤ _
    omega
  refine ⟨header 5 ++ (body ++ nsec), ?_, ?_⟩
  · unfold reply
    rw [hbody, hhost.dname]
    simp only [bind, Except.bind]
    rw [hhost.rr hdata]
    have hlen : 8 ≤ (header 4 ++ body).length := by
      rw [List.length_append]
      exact (show 8 ≤ (header 4).length by decide).trans (Nat.le_add_right _ _)
    have hcount : be16 (header 4 ++ body) 6 = some 4 := rfl
    have hpatch : (header 4 ++ body).take 6 ++ toBe16 5 ++ (header 4 ++ body).drop 8 =
        header 5 ++ body := rfl
    dsimp only
    rw [if_pos hlen, hcount, ← List.append_assoc]
    exact congrArg (fun msg => Except.ok (msg ++ nsec)) hpatch
  · rw [parseMessage_header (by omega)]
    have hat : At (header 5 ++ (body ++ nsec)) (12 + body.length) nsec := by
      have h := at_append (header 5 ++ body) nsec []
      rw [List.append_nil, List.append_assoc, List.length_append] at h
      exact h
    rw [show 5 = 4 + 1 from rfl, hread 1 5 nsec, parseRecords_succ (parseRecord_at hhost (by decide)
      (by decide) (Nat.lt_succ_of_le hdata) (says_other rdata) hat)]
    rfl

/-- What a browser that knows nothing makes of an announcement. -/
private theorem absorb_announced (sid host : Text) (port : UInt16) (flags : UInt64)
    (ll : Vector UInt8 16) :
    absorb (announced sid host port flags ll) ⟨[], []⟩ =
      ⟨[(lower (normal (instanceName sid)), ⟨normal (instanceName sid),
          some (port.toNat, normal host), some [("flags", decimal flags.toNat)], false⟩)],
        [(lower (normal host), [ll])]⟩ := by
  simp [absorb, announced, Browser.point, Browser.keep, orInsert, change, addAddr]

/-- A record that says nothing changes nothing. -/
private theorem absorb_other (records : List Rr) (name : Text) (ttl : Nat) (b : Browser) :
    absorb (records ++ [⟨name, ttl, .other⟩]) b = absorb records b := by
  unfold absorb
  rw [List.foldl_append, List.foldl_append]
  show (Browser.keep (records.foldl Browser.keep (records.foldl Browser.point b, [])) _).1 = _
  unfold Browser.keep
  dsimp only
  split_ifs <;> rfl

/-- **The browser understands the advertiser.**  For every instance and host that are accepted, an
    announcement is read as the records that it was written from, and is enough for the instance to
    be handed on with its port, its address and its flags; a reply is read as the same records and
    one that says nothing, and has the same effect. -/
theorem announcement_understood {sid host : Text}
    (hsid : checkName (instanceName sid) = .ok ()) (hhost : checkName host = .ok ())
    (port : UInt16) (flags : UInt64) (ll : Vector UInt8 16) :
    ∃ msg rep, announcement sid host port flags ll = .ok msg ∧
      reply sid host port flags ll = .ok rep ∧
      parseMessage msg = some (announced sid host port flags ll) ∧
      parseMessage rep = some (announced sid host port flags ll ++ [⟨normal host, 120, .other⟩]) ∧
      (absorb (announced sid host port flags ll) ⟨[], []⟩).resolve.2 =
        [⟨normal (instanceName sid) ++ ['.'], normal host ++ ['.'], port.toNat, [ll],
          [("flags", decimal flags.toNat)]⟩] ∧
      absorb (announced sid host port flags ll ++ [⟨normal host, 120, .other⟩]) ⟨[], []⟩ =
        absorb (announced sid host port flags ll) ⟨[], []⟩ := by
  rw [accepted_iff] at hsid hhost
  obtain ⟨body, hbody, hread⟩ := exists_announcement hsid hhost port flags ll
  obtain ⟨rep, hrep, hparse⟩ := exists_reply hsid hhost port flags ll
  have hmsg : parseMessage (header 4 ++ body) = some (announced sid host port flags ll) := by
    have h := hread 0 4 []
    rw [List.append_nil] at h
    rw [parseMessage_header (by omega), h]
    simp [parseRecords]
  refine ⟨_, rep, hbody, hrep, hmsg, hparse, ?_, absorb_other _ _ _ _⟩
  rw [absorb_announced]
  simp [Browser.resolve, Browser.found]

/-- A host whose name has empty labels. -/
theorem announcement_understood_hume : ∃ msg rep,
    announcement "0e9d036c5823" "hume..local." 8771 0x88 (.replicate 16 0xfe) = .ok msg ∧
      reply "0e9d036c5823" "hume..local." 8771 0x88 (.replicate 16 0xfe) = .ok rep ∧
      parseMessage msg =
        some (announced "0e9d036c5823" "hume..local." 8771 0x88 (.replicate 16 0xfe)) ∧
      parseMessage rep =
        some (announced "0e9d036c5823" "hume..local." 8771 0x88 (.replicate 16 0xfe) ++
          [⟨"hume.local", 120, .other⟩]) ∧
      (absorb (announced "0e9d036c5823" "hume..local." 8771 0x88 (.replicate 16 0xfe))
        ⟨[], []⟩).resolve.2 = [⟨"0e9d036c5823._airdrop._tcp.local.", "hume.local.", 8771,
          [.replicate 16 0xfe], [("flags", "136")]⟩] ∧
      absorb (announced "0e9d036c5823" "hume..local." 8771 0x88 (.replicate 16 0xfe) ++
          [⟨"hume.local", 120, .other⟩]) ⟨[], []⟩ =
        absorb (announced "0e9d036c5823" "hume..local." 8771 0x88 (.replicate 16 0xfe)) ⟨[], []⟩ := by
  have h := @announcement_understood "0e9d036c5823" "hume..local." (by decide) (by decide) 8771 0x88
    (.replicate 16 0xfe)
  have hhost : normal "hume..local." = "hume.local".toList := by decide
  have hinst : normal (instanceName "0e9d036c5823") = "0e9d036c5823._airdrop._tcp.local".toList := by
    decide
  have hflags : decimal (0x88 : UInt64).toNat = "136".toList := by decide +kernel
  rw [hhost, hinst, hflags] at h
  exact h

end Omdrop.Mdns
