import Mathlib
import Omdrop.Mdns.Names

namespace Omdrop.Mdns

open Omdrop.Text

/-!
# What the browser asks for again

`encodeName` writes a name that was read, and `query` asks for what an instance still lacks.
`encodeName_readName_iff` says which names come out as they were announced.
-/

/-- A label as it is asked for: at most 63 bytes of it. -/
def encodeLabel (label : Text) : List UInt8 :=
  let bytes := utf8 label
  let n := min bytes.length 63
  .ofNat n :: bytes.take n

/-- A name as it is asked for. -/
def encodeName (name : Text) : List UInt8 :=
  ((trimDots name).splitOn '.').flatMap encodeLabel ++ [0]

/-- A query for names and types. -/
def query (questions : List (Text × Nat)) : List UInt8 :=
  [0, 0, 0, 0] ++ toBe16 questions.length ++ [0, 0, 0, 0, 0, 0] ++
    questions.flatMap fun q => encodeName q.1 ++ toBe16 q.2 ++ toBe16 1

/-- What is asked for as long as an instance lacks it. -/
def Browser.lacking (b : Browser) (inst : Instance) : List (Text × Nat) :=
  (if inst.srv.isNone then [(inst.display, 33)] else []) ++
    (if inst.txt.isNone then [(inst.display, 16)] else []) ++
    match inst.srv with
    | some (_, target) => if (b.hosts.lookup (lower target)).isNone then [(target, 28)] else []
    | none             => []

/-- The query for those labels. -/
def wireQuery (questions : List (List (List UInt8) × Nat)) : List UInt8 :=
  [0, 0, 0, 0] ++ toBe16 questions.length ++ [0, 0, 0, 0, 0, 0] ++
    questions.flatMap fun q => wire q.1 ++ toBe16 q.2 ++ toBe16 1

/-- A label comes back from text: it is text, or it is as long as a label may be and ends where the
    replacement character of three bytes would go on. -/
def Whole (l : List UInt8) : Prop :=
  ∃ t, l = utf8 t ∨ l.length = 63 ∧ (l = utf8 t ++ [0xef] ∨ l = utf8 t ++ [0xef, 0xbf])

/-- A label is asked for as it was announced: no dot divides it, and it comes back from text. -/
def Asked (l : List UInt8) : Prop := 0x2e ∉ l ∧ Whole l

/-- A name was read from some packet, along these labels. -/
def Announced (name : Text) (ls : List (List UInt8)) : Prop :=
  ∃ msg off hops next, readName msg off = some (name, next) ∧ WalkAt 64 msg off ls hops next

/-! ### Labels -/

/-- The bytes of a label that are asked for. -/
def cut (label : Text) : List UInt8 := (utf8 label).take 63

theorem length_cut (label : Text) : (cut label).length = min (utf8 label).length 63 := by
  unfold cut
  rw [List.length_take, Nat.min_comm]

private theorem encodeLabel_eq (label : Text) :
    encodeLabel label = .ofNat (cut label).length :: cut label := by
  unfold encodeLabel
  rw [length_cut]
  show _ :: (utf8 label).take (min (utf8 label).length 63) = _ :: (utf8 label).take 63
  rw [Nat.min_comm, ← List.take_take, List.take_length]

theorem encodeName_eq (name : Text) :
    encodeName name = wire (((trimDots name).splitOn '.').map cut) := by
  unfold encodeName wire
  rw [List.flatMap_map]
  congr 2
  funext label
  exact encodeLabel_eq label

/-- Labels are told apart by what is written of them. -/
private theorem wire_inj {ls ls' : List (List UInt8)} (hls : ∀ l ∈ ls, l.length < 256)
    (hls' : ∀ l ∈ ls', l.length < 256) (h : wire ls = wire ls') : ls = ls' := by
  have hbody := List.append_cancel_right h
  clear h
  induction ls generalizing ls' with
  | nil =>
    cases ls' with
    | nil => rfl
    | cons => cases hbody
  | cons l ls ih =>
    cases ls' with
    | nil => cases hbody
    | cons l' ls' =>
      rw [List.flatMap_cons, List.flatMap_cons, List.cons_append, List.cons_append] at hbody
      obtain ⟨hbyte, hrest⟩ := List.cons.inj hbody
      have hlen : l.length = l'.length := by
        rw [← toNat_ofNat_byte (hls l List.mem_cons_self), hbyte,
          toNat_ofNat_byte (hls' l' List.mem_cons_self)]
      obtain ⟨rfl, htails⟩ := List.append_inj hrest hlen
      rw [ih (fun x hx => hls x (List.mem_cons_of_mem _ hx))
        (fun x hx => hls' x (List.mem_cons_of_mem _ hx)) htails]

/-- A label that ends in a part of the replacement character gets the rest of it, which is cut off
    again if the label is as long as a label may be. -/
theorem cut_of_part {t : Text} {part : List UInt8} (hpart : part <+: [0xef, 0xbf, 0xbd])
    (hnil : part ≠ []) (hne : part ≠ [0xef, 0xbf, 0xbd]) (hlen : (utf8 t ++ part).length = 63) :
    cut (fromUtf8Lossy (utf8 t ++ part)) = utf8 t ++ part := by
  have hlossy : fromUtf8Lossy (utf8 t ++ part) = t ++ ['\ufffd'] := by
    rw [fromUtf8Lossy_utf8_append, fromUtf8Lossy, @decodeUtf8_cut '\ufffd' part hpart hnil hne]
    rfl
  obtain ⟨rest, hrest⟩ := hpart
  have hbytes : utf8 (t ++ ['\ufffd']) = utf8 t ++ part ++ rest := by
    rw [utf8_append, List.append_assoc, hrest]
    rfl
  unfold cut
  rw [hlossy, hbytes, List.take_left' hlen]

/-- Which labels come back from text. -/
theorem cut_fromUtf8Lossy_iff {l : List UInt8} (hlen : l.length < 64) :
    cut (fromUtf8Lossy l) = l ↔ Whole l := by
  constructor
  · intro h
    obtain ⟨t₁, t₂, part, ht, htake, hpart⟩ := take_utf8 (fromUtf8Lossy l) 63
    have hl : l = utf8 t₁ ++ part := h.symm.trans htake
    rcases hpart with rfl | ⟨c, hprefix, hnil, hne⟩
    · exact ⟨t₁, .inl (hl.trans (List.append_nil _))⟩
    · -- the part is read as the replacement character, so it is a part of that one
      have hlossy : fromUtf8Lossy l = t₁ ++ ['\ufffd'] := by
        rw [hl, fromUtf8Lossy_utf8_append, fromUtf8Lossy, decodeUtf8_cut hprefix hnil hne]
        rfl
      have hbytes : utf8 (fromUtf8Lossy l) = utf8 t₁ ++ [0xef, 0xbf, 0xbd] := by
        rw [hlossy, utf8_append]
        rfl
      have hk : part = [0xef, 0xbf, 0xbd].take (63 - (utf8 t₁).length) := by
        unfold cut at h
        rw [hbytes, hl, List.take_append, List.take_of_length_le] at h
        · exact (List.append_cancel_left h).symm
        · rw [hl, List.length_append] at hlen
          omega
      have hwhole : part ≠ [0xef, 0xbf, 0xbd] := fun hpart => by
        have hnone := decodeUtf8_cut hprefix hnil hne
        rw [hpart] at hnone
        have hsome := decodeUtf8_char '\ufffd' []
        rw [List.append_nil, show decodeUtf8 [] = [] by rw [decodeUtf8]] at hsome
        cases hnone.symm.trans hsome
      have hlength : l.length = (utf8 t₁).length + part.length := by
        rw [hl, List.length_append]
      refine ⟨t₁, .inr ?_⟩
      rcases hgap : 63 - (utf8 t₁).length with _ | _ | _ | k <;> rw [hgap] at hk
      · exact absurd hk hnil
      · subst hk
        exact ⟨by rw [hlength]; show _ + 1 = _; omega, .inl hl⟩
      · subst hk
        exact ⟨by rw [hlength]; show _ + 2 = _; omega, .inr hl⟩
      · rw [List.take_of_length_le (by simp)] at hk
        exact absurd hk hwhole
  · rintro ⟨t, rfl | ⟨hlen, rfl | rfl⟩⟩
    · unfold cut
      rw [fromUtf8Lossy_utf8, List.take_of_length_le (by omega)]
    · exact cut_of_part (by decide) (by decide) (by decide) hlen
    · exact cut_of_part (by decide) (by decide) (by decide) hlen

/-! ### Names -/

/-- Text that does not end in a dot is left as it is. -/
private theorem trimDots_dotted {ts : List Text} (hts : ∀ t ∈ ts, t ≠ [] ∧ '.' ∉ t) :
    trimDots (dotted ts) = dotted ts := by
  have hlast : ts ≠ [] → ∃ pre c, dotted ts = pre ++ [c] ∧ c ≠ '.' := by
    intro hnil
    induction ts with
    | nil => exact absurd rfl hnil
    | cons t ts ih =>
      cases ts with
      | nil =>
        obtain ⟨hne, hdot⟩ := hts t List.mem_cons_self
        refine ⟨t.dropLast, t.getLast hne, ?_, fun h => hdot (h ▸ List.getLast_mem hne)⟩
        rw [List.dropLast_append_getLast]
        exact List.intercalate_singleton
      | cons u us =>
        obtain ⟨pre, c, hpre, hc⟩ := ih (fun x hx => hts x (List.mem_cons_of_mem _ hx)) (by simp)
        refine ⟨t ++ ['.'] ++ pre, c, ?_, hc⟩
        rw [List.append_assoc, ← hpre]
        exact List.intercalate_cons_cons
  by_cases hnil : ts = []
  · rw [hnil]
    rfl
  · obtain ⟨pre, c, hpre, hc⟩ := hlast hnil
    rw [hpre, trimDots_concat, if_neg hc]

/-- Labels without dots are told apart in text. -/
theorem splitOn_dotted {ls : List (List UInt8)} (hnil : ls ≠ []) (hne : ∀ l ∈ ls, l ≠ [])
    (hdot : ∀ l ∈ ls, 0x2e ∉ l) :
    (trimDots (dotted (ls.map fromUtf8Lossy))).splitOn '.' = ls.map fromUtf8Lossy := by
  have hlabel : ∀ t ∈ ls.map fromUtf8Lossy, t ≠ [] ∧ '.' ∉ t := by
    intro t ht
    obtain ⟨l, hl, rfl⟩ := List.mem_map.mp ht
    refine ⟨mt fromUtf8Lossy_eq_nil.mp (hne l hl), fun hmem => hdot l hl ?_⟩
    exact mem_of_ascii_mem_fromUtf8Lossy (c := '.') (by decide) hmem
  rw [trimDots_dotted hlabel]
  exact List.splitOn_intercalate '.' (fun t ht => (hlabel t ht).2) (by simpa using hnil)

/-- No label that is written holds a dot. -/
theorem dot_not_mem_of_cut {name : Text} {l : List UInt8}
    (hl : l ∈ ((trimDots name).splitOn '.').map cut) : 0x2e ∉ l := by
  intro hmem
  obtain ⟨t, ht, rfl⟩ := List.mem_map.mp hl
  exact dot_not_mem_splitOn ht
    (@mem_of_ascii_mem_utf8 t 0x2e (by decide) (List.mem_of_mem_take hmem))

/-- **A name that was read is asked for as it was announced, as long as no dot divides a label of
    it, all come back from text, and it is not the root.** -/
theorem encodeName_dotted_iff {ls : List (List UInt8)} (hls : ∀ l ∈ ls, Fits l) :
    encodeName (dotted (ls.map fromUtf8Lossy)) = wire ls ↔ ls ≠ [] ∧ ∀ l ∈ ls, Asked l := by
  have hlt : ∀ l ∈ ls, l.length < 256 := fun l hl => (hls l hl).2.trans (by decide)
  rw [encodeName_eq]
  constructor
  · intro h
    have hpieces := wire_inj (fun l hl => by
      obtain ⟨t, -, rfl⟩ := List.mem_map.mp hl
      rw [length_cut]
      omega) hlt h
    have hnil : ls ≠ [] := by
      rw [← hpieces]
      simp [List.splitOn_ne_nil]
    have hdot : ∀ l ∈ ls, 0x2e ∉ l := fun l hl => dot_not_mem_of_cut (hpieces ▸ hl)
    rw [splitOn_dotted hnil (fun l hl => (hls l hl).1) hdot, List.map_map] at hpieces
    refine ⟨hnil, fun l hl => ⟨hdot l hl, ?_⟩⟩
    have hsame : ls.map (cut ∘ fromUtf8Lossy) = ls.map id := by rw [hpieces, List.map_id]
    exact (cut_fromUtf8Lossy_iff (hls l hl).2).mp (List.map_inj_left.mp hsame l hl)
  · rintro ⟨hnil, hasked⟩
    rw [splitOn_dotted hnil (fun l hl => (hls l hl).1) fun l hl => (hasked l hl).1, List.map_map]
    have hsame : ls.map (cut ∘ fromUtf8Lossy) = ls.map id := List.map_congr_left fun l hl =>
      (cut_fromUtf8Lossy_iff (hls l hl).2).mpr (hasked l hl).2
    rw [hsame, List.map_id]

/-! ### Questions -/

/-- What is asked of an instance of which no server is known. -/
theorem lacking_of_srv_none (b : Browser) {inst : Instance} (h : inst.srv = none) :
    b.lacking inst =
      (inst.display, 33) :: if inst.txt.isNone then [(inst.display, 16)] else [] := by
  unfold Browser.lacking
  rw [h]
  show [_] ++ _ ++ [] = _
  rw [List.append_nil]
  rfl

/-- A walk goes along labels that fit. -/
theorem WalkAt.fits {msg : List UInt8} {off hops next : Nat} {ls : List (List UInt8)}
    (h : WalkAt 64 msg off ls hops next) : ∀ l ∈ ls, Fits l := by
  induction h with
  | root => simp
  | label hne hlen _ _ ih => exact List.forall_mem_cons.mpr ⟨⟨hne, hlen⟩, ih⟩
  | pointer _ _ _ ih => exact ih

/-- A name that was announced is the text of its labels, which fit. -/
theorem Announced.dotted {name : Text} {ls : List (List UInt8)} (h : Announced name ls) :
    name = dotted (ls.map fromUtf8Lossy) ∧ ∀ l ∈ ls, Fits l := by
  obtain ⟨msg, off, hops, next, hread, hwalk⟩ := h
  obtain ⟨ls', hops', hwalk', -, -, hname⟩ := ((readers_exact msg off).1 name next).mp hread
  obtain ⟨rfl, -, -⟩ := hwalk.unique (by decide) hwalk'
  exact ⟨hname, hwalk.fits⟩

/-- The labels that a packet goes on with are these, unless the ones that are written go on with an
    empty one. -/
private theorem labels_of_front {as bs : List (List UInt8)} {xs ys : List UInt8}
    (has : ∀ l ∈ as, l.length < 256) (hbs : ∀ l ∈ bs, Fits l)
    (h : wire as ++ xs = wire bs ++ ys) : as = bs ∨ ∃ rest, as = bs ++ [] :: rest := by
  induction bs generalizing as with
  | nil =>
    cases as with
    | nil => exact .inl rfl
    | cons a as =>
      -- the end of the name stands where the length of a label is written
      rw [wire_cons, List.cons_append] at h
      have hzero : a.length = 0 := by
        rw [← toNat_ofNat_byte (has a List.mem_cons_self), (List.cons.inj h).1]
        rfl
      exact .inr ⟨as, by rw [List.length_eq_zero_iff.mp hzero]; rfl⟩
  | cons b bs ih =>
    obtain ⟨hne, hlen⟩ := hbs b List.mem_cons_self
    rw [wire_cons, List.cons_append, List.append_assoc] at h
    have hbyte : (UInt8.ofNat b.length).toNat = b.length := toNat_ofNat_byte (by omega)
    cases as with
    | nil =>
      have hzero : (0 : UInt8) = .ofNat b.length := (List.cons.inj h).1
      rw [← hzero] at hbyte
      exact absurd (List.length_eq_zero_iff.mp hbyte.symm) hne
    | cons a as =>
      rw [wire_cons, List.cons_append, List.append_assoc] at h
      obtain ⟨hfirst, hrest⟩ := List.cons.inj h
      have hsame : a.length = b.length := by
        rw [← toNat_ofNat_byte (has a List.mem_cons_self), hfirst, hbyte]
      obtain ⟨rfl, hmore⟩ := List.append_inj hrest hsame
      rcases ih (fun l hl => has l (List.mem_cons_of_mem _ hl))
        (fun l hl => hbs l (List.mem_cons_of_mem _ hl)) hmore with rfl | ⟨rest, rfl⟩
      · exact .inl rfl
      · exact .inr ⟨rest, rfl⟩

/-- The front of a packet says which name is asked for: where it is that of the labels that were
    announced, they are what is written. -/
private theorem encodeName_of_front {ls : List (List UInt8)} (hls : ∀ l ∈ ls, Fits l) {t : Nat}
    (ht : 0 < t ∧ t < 256) {xs ys : List UInt8}
    (h : encodeName (dotted (ls.map fromUtf8Lossy)) ++ (toBe16 t ++ xs) =
      wire ls ++ (toBe16 t ++ ys)) :
    encodeName (dotted (ls.map fromUtf8Lossy)) = wire ls := by
  rw [encodeName_eq] at h ⊢
  have hshort : ∀ l ∈ ((trimDots (dotted (ls.map fromUtf8Lossy))).splitOn '.').map cut,
      l.length < 256 := by
    intro l hl
    obtain ⟨t, -, rfl⟩ := List.mem_map.mp hl
    rw [length_cut]
    omega
  rcases labels_of_front hshort hls h with hsame | ⟨rest, hmore⟩
  · rw [hsame]
  · exfalso
    have hdot : ∀ l ∈ ls, 0x2e ∉ l := by
      intro l hl
      apply @dot_not_mem_of_cut (dotted (ls.map fromUtf8Lossy))
      rw [hmore]
      exact List.mem_append_left _ hl
    by_cases hnil : ls = []
    · -- the root is written with an empty label, and then the type is not where it was
      subst hnil
      have hbytes : wire (((trimDots (dotted [])).splitOn '.').map cut) = [0, 0] := by decide
      rw [List.map_nil, hbytes] at h
      simp only [toBe16, wire, List.flatMap_nil, List.nil_append, List.cons_append,
        List.cons.injEq, true_and] at h
      have hbyte : (UInt8.ofNat t).toNat = t := toNat_ofNat_byte ht.2
      obtain ⟨-, htype, -⟩ := h
      have hhigh : t / 256 = 0 := Nat.div_eq_of_lt ht.2
      rw [hhigh] at htype
      rw [← htype] at hbyte
      have hzero : (UInt8.ofNat 0).toNat = 0 := rfl
      omega
    · -- without dots there are as many labels as before
      have hlen := congrArg List.length hmore
      rw [splitOn_dotted hnil (fun l hl => (hls l hl).1) hdot] at hlen
      simp at hlen

/-- Questions for names that were announced ask for their labels, each for its own. -/
private theorem questions_eq_iff {qs : List (Text × Nat)} {labels : Text × Nat → List (List UInt8)}
    (hqs : ∀ q ∈ qs, Announced q.1 (labels q) ∧ 0 < q.2 ∧ q.2 < 256) :
    (qs.flatMap fun q => encodeName q.1 ++ toBe16 q.2 ++ toBe16 1) =
        (qs.flatMap fun q => wire (labels q) ++ toBe16 q.2 ++ toBe16 1) ↔
      ∀ q ∈ qs, encodeName q.1 = wire (labels q) := by
  induction qs with
  | nil => simp
  | cons q qs ih =>
    obtain ⟨hfirst, hqs⟩ := List.forall_mem_cons.mp hqs
    obtain ⟨hannounced, htype⟩ := hfirst
    obtain ⟨hname, hfits⟩ := hannounced.dotted
    rw [List.flatMap_cons, List.flatMap_cons, List.forall_mem_cons]
    constructor
    · intro h
      have hhead : encodeName q.1 = wire (labels q) := by
        simp only [List.append_assoc] at h
        rw [hname] at h ⊢
        exact encodeName_of_front hfits htype h
      rw [hhead] at h
      exact ⟨hhead, (ih hqs).mp (List.append_cancel_left h)⟩
    · rintro ⟨hhead, htail⟩
      rw [hhead, (ih hqs).mpr htail]

private theorem type_of_lacking {b : Browser} {inst : Instance} {q : Text × Nat}
    (h : q ∈ b.lacking inst) : 0 < q.2 ∧ q.2 < 256 := by
  have hsome : q.2 = 33 ∨ q.2 = 16 ∨ q.2 = 28 := by
    unfold Browser.lacking at h
    rcases List.mem_append.mp h with h | h
    · rcases List.mem_append.mp h with h | h
      · split_ifs at h
        · exact .inl (congrArg Prod.snd (List.mem_singleton.mp h))
        · cases h
      · split_ifs at h
        · exact .inr (.inl (congrArg Prod.snd (List.mem_singleton.mp h)))
        · cases h
    · split at h
      · split_ifs at h
        · exact .inr (.inr (congrArg Prod.snd (List.mem_singleton.mp h)))
        · cases h
      · cases h
  omega

/-- **What a follow-up query asks for.**  It asks for every name as it was announced if and only if
    each of them is one that comes back. -/
theorem query_lacking_iff {b : Browser} {inst : Instance}
    {labels : Text × Nat → List (List UInt8)}
    (hlabels : ∀ q ∈ b.lacking inst, Announced q.1 (labels q)) :
    query (b.lacking inst) = wireQuery ((b.lacking inst).map fun q => (labels q, q.2)) ↔
      ∀ q ∈ b.lacking inst, labels q ≠ [] ∧ ∀ l ∈ labels q, Asked l := by
  unfold query wireQuery
  rw [List.flatMap_map, List.length_map, List.append_cancel_left_eq]
  refine (questions_eq_iff fun q hq => ⟨hlabels q hq, type_of_lacking hq⟩).trans ?_
  refine forall₂_congr fun q hq => ?_
  obtain ⟨hname, hfits⟩ := (hlabels q hq).dotted
  rw [hname]
  exact encodeName_dotted_iff hfits

/-- **Which names are asked for as they were announced.**  The browser has read a name from a
    packet.  It writes the name as its labels are written without pointers, and asks for them in
    its follow-up query for an instance of that name, if and only if it has a label, no label holds
    a dot, and every label is UTF-8, or has 63 bytes that end in the first one or two of the
    replacement character's.  So it is with everything else that it asks for of an instance: the
    whole query is for the names as they were announced if and only if each is of that kind. -/
theorem encodeName_readName_iff {msg : List UInt8} {off hops next : Nat} {name : Text}
    {ls : List (List UInt8)} (h : readName msg off = some (name, next))
    (hwalk : WalkAt 64 msg off ls hops next) :
    (encodeName name = wire ls ↔ ls ≠ [] ∧ ∀ l ∈ ls, Asked l) ∧
      (∀ (b : Browser) (inst : Instance), inst.display = name → inst.srv = none →
        (query (b.lacking inst) = wireQuery ((b.lacking inst).map fun q => (ls, q.2)) ↔
          ls ≠ [] ∧ ∀ l ∈ ls, Asked l)) ∧
      ∀ (b : Browser) (inst : Instance) (labels : Text × Nat → List (List UInt8)),
        (∀ q ∈ b.lacking inst, Announced q.1 (labels q)) →
          (query (b.lacking inst) = wireQuery ((b.lacking inst).map fun q => (labels q, q.2)) ↔
            ∀ q ∈ b.lacking inst, labels q ≠ [] ∧ ∀ l ∈ labels q, Asked l) := by
  have hannounced : Announced name ls := ⟨msg, off, hops, next, h, hwalk⟩
  obtain ⟨hname, hfits⟩ := hannounced.dotted
  refine ⟨hname ▸ encodeName_dotted_iff hfits, fun b inst hdisplay hsrv => ?_,
    fun b inst labels hlabels => query_lacking_iff hlabels⟩
  -- all that is asked of such an instance is asked of its own name
  have hall : ∀ q ∈ b.lacking inst, q.1 = name := by
    intro q hq
    rw [lacking_of_srv_none b hsrv, hdisplay] at hq
    rcases List.mem_cons.mp hq with rfl | hq
    · rfl
    · split_ifs at hq
      · rw [List.mem_singleton.mp hq]
      · cases hq
  refine (@query_lacking_iff b inst (fun _ => ls) fun q hq => hall q hq ▸ hannounced).trans ?_
  have hfirst : (name, 33) ∈ b.lacking inst := by
    rw [lacking_of_srv_none b hsrv, hdisplay]
    exact List.mem_cons_self
  exact ⟨fun hasked => hasked _ hfirst, fun hasked _ _ => hasked⟩

/-- A name of two labels, the second behind a pointer. -/
theorem encodeName_readName_pointer :
    readName [1, 98, 0, 1, 97, 0xc0, 0] 3 = some ("a.b".toList, 7) ∧
      encodeName "a.b" = wire [[97], [98]] := by
  have hroot : WalkAt 64 [1, 98, 0, 1, 97, 0xc0, 0] 0 [[98]] 0 3 :=
    .label (by decide) (by decide) (by unfold At; decide) (.root (by unfold At; decide))
  have hwalk : WalkAt 64 [1, 98, 0, 1, 97, 0xc0, 0] 3 [[97], [98]] 1 7 :=
    .label (by decide) (by decide) (by unfold At; decide)
      (@WalkAt.pointer 64 _ 5 0 _ _ _ (by decide) (by unfold At; decide) hroot)
  have hread := readName_of_nameAt (walkAt_iff.mp hwalk) (by decide) (by decide)
  have hname : dotted ([[97], [98]].map fromUtf8Lossy) = "a.b".toList := by
    simp [dotted, fromUtf8Lossy, decodeUtf8]
  rw [hname] at hread
  refine ⟨hread, (encodeName_readName_iff hread hwalk).1.mpr ⟨by decide, fun l hl => ?_⟩⟩
  simp only [List.mem_cons, List.not_mem_nil, or_false] at hl
  rcases hl with rfl | rfl
  · exact ⟨by decide, ['a'], .inl rfl⟩
  · exact ⟨by decide, ['b'], .inl rfl⟩

/-- A label with a dot is read, and two are asked for. -/
theorem dotted_label_divided :
    readName [3, 97, 46, 98, 0] 0 = some (['a', '.', 'b'], 5) ∧
      WalkAt 64 [3, 97, 46, 98, 0] 0 [[97, 46, 98]] 0 5 ∧
      encodeName ['a', '.', 'b'] = [1, 97, 1, 98, 0] ∧
      encodeName ['a', '.', 'b'] ≠ wire [[97, 46, 98]] := by
  have hfits : ∀ l ∈ [[97, 46, 98]], Fits l := by simp [Fits]
  have hat : At [3, 97, 46, 98, 0] 0 (wire [[97, 46, 98]]) := List.prefix_rfl
  have hwalk := walkAt_iff.mpr (nameAt_wire hfits hat)
  have hread := readName_of_nameAt (walkAt_iff.mp hwalk) (by decide) (by decide)
  have hname : dotted ([[97, 46, 98]].map fromUtf8Lossy) = ['a', '.', 'b'] := by
    simp [dotted, fromUtf8Lossy, decodeUtf8]
  rw [hname] at hread
  have hbytes : encodeName ['a', '.', 'b'] = [1, 97, 1, 98, 0] := by decide
  exact ⟨hread, hwalk, hbytes, by rw [hbytes]; decide⟩

end Omdrop.Mdns
