import Omdrop.Identity.Generation

namespace Omdrop.Identity

open Omdrop.Text

/-!
# An import deletes what 1Password has

The steps that an import has made are its past.  `import_deletes` says what the past of a step
that deletes a file holds: the files were read, `op` was run for every file of an item of 1Password
and what it printed is what was read, and the item was committed to, or was already.
-/

/-! ### The past of an import -/

/-- What an import has read of the files, each in a step of its past. -/
def ReadIn (past : List Moved) (i : Import) : Prop :=
  ∀ j data, i.present[j]? = some data → ∃ m ∈ past, ∃ f, files[j]? = some f ∧
    m.source = .importPresent { i with present := i.present.take j } ∧ data = m.before.files f

/-- Every file is still what was read of it, or gone. -/
def Still (w : World) (present : List (Option (List UInt8))) : Prop :=
  ∀ (j : Nat) f data, files[j]? = some f → present[j]? = some data → w.files f = data ∨ w.files f = none

/-- Whatever there was of a file is what is stored. -/
def Identical (present : List (Option (List UInt8))) (stored : List (List UInt8)) : Prop :=
  ∀ j < files.length, ∃ data, present[j]? = some data ∧ ∀ d, data = some d → stored[j]? = some d

/-- What `op` printed of an item: of every file that is stored, a step of the past ran `op` to read
    that file of that item, and it printed this. -/
def ReadBackIn (past : List Moved) (ref : ItemRef) (stored : List (List UInt8)) : Prop :=
  ∀ (j : Nat) f raw, files[j]? = some f → stored[j]? = some raw →
    ∃ m ∈ past, Event.op (OpCall.read ref f).args (.ok raw) ∈ m.events

/-- A step of the past found the files identical to what an item stores. -/
def ComparedIn (past : List Moved) (i : Import) (ref : ItemRef) (stored : List (List UInt8)) :
    Prop :=
  Identical i.present stored ∧ ∃ m ∈ past, m.target ≠ .done ∧
    ((∃ configured, m.source = .rerunCompare i configured ref stored) ∨
      m.source = .createdCompare i ref stored)

/-- The mode was 1password when a step of the past looked at the settings. -/
def ConfiguredIn (past : List Moved) (i : Import) : Prop :=
  ∃ m ∈ past, m.source = .importSettings i ∧
    modeOf (fieldsOf m.before.settings) = "1password".toList

/-- A step of the past committed to an item. -/
def AdoptedIn (past : List Moved) (ref : ItemRef) : Prop :=
  ∃ m ∈ past, ∃ g lingers, m.source.adopting = some (g, ref, m.target) ∧
    m.after = m.before.adopted lingers ref

/-- What an import that is past its reading knows. -/
def KnownIn (w : World) (past : List Moved) (i : Import) : Prop :=
  ReadIn past i ∧ Still w i.present ∧ files.length ≤ i.present.length

/-- What allows an import to delete files. -/
def MayDelete (w : World) (past : List Moved) (present : List (Option (List UInt8)))
    (stored : List (List UInt8)) : Prop :=
  ∃ i ref, i.present = present ∧ KnownIn w past i ∧ ReadBackIn past ref stored ∧
    ComparedIn past i ref stored ∧ (ConfiguredIn past i ∨ AdoptedIn past ref)

/-- What the past of a command holds, by how far it has come. -/
def Traced (w : World) (past : List Moved) : Proc → Prop
  | .importPresent i           => ReadIn past i ∧ Still w i.present
  | .importSettings i          => KnownIn w past i
  | .rerunItem i c             => KnownIn w past i ∧ (c = true → ConfiguredIn past i)
  | .rerunFiles i c ref s      =>
    KnownIn w past i ∧ (c = true → ConfiguredIn past i) ∧ ReadBackIn past ref s
  | .rerunCompare i c ref s    =>
    KnownIn w past i ∧ (c = true → ConfiguredIn past i) ∧ ReadBackIn past ref s ∧
      files.length ≤ s.length
  | .rerunAdopt i ref s        => KnownIn w past i ∧ ReadBackIn past ref s ∧ ComparedIn past i ref s
  | .createItem i              => KnownIn w past i
  | .createAccount i _ _       => KnownIn w past i
  | .saveItemIds i _           => KnownIn w past i
  | .createdFiles i ref s      => KnownIn w past i ∧ ReadBackIn past ref s
  | .createdCompare i ref s    => KnownIn w past i ∧ ReadBackIn past ref s
  | .createdAdopt i ref s      => KnownIn w past i ∧ ReadBackIn past ref s ∧ ComparedIn past i ref s
  | .delete present s left     => MayDelete w past present s ∧ left ⊆ files
  | _                          => True

variable {w w' : World} {past past' : List Moved} {p p' : Proc}

/-- Files that are still as they were are so with fewer of them. -/
theorem Still.mono {present : List (Option (List UInt8))} (h : Still w present)
    (hfewer : Fewer w.files w'.files) : Still w' present := by
  intro j f data hf hdata
  rcases hfewer f (List.mem_of_getElem? hf) with hsame | hgone
  · rw [hsame]
    exact h j f data hf hdata
  · exact .inr hgone

/-- What was read was read, whatever happens later. -/
theorem ReadIn.mono {i : Import} (h : ReadIn past i) (hpast : past ⊆ past') : ReadIn past' i := by
  intro j data hdata
  obtain ⟨m, hm, hread⟩ := h j data hdata
  exact ⟨m, hpast hm, hread⟩

/-- What an import knows stays known. -/
theorem KnownIn.mono {i : Import} (h : KnownIn w past i) (hfewer : Fewer w.files w'.files)
    (hpast : past ⊆ past') : KnownIn w' past' i :=
  ⟨h.1.mono hpast, h.2.1.mono hfewer, h.2.2⟩

/-- What was read back was, whatever happens later. -/
theorem ReadBackIn.mono {ref : ItemRef} {s : List (List UInt8)} (h : ReadBackIn past ref s)
    (hpast : past ⊆ past') : ReadBackIn past' ref s := by
  intro j f raw hf hraw
  obtain ⟨m, hm, hop⟩ := h j f raw hf hraw
  exact ⟨m, hpast hm, hop⟩

/-- Nothing is stored yet. -/
theorem readBackIn_nil (ref : ItemRef) : ReadBackIn past ref [] := by
  intro j f raw hf hraw
  simp at hraw

/-- The next file is read back in a step of the past. -/
theorem ReadBackIn.concat {ref : ItemRef} {s : List (List UInt8)} {raw : List UInt8}
    (h : ReadBackIn past ref s) {m : Moved} (hm : m ∈ past)
    (hop : Event.op (nextCall ref s).args (.ok raw) ∈ m.events) :
    ReadBackIn past ref (s ++ [raw]) := by
  intro j f raw' hf hraw
  by_cases hj : j < s.length
  · rw [List.getElem?_append_left hj] at hraw
    exact h j f raw' hf hraw
  · obtain ⟨rfl, rfl⟩ : j = s.length ∧ raw = raw' := by
      rw [List.getElem?_append_right (by omega), List.getElem?_singleton] at hraw
      split at hraw
      · exact ⟨by omega, Option.some.inj hraw⟩
      · cases hraw
    have hcall : nextCall ref s = .read ref f := by simp [nextCall, hf]
    exact ⟨m, hm, hcall ▸ hop⟩

/-- What was compared was, whatever happens later. -/
theorem ComparedIn.mono {i : Import} {ref : ItemRef} {s : List (List UInt8)}
    (h : ComparedIn past i ref s) (hpast : past ⊆ past') : ComparedIn past' i ref s := by
  obtain ⟨hsame, m, hm, hcompared⟩ := h
  exact ⟨hsame, m, hpast hm, hcompared⟩

/-- What was configured was, whatever happens later. -/
theorem ConfiguredIn.mono {i : Import} (h : ConfiguredIn past i) (hpast : past ⊆ past') :
    ConfiguredIn past' i := by
  obtain ⟨m, hm, hmode⟩ := h
  exact ⟨m, hpast hm, hmode⟩

/-- What was adopted was, whatever happens later. -/
theorem AdoptedIn.mono {ref : ItemRef} (h : AdoptedIn past ref) (hpast : past ⊆ past') :
    AdoptedIn past' ref := by
  obtain ⟨m, hm, hadopted⟩ := h
  exact ⟨m, hpast hm, hadopted⟩

/-- Who may delete may do so later, too. -/
theorem MayDelete.mono {present : List (Option (List UInt8))} {s : List (List UInt8)}
    (h : MayDelete w past present s) (hfewer : Fewer w.files w'.files) (hpast : past ⊆ past') :
    MayDelete w' past' present s := by
  obtain ⟨i, ref, hi, hknown, hback, hcompared, hcommitted⟩ := h
  refine ⟨i, ref, hi, hknown.mono hfewer hpast, hback.mono hpast, hcompared.mono hpast, ?_⟩
  rcases hcommitted with hmode | hadopted
  · exact .inl (hmode.mono hpast)
  · exact .inr (hadopted.mono hpast)

/-- What is in the past stays there, and files only go. -/
theorem Traced.mono (h : Traced w past p) (hfewer : Fewer w.files w'.files)
    (hpast : past ⊆ past') : Traced w' past' p := by
  cases p with
  | importPresent i => exact ⟨h.1.mono hpast, h.2.mono hfewer⟩
  | rerunItem i c => exact ⟨h.1.mono hfewer hpast, fun hc => (h.2 hc).mono hpast⟩
  | rerunFiles i c ref s =>
    exact ⟨h.1.mono hfewer hpast, fun hc => (h.2.1 hc).mono hpast, h.2.2.mono hpast⟩
  | rerunCompare i c ref s =>
    obtain ⟨hknown, hmode, hback, hlen⟩ := h
    exact ⟨hknown.mono hfewer hpast, fun hc => (hmode hc).mono hpast, hback.mono hpast, hlen⟩
  | rerunAdopt i ref s => exact ⟨h.1.mono hfewer hpast, h.2.1.mono hpast, h.2.2.mono hpast⟩
  | createdFiles i ref s => exact ⟨h.1.mono hfewer hpast, h.2.mono hpast⟩
  | createdCompare i ref s => exact ⟨h.1.mono hfewer hpast, h.2.mono hpast⟩
  | createdAdopt i ref s => exact ⟨h.1.mono hfewer hpast, h.2.1.mono hpast, h.2.2.mono hpast⟩
  | delete present s left => exact ⟨h.1.mono hfewer hpast, h.2⟩
  | importSettings i => exact KnownIn.mono h hfewer hpast
  | createItem i => exact KnownIn.mono h hfewer hpast
  | createAccount i v item => exact KnownIn.mono h hfewer hpast
  | saveItemIds i ref => exact KnownIn.mono h hfewer hpast
  | _ => trivial

/-! ### What was compared -/

/-- Where no file differs, all are identical. -/
theorem identical_of_differing {present : List (Option (List UInt8))}
    {stored : List (List UInt8)} (hpresent : files.length ≤ present.length)
    (hstored : files.length ≤ stored.length) (h : differing present stored = none) :
    Identical present stored := by
  intro j hj
  have hpj : j < present.length := by omega
  have hsj : j < stored.length := by omega
  refine ⟨present[j], List.getElem?_eq_getElem hpj, fun d hd => ?_⟩
  have hmem : (files[j], present[j], stored[j]) ∈ files.zip (present.zip stored) := by
    rw [List.mem_iff_getElem]
    exact ⟨j, by simp; omega, by simp⟩
  have hfind := List.find?_eq_none.mp (Option.map_eq_none_iff.mp h) _ hmem
  rw [List.getElem?_eq_getElem hsj]
  by_contra hne
  apply hfind
  simp only [hd, Option.any_some, decide_eq_true_eq]
  exact fun heq => hne (by rw [heq])

/-- The same files are identical. -/
private theorem identical_of_eq {present : List (Option (List UInt8))} {stored : List (List UInt8)}
    (hpresent : files.length ≤ present.length) (h : present = stored.map some) :
    Identical present stored := by
  subst h
  intro j hj
  have hsj : j < stored.length := by simpa using lt_of_lt_of_le hj hpresent
  refine ⟨some stored[j], by simp [hsj], fun d hd => ?_⟩
  cases hd
  exact List.getElem?_eq_getElem hsj

/-- A file that is deleted is stored. -/
theorem MayDelete.stored {present : List (Option (List UInt8))} {s : List (List UInt8)}
    (h : MayDelete w past present s) {f : KeyFile} (hf : f ∈ files) {data : List UInt8}
    (hdata : w.files f = some data) : ∃ j : Nat, files[j]? = some f ∧ s[j]? = some data := by
  obtain ⟨i, ref, rfl, ⟨-, hstill, -⟩, -, ⟨hsame, -⟩, -⟩ := h
  obtain ⟨j, hj, hfj⟩ := List.mem_iff_getElem.mp hf
  have hfj : files[j]? = some f := List.getElem?_eq_some_iff.mpr ⟨hj, hfj⟩
  obtain ⟨read, hread, hstored⟩ := hsame j hj
  refine ⟨j, hfj, hstored data ?_⟩
  rcases hstill j f read hfj hread with heq | hgone
  · rw [← heq, hdata]
  · rw [hdata] at hgone
    cases hgone

/-! ### One step of an import -/

section Runs

variable [SerdeJson] {env : Env}

/-- The Apple files only go. -/
theorem Next.fewer (h : Next env w p p' w') : Fewer w.files w'.files := by
  have hchosen : ∀ {lines w₁}, Chosen w lines w₁ → w₁.files = w.files := by
    intro lines w₁ h
    cases h <;> rfl
  cases h with
  | early hp hp' hfs => exact hfs
  | deleted => exact (Fewer.refl _).remove _
  | window hw =>
    cases hw with
    | kept => exact .refl _
    | opened hseq hnew h => exact fun f _ => .inl (congrFun (hchosen h) f)
    | unrecorded hnew h hfail => exact fun f _ => .inl (congrFun (hchosen h) f)
  | stopEnd hs => cases hs <;> exact fun f _ => .inl (by simp [World.closed])
  | locked hopen => exact fun f _ => .inl (by simp)
  | turnedOff hopen hoff => cases hoff <;> exact fun f _ => .inl (by simp)
  | adopted hp hcurrent => exact fun f _ => .inl (by simp [World.adopted])
  | adoptFailed hp hcurrent hfailed =>
    cases hfailed <;> exact fun f _ => .inl (by simp [World.adopted])
  | _ => exact .refl _

/-- **One step.**  What the past holds, it holds with the step itself. -/
theorem Next.traced (h : Next env w p p' w') (hp : Traced w past p) {m : Moved}
    (hsource : m.source = p) (htarget : m.target = p') (hbefore : m.before = w)
    (hafter : m.after = w')
    (hkept : ∀ ref s, p.reading = some (ref, s) →
      Event.op (nextCall ref s).args (env.op (nextCall ref s).args) ∈ m.events) :
    Traced w' (past ++ [m]) p' := by
  have hpast : past ⊆ past ++ [m] := List.subset_append_left _ _
  have hlast : m ∈ past ++ [m] := by simp
  have hfewer := h.fewer
  -- what was known before the step is known after it
  have hp' := hp.mono hfewer hpast
  cases h with
  -- processes of other commands are not traced
  | early hearly hearly' => cases p' <;> trivial
  | fetching hfetch hfetch' => cases p' <;> trivial
  | useKept huse huse' => cases p' <;> trivial
  -- the step itself is the adoption
  | adopted hadopt hcurrent =>
    have hcommitted : AdoptedIn (past ++ [m]) _ :=
      ⟨m, hlast, _, _, by rw [hsource, htarget]; exact hadopt, by rw [hafter, hbefore]⟩
    cases p with
    | useAdopt g ref =>
      cases hadopt
      trivial
    | rerunAdopt i ref s =>
      cases hadopt
      exact ⟨⟨_, _, rfl, hp'.1, hp'.2.1, hp'.2.2, .inr hcommitted⟩, by decide⟩
    | createdAdopt i ref s =>
      cases hadopt
      exact ⟨⟨_, _, rfl, hp'.1, hp'.2.1, hp'.2.2, .inr hcommitted⟩, by decide⟩
    | _ => cases hadopt
  | importStart args =>
    refine ⟨fun j data hdata => ?_, fun j f data _ hdata => ?_⟩
    · simp at hdata
    · simp at hdata
  | @importPresent i f hf =>
    refine ⟨fun j data hdata => ?_, fun j g data hg hdata => ?_⟩
    · by_cases hj : j < i.present.length
      · -- a file that was read before
        rw [List.getElem?_append_left hj] at hdata
        obtain ⟨m', hm', g, hg, hread, heq⟩ := hp'.1 j data hdata
        refine ⟨m', hm', g, hg, ?_, heq⟩
        rw [hread, List.take_append_of_le_length (by omega)]
      · have hj : j = i.present.length := by
          have := (List.getElem?_eq_some_iff.mp hdata).1
          simp only [List.length_append, List.length_singleton] at this
          omega
        subst hj
        refine ⟨m, hlast, f, hf, ?_, ?_⟩
        · rw [hsource, List.take_left]
        · rw [hbefore]
          simpa using hdata.symm
    · by_cases hj : j < i.present.length
      · rw [List.getElem?_append_left hj] at hdata
        exact hp'.2 j g data hg hdata
      · have hj : j = i.present.length := by
          have := (List.getElem?_eq_some_iff.mp hdata).1
          simp only [List.length_append, List.length_singleton] at this
          omega
        subst hj
        obtain rfl : f = g := Option.some.inj (hf.symm.trans hg)
        left
        simpa using hdata
  | importRead hlen => exact ⟨hp'.1, hp'.2, hlen⟩
  | rerun i configured hmode =>
    refine ⟨hp', fun hc => ⟨m, hlast, hsource, ?_⟩⟩
    rw [hbefore]
    exact hmode.mp hc
  | createItem hunnamed => exact hp'
  | rerunItem i c hnamed => exact ⟨hp'.1, hp'.2, readBackIn_nil _⟩
  -- what `op` printed in this step is the file that is added
  | rerunFiles hop => exact ⟨hp'.1, hp'.2.1, hp'.2.2.concat hlast (hop ▸ hkept _ _ rfl)⟩
  | rerunRead hop hlen =>
    refine ⟨hp'.1, hp'.2.1, hp'.2.2.concat hlast (hop ▸ hkept _ _ rfl), ?_⟩
    simpa using hlen
  -- nothing is written where the settings name this item already
  | rerunSame hsame =>
    obtain ⟨hknown, hmode, hback, hlen⟩ := hp'
    have hidentical := identical_of_differing hknown.2.2 hlen hsame
    have hcompared : ComparedIn (past ++ [m]) _ _ _ :=
      ⟨hidentical, m, hlast, by rw [htarget]; nofun, .inl ⟨_, hsource⟩⟩
    exact ⟨⟨_, _, rfl, hknown, hback, hcompared, .inl (hmode rfl)⟩, by decide⟩
  | rerunUsable hsame =>
    obtain ⟨hknown, hmode, hback, hlen⟩ := hp'
    have hidentical := identical_of_differing hknown.2.2 hlen hsame
    exact ⟨hknown, hback, hidentical, m, hlast, by rw [htarget]; nofun, .inl ⟨_, hsource⟩⟩
  | created hv hitem hvault => exact hp'
  | createAccount hv => exact hp'
  | saved hcurrent => exact ⟨hp', readBackIn_nil _⟩
  | createdFiles hop => exact ⟨hp'.1, hp'.2.concat hlast (hop ▸ hkept _ _ rfl)⟩
  | createdRead hop => exact ⟨hp'.1, hp'.2.concat hlast (hop ▸ hkept _ _ rfl)⟩
  -- the files were compared with those that were read back
  | createdSame hsame =>
    have hidentical := identical_of_eq hp'.1.2.2 hsame
    exact ⟨hp'.1, hp'.2, hidentical, m, hlast, by rw [htarget]; nofun, .inr hsource⟩
  -- one file less is left to delete
  | deleted =>
    refine ⟨hp'.1, fun g hg => hp.2 (List.mem_cons_of_mem _ hg)⟩
  | _ => trivial

/-- The parts of an import. -/
def Proc.ofImport : Proc → Bool
  | .importStart _ | .importPresent _ | .importSettings _ | .rerunItem .. | .rerunFiles ..
  | .rerunCompare .. | .rerunAdopt .. | .createItem _ | .createAccount .. | .saveItemIds ..
  | .createdFiles .. | .createdCompare .. | .createdAdopt .. | .delete .. => true
  | _ => false

/-- A process that is an import, by where it started. -/
def IsImport (p : Proc) (past : List Moved) : Prop :=
  ∃ args, (past.head?.map Moved.source).getD p = .importStart args

omit [SerdeJson] in
/-- A part of an import is no part of another command. -/
theorem Proc.only_import (hp : p.ofImport = true) :
    p.isEarly = false ∧ p.fetching = none ∧ p.use = none := by
  cases p <;> first | exact ⟨rfl, rfl, rfl⟩ | cases hp

/-- An import goes on as one, or it is done. -/
theorem Next.ofImport (h : Next env w p p' w') (hp : p.ofImport = true) :
    p'.ofImport = true ∨ p' = .done := by
  cases h with
  | quit => exact .inr rfl
  | early hearly => simp [(Proc.only_import hp).1] at hearly
  | fetching hfetch => simp [(Proc.only_import hp).2.1] at hfetch
  | fetched hfetch => simp [(Proc.only_import hp).2.1] at hfetch
  | useKept huse => simp [(Proc.only_import hp).2.2] at huse
  | adopted hadopt => cases p <;> cases hadopt <;> first | exact .inl rfl | exact .inr rfl
  | adoptFailed => exact .inr rfl
  | _ => first | exact .inl rfl | cases hp

/-- **What an import deletes.**  A step of an import leaves the files, or deletes one of them. -/
theorem Next.deletes (h : Next env w p p' w') (hp : p.ofImport = true) {f : KeyFile}
    (hbefore : (w.files f).isSome) (hafter : w'.files f = none) :
    ∃ present s left, p = .delete present s (f :: left) := by
  have hsame : w'.files ≠ w.files := by
    intro hsame
    rw [hsame] at hafter
    rw [hafter] at hbefore
    cases hbefore
  cases h with
  | early hearly => simp [(Proc.only_import hp).1] at hearly
  | @deleted present s g left =>
    by_cases hg : f = g
    · subst hg
      exact ⟨_, _, _, rfl⟩
    · have : w.files f = none := by
        rw [← hafter]
        exact (Function.update_of_ne hg _ _).symm
      rw [this] at hbefore
      cases hbefore
  | adopted hadopt => exact absurd (by simp [World.adopted]) hsame
  | adoptFailed hadopt hcurrent hfailed =>
    refine absurd ?_ hsame
    cases hfailed <;> simp [World.adopted]
  | window hw => cases hp
  | stopEnd hs => cases hp
  | turnedOff hopen hoff => cases hp
  | locked hopen => cases hp
  | _ => exact absurd rfl hsame

/-! ### Runs -/

/-- A step that took a file away, with what came before it: it deletes that file, and may. -/
def Deleted (before : List Moved) (m : Moved) (f : KeyFile) : Prop :=
  ∃ present s left, m.source = .delete present s (f :: left) ∧ f ∈ files ∧
    MayDelete m.before before present s

/-- What is known of a command and its past. -/
structure Keeps (w : World) (p : Proc) (past : List Moved) : Prop where
  traced : Traced w past p
  kind : IsImport p past → p.ofImport = true ∨ p = .done
  deleted : IsImport p past → ∀ before m after f, past = before ++ m :: after →
    (m.before.files f).isSome → m.after.files f = none → Deleted before m f

omit [SerdeJson] in
/-- What a process keeps it keeps while others go on. -/
theorem Keeps.mono (h : Keeps w p past) (hfewer : Fewer w.files w'.files) : Keeps w' p past :=
  ⟨h.traced.mono hfewer (List.Subset.refl _), h.kind, h.deleted⟩

omit [SerdeJson] in
/-- A process is an import before a step if it is one after it. -/
theorem IsImport.before {m : Moved} (hsource : m.source = p) (h : IsImport p' (past ++ [m])) :
    IsImport p past := by
  cases past with
  | nil => exact ⟨h.choose, hsource.symm.trans h.choose_spec⟩
  | cons m' past => exact h

/-- The step that a command makes is kept with its past. -/
theorem advance_keeps (env : Env) (p : Proc) (w : World) {past : List Moved}
    (h : Keeps w p past) :
    Keeps (advance env p w).2.2 (advance env p w).1 (past ++ (advance env p w).2.1) := by
  obtain ⟨hnext, events, hlog⟩ := advance_next env p w
  rw [hlog]
  have hkept : ∀ ref s, p.reading = some (ref, s) →
      Event.op (nextCall ref s).args (env.op (nextCall ref s).args) ∈ events :=
    fun ref s hreading => advance_tells env w hreading _ (hlog ▸ List.mem_cons_self)
  refine ⟨hnext.traced h.traced rfl rfl rfl rfl hkept, fun himport => ?_, ?_⟩
  · rcases h.kind (himport.before rfl) with hp | rfl
    · exact hnext.ofImport hp
    · exact .inr rfl
  · intro himport before m after f hpast hbefore hafter
    have himport := himport.before rfl
    rcases List.eq_nil_or_concat after with rfl | ⟨after', m', rfl⟩
    · -- the step itself
      obtain ⟨rfl, hm⟩ := List.append_inj' hpast rfl
      obtain rfl := List.singleton_inj.mp hm
      rcases h.kind himport with hp | rfl
      · obtain ⟨present, s, left, rfl⟩ := hnext.deletes hp hbefore hafter
        exact ⟨present, s, left, rfl, h.traced.2 List.mem_cons_self, h.traced.1⟩
      · have hsame : (advance env .done w).2.2 = w := rfl
        simp only [hsame] at hbefore hafter
        rw [hafter] at hbefore
        cases hbefore
    · -- an earlier one
      rw [List.concat_eq_append, ← List.cons_append, ← List.append_assoc] at hpast
      exact h.deleted himport before m after' f (List.append_inj' hpast rfl).1 hbefore hafter

/-- What every process keeps is an invariant of the runs. -/
private theorem invariant_keeps :
    lifecycle.Invariant (fun _ _ _ => True) (fun _ => True) Keeps where
  start w c _ := by
    refine ⟨?_, fun himport => ?_, fun _ before m after f hpast => ?_⟩
    · cases c <;> trivial
    · obtain ⟨args, hstart⟩ := himport
      cases c <;> first | exact .inl rfl | cases hstart
    · simp at hpast
  outside _ _ _ := trivial
  outside_other w e p past _ hp := by
    cases e <;> exact hp.mono (.refl _)
  shared _ _ _ _ _ _ _ := trivial
  own w p past env _ _ hp := advance_keeps env p w hp
  other w p past env _ _ _ q past' hq := hq.mono (advance_next env p w).1.fewer

/-- **An import deletes what 1Password has.**  When a step of an import takes a file away, then
    earlier steps of the same import ran `op` for every file of an item of 1Password and kept what
    it printed; one found what it had read of every file identical to that, and either the mode was
    1password when it looked or an earlier step committed to that item; and the bytes that go are
    the ones that `op` printed of that file. -/
theorem import_deletes (b : Boot) (as : List (Pool.Action Cmd Env Outside)) :
    ∀ p past, (p, past) ∈ (b.after as).procs → IsImport p past →
      ∀ before m after f, past = before ++ m :: after → (m.before.files f).isSome →
        m.after.files f = none →
          ∃ i ref stored, ReadIn before i ∧ ReadBackIn before ref stored ∧
            ComparedIn before i ref stored ∧ (ConfiguredIn before i ∨ AdoptedIn before ref) ∧
            ∃ j : Nat, files[j]? = some f ∧ stored[j]? = m.before.files f := by
  intro p past hp himport before m after f hpast hbefore hafter
  have hkeeps : Keeps (b.after as).shared p past := by
    refine (invariant_keeps.run ⟨trivial, fun q past' hq => ?_⟩
      (.of_forall fun _ _ _ => trivial)).2 p past hp
    cases hq
  obtain ⟨present, stored, left, -, hf, hmay⟩ :=
    hkeeps.deleted himport before m after f hpast hbefore hafter
  obtain ⟨data, hdata⟩ := Option.isSome_iff_exists.mp hbefore
  obtain ⟨j, hj, hstored⟩ := hmay.stored hf hdata
  obtain ⟨i, ref, rfl, hknown, hback, hcompared, hcommitted⟩ := hmay
  exact ⟨i, ref, stored, hknown.1, hback, hcompared, hcommitted, j, hj, by rw [hstored, hdata]⟩

end Runs

attribute [local instance] sampleJson

/-- The files are on disk and in 1Password. -/
def sampleFiles : Boot := { sampleBoot with files := fun _ => some [1] }

/-- An import compares them, and deletes the key. -/
def sampleImport : List (Pool.Action Cmd Env Outside) :=
  .start (.importFiles ⟨none, "Omdrop AirDrop identity"⟩) :: List.replicate 12 (.advance 0 sampleEnv)

/-- The key that an import deletes is stored. -/
theorem import_deletes_sample : ∃ p past before m,
    (p, past) ∈ (sampleFiles.after sampleImport).procs ∧ past = before ++ [m] ∧
      m.before.files .key = some [1] ∧ m.after.files .key = none ∧
        ∃ i ref stored, ReadIn before i ∧ ReadBackIn before ref stored ∧
          ComparedIn before i ref stored ∧ (ConfiguredIn before i ∨ AdoptedIn before ref) ∧
          ∃ j : Nat, files[j]? = some .key ∧ stored[j]? = m.before.files .key := by
  have h : (sampleFiles.after sampleImport).procs.map (fun pp => (pp.2.head?.map Moved.source,
      pp.2.getLast?.map fun m => (m.before.files .key, m.after.files .key))) =
        [(some (.importStart ⟨none, "Omdrop AirDrop identity"⟩), some (some [1], none))] := by
    decide +kernel
  obtain ⟨⟨p, past⟩, hprocs, hpast⟩ := List.map_eq_singleton_iff.mp h
  simp only [Prod.mk.injEq, Option.map_eq_some_iff] at hpast
  obtain ⟨⟨first, hfirst, hstart⟩, m, hm, hbefore, hafter⟩ := hpast
  have hmem : (p, past) ∈ (sampleFiles.after sampleImport).procs := by
    rw [hprocs]
    exact List.mem_cons_self
  have hsplit : past = past.dropLast ++ [m] := (List.dropLast_append_getLast? m hm).symm
  have himport : IsImport p past := by
    rw [IsImport, hfirst]
    exact ⟨_, hstart⟩
  exact ⟨p, past, past.dropLast, m, hmem, hsplit, hbefore, hafter,
    import_deletes sampleFiles sampleImport p past hmem himport past.dropLast m [] .key hsplit
      (by rw [hbefore]; rfl) hafter⟩

end Omdrop.Identity
