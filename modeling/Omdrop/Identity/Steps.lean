import Omdrop.Identity.Commands
import Omdrop.Identity.Specs

namespace Omdrop.Identity

open Omdrop.Text Fallible

/-!
# What one step of an identity command can do

`Next env w p p' w'` lists the steps from `p` in the world `w`: where the command goes on, what it
leaves of the world, and what it has seen.  `advance_next` says that there are no others; the
invariants of the commands are proved from it alone.
-/

variable [SerdeJson]

/-- The parts of a command that carry nothing from one step to the next. -/
def Proc.isEarly : Proc → Bool
  | .createPair | .migrateLegacy | .unlinkLegacy _ | .beginSeq | .beginMode | .beginCache
  | .beginWindow | .unlockMode | .unlockCache | .fillCache _ | .done => true
  | _ => false

/-- The fetch of a command between reading its item and framing its payload. -/
def Proc.fetching : Proc → Option (Fetch × ItemRef)
  | .fetchFiles f ref _    => some (f, ref)
  | .fetchCheck f ref _    => some (f, ref)
  | .fetchEncode f ref _ _ => some (f, ref)
  | _                      => none

/-- The item that `use` is about to commit to, for which generation. -/
def Proc.use : Proc → Option (Nat × ItemRef)
  | .useFiles g ref _ => some (g, ref)
  | .useAdopt g ref   => some (g, ref)
  | _                 => none

/-- The commit that a command makes next, and where it goes on when it is done. -/
def Proc.adopting : Proc → Option (Nat × ItemRef × Proc)
  | .useAdopt g ref       => some (g, ref, .done)
  | .rerunAdopt i ref s   => some (i.generation, ref, .delete i.present s deleted)
  | .createdAdopt i ref s => some (i.generation, ref, .delete i.present s deleted)
  | _                     => none

/-- A part of a command that reads a file of an item: of which one, after which files. -/
def Proc.reading : Proc → Option (ItemRef × List (List UInt8))
  | .fetchFiles _ ref s   => some (ref, s)
  | .useFiles _ ref s     => some (ref, s)
  | .rerunFiles _ _ ref s => some (ref, s)
  | .createdFiles _ ref s => some (ref, s)
  | _                     => none

/-- What `op` prints for a call is this. -/
def Printed (env : Env) (call : OpCall) (v : Json) : Prop :=
  ∃ raw empty, env.op call.args = .ok raw ∧
    SerdeJson.value (if raw.isEmpty then utf8 empty else raw) = some v

/-- The Apple files are what they were, or gone. -/
def Fewer (before after : KeyFile → Option (List UInt8)) : Prop :=
  ∀ f ∈ files, after f = before f ∨ after f = none

/-- Settings name an item. -/
def Named (s : Settings) : Prop := (refOf s).vault ≠ [] ∧ (refOf s).item ≠ []

/-- The steps of the commands. -/
inductive Next (env : Env) (w : World) : Proc → Proc → World → Prop
  | quit (p : Proc) : Next env w p .done w
  | early {p p' : Proc} {fs : KeyFile → Option (List UInt8)} (hp : p.isEarly = true)
    (hp' : p'.isEarly = true) (hfs : Fewer w.files fs) : Next env w p p' { w with files := fs }
  -- fetching and publishing
  | fillCache (c : Caller) :
    Next env w (.fillCache c) (.fetchItem ⟨c, w.counter gen, w.bumps gen⟩) w
  | fetchItem (f : Fetch) (h : Named (fieldsOf w.settings)) :
    Next env w (.fetchItem f) (.fetchFiles f (refOf (fieldsOf w.settings)) []) w
  | fetching {p p' : Proc} {f : Fetch} {ref : ItemRef} (hp : p.fetching = some (f, ref))
    (hp' : p'.fetching = some (f, ref)) : Next env w p p' w
  | fetched {p : Proc} {f : Fetch} {ref : ItemRef} (hp : p.fetching = some (f, ref))
    (data : List UInt8) : Next env w p (.publish f ⟨data, ref.vault, ref.item, f.asOf⟩) w
  | published {f : Fetch} {payload : Fetched} {p : Payload}
    (h : MayPublish w payload f.generation p) :
    Next env w (.publish f payload) .done (w.withCache payload (p.periodEnds - w.now))
  -- the commands of one step
  | window {i : Option Int} {w' : World} (h : Windowed env i w w') : Next env w (.window i) .done w'
  | stopBegin : Next env w .stopBegin .done (w.bumped seq)
  | stopEnd {w' : World} (h : Stopped env w w') : Next env w .stopEnd .done w'
  | lockFailed (h : w.window = none) : Next env w .lock .done (w.bumped gen)
  | locked (h : w.window = none) : Next env w .lock .done ((w.bumped gen).revoked env.lingers)
  | turnedOff (h : w.window = none) {w' : World} (hoff : TurnedOff env w w') :
    Next env w .onepasswordOff .done w'
  -- committing to an item
  | useStart (args : UseArgs) (h : w.window = none) :
    Next env w (.useStart args) (.useGet args ((w.counter gen + 1) % counterRange))
      (w.bumped gen)
  | useFailed (args : UseArgs) (h : w.window = none) :
    Next env w (.useStart args) .done (w.bumped gen)
  | useGet {args : UseArgs} {g : Nat} {v : Json}
    (hv : Printed env (.get args.item args.vault) v) :
    Next env w (.useGet args g) (.useAccount g (jsonVaultId v) (jsonId v)) w
  | useGiven {args : UseArgs} {a : Text} {g : Nat} {v : Json} (ha : args.account = some a)
    (hv : Printed env (.get args.item args.vault) v) :
    Next env w (.useGet args g) (.useFiles g ⟨a, jsonVaultId v, jsonId v⟩ []) w
  | useAccount {g : Nat} {vault item : Text} {v : Json} (hv : Printed env .accounts v) :
    Next env w (.useAccount g vault item) (.useFiles g ⟨accountOf v, vault, item⟩ []) w
  | useKept {p p' : Proc} {g : Nat} {ref : ItemRef} (hp : p.use = some (g, ref))
    (hp' : p'.use = some (g, ref)) : Next env w p p' w
  | adopted {p p' : Proc} {g : Nat} {ref : ItemRef} (hp : p.adopting = some (g, ref, p'))
    (hcurrent : Current w g) : Next env w p p' (w.adopted env.lingers ref)
  | adoptFailed {p p' : Proc} {g : Nat} {ref : ItemRef} (hp : p.adopting = some (g, ref, p'))
    (hcurrent : Current w g) {w' : World} (h : AdoptFailed env ref w w') :
    Next env w p .done w'
  -- importing
  | importStart (args : ImportArgs) :
    Next env w (.importStart args) (.importPresent ⟨args, w.counter gen, []⟩) w
  | importPresent {i : Import} {f : KeyFile} (hf : files[i.present.length]? = some f) :
    Next env w (.importPresent i)
      (.importPresent { i with present := i.present ++ [w.files f] }) w
  | importRead {i : Import} (h : files.length ≤ i.present.length) :
    Next env w (.importPresent i) (.importSettings i) w
  | rerun (i : Import) (configured : Bool)
    (hc : configured = true ↔ modeOf (fieldsOf w.settings) = "1password".toList) :
    Next env w (.importSettings i) (.rerunItem i configured) w
  | createItem {i : Import} (h : ¬ Named (fieldsOf w.settings)) :
    Next env w (.importSettings i) (.createItem i) w
  | rerunItem (i : Import) (c : Bool) (h : Named (fieldsOf w.settings)) :
    Next env w (.rerunItem i c) (.rerunFiles i c (refOf (fieldsOf w.settings)) []) w
  | rerunFiles {i : Import} {c : Bool} {ref : ItemRef} {s : List (List UInt8)}
    {raw : List UInt8} (hop : env.op (nextCall ref s).args = .ok raw) :
    Next env w (.rerunFiles i c ref s) (.rerunFiles i c ref (s ++ [raw])) w
  | rerunRead {i : Import} {c : Bool} {ref : ItemRef} {s : List (List UInt8)}
    {raw : List UInt8} (hop : env.op (nextCall ref s).args = .ok raw) (h : files.length ≤ s.length + 1) :
    Next env w (.rerunFiles i c ref s) (.rerunCompare i c ref (s ++ [raw])) w
  | rerunSame {i : Import} {ref : ItemRef} {s : List (List UInt8)}
    (h : differing i.present s = none) :
    Next env w (.rerunCompare i true ref s) (.delete i.present s deleted) w
  | rerunUsable {i : Import} {ref : ItemRef} {s : List (List UInt8)}
    (h : differing i.present s = none) :
    Next env w (.rerunCompare i false ref s) (.rerunAdopt i ref s) w
  | created {i : Import} {v : Json}
    (hv : Printed env (.create i.args.title i.args.vault env.keys) v) (hitem : jsonId v ≠ [])
    (hvault : jsonVaultId v ≠ []) :
    Next env w (.createItem i) (.createAccount i (jsonVaultId v) (jsonId v)) w
  | createAccount {i : Import} {vault item : Text} {v : Json}
    (hv : Printed env .accounts v) :
    Next env w (.createAccount i vault item) (.saveItemIds i ⟨accountOf v, vault, item⟩) w
  | saved {i : Import} {ref : ItemRef} (hcurrent : Current w i.generation) :
    Next env w (.saveItemIds i ref) (.createdFiles i ref []) (w.set ref.changes)
  | createdFiles {i : Import} {ref : ItemRef} {s : List (List UInt8)} {raw : List UInt8}
    (hop : env.op (nextCall ref s).args = .ok raw) :
    Next env w (.createdFiles i ref s) (.createdFiles i ref (s ++ [raw])) w
  | createdRead {i : Import} {ref : ItemRef} {s : List (List UInt8)} {raw : List UInt8}
    (hop : env.op (nextCall ref s).args = .ok raw) :
    Next env w (.createdFiles i ref s) (.createdCompare i ref (s ++ [raw])) w
  | createdSame {i : Import} {ref : ItemRef} {s : List (List UInt8)}
    (h : i.present = s.map some) :
    Next env w (.createdCompare i ref s) (.createdAdopt i ref s) w
  | deleted {present : List (Option (List UInt8))} {s : List (List UInt8)} {f : KeyFile}
    {left : List KeyFile} :
    Next env w (.delete present s (f :: left)) (.delete present s left)
      { w with files := Function.update w.files f none }

/-! ### The steps are these -/

variable {env : Env} {w : World} {n : Nat} {es : List Event}

/-- A step comes to what `N` allows; one that fails ends the command. -/
def Comes (N : Proc → World → Prop) (r : Except Fail Proc × Sys) : Prop :=
  After (fun p s => N p s.world) (fun _ s => N .done s.world) r

section Endings

variable {N : Proc → World → Prop}

omit [SerdeJson]

/-- An exit ends the command. -/
theorem exit_spec {code : Int} {Q : Proc → Sys → Prop} {E : Fail → Sys → Prop}
    (h : Q .done ⟨w, n, es ++ [.exit code]⟩) : After Q E (exit code ⟨w, n, es⟩) :=
  .bind (emit_spec h)

/-- What comes of an exit is the end of the process. -/
theorem exit_comes {code : Int} (h : N .done w) : Comes N (exit code ⟨w, n, es⟩) := exit_spec h

/-- What comes of a refusal is the end of the process. -/
theorem refuse_comes {text : Text} {code : Int} (h : N .done w) :
    Comes N (refuse text code ⟨w, n, es⟩) :=
  .bind (emit_spec (exit_comes h))

/-- However a fetch ended, the command around it ends. -/
theorem filled_spec {c : Caller} {o : Outcome} {why : Option Fail} {Q : Proc → Sys → Prop}
    {E : Fail → Sys → Prop} (h : ∀ n es, Q .done ⟨w, n, es⟩) :
    After Q E (filled c o why ⟨w, n, es⟩) := by
  unfold filled
  split
  · exact .bind (emit_spec (exit_spec (h _ _)))
  · exact exit_spec (h _ _)
  all_goals exact .bind (emit_spec (exit_spec (h _ _)))

/-- What comes of a filled cache is the end of the process. -/
theorem filled_comes {c : Caller} {o : Outcome} {why : Option Fail} (h : N .done w) :
    Comes N (filled c o why ⟨w, n, es⟩) := filled_spec fun _ _ => h

/-- A part of a command that looks at its own failures to end with them. -/
theorem fetching_comes {c : Caller} {x : R Proc} (h : Comes N (x ⟨w, n, es⟩)) :
    Comes N (fetching c x ⟨w, n, es⟩) := by
  refine .bind (.attempt (After.imp h (fun _ _ h => h) fun e s hs => ?_))
  obtain ⟨w', n', es'⟩ := s
  cases e with
  | fetch e => exact filled_comes hs
  | _ => exact hs

/-- A failure while an item is looked at is an exit. -/
theorem using1Password_comes {x : R Proc} (h : Comes N (x ⟨w, n, es⟩)) :
    Comes N (using1Password x ⟨w, n, es⟩) := by
  refine .bind (.attempt (After.imp h (fun _ _ h => h) fun e s hs => ?_))
  obtain ⟨w', n', es'⟩ := s
  cases e with
  | fetch e => exact refuse_comes hs
  | _ => exact hs

/-- A failure in an import is an exit. -/
theorem importing_comes {x : R Proc} (h : Comes N (x ⟨w, n, es⟩)) :
    Comes N (importing x ⟨w, n, es⟩) := by
  refine .bind (.attempt (After.imp h (fun _ _ h => h) fun e s hs => ?_))
  obtain ⟨w', n', es'⟩ := s
  cases e with
  | fetch e => exact refuse_comes hs
  | superseded e => exact refuse_comes hs
  | _ => exact hs

/-- A call of `op` goes on with what it printed, which is what is said of it. -/
theorem op_comes {α : Type} {call : OpCall} {Q : α → Sys → Prop} {f : List UInt8 → R α}
    {E : Fail → Sys → Prop}
    (hok : ∀ raw, env.op call.args = .ok raw →
      After Q E (f raw ⟨w, n, es ++ [.op call.args (.ok raw)]⟩))
    (herr : ∀ e, env.op call.args = .error e →
      E (.fetch e) ⟨w, n, es ++ [.op call.args (.error e)]⟩) :
    After Q E ((op env call >>= f) ⟨w, n, es⟩) := by
  refine .bind (.bind (emit_spec ?_))
  rcases hop : env.op call.args with e | raw
  · exact herr e hop
  · exact hok raw hop

/-- The next file of an item is what `op` printed for it. -/
theorem readNext_comes {α : Type} {ref : ItemRef} {s : List (List UInt8)} {Q : α → Sys → Prop}
    {f : List (List UInt8) → R α} {E : Fail → Sys → Prop}
    (hok : ∀ raw, env.op (nextCall ref s).args = .ok raw → ∀ es',
      .op (nextCall ref s).args (env.op (nextCall ref s).args) ∈ es' →
        After Q E (f (s ++ [raw]) ⟨w, n, es'⟩))
    (herr : ∀ e es', .op (nextCall ref s).args (env.op (nextCall ref s).args) ∈ es' →
      E e ⟨w, n, es'⟩) :
    After Q E ((readNext env ref s >>= f) ⟨w, n, es⟩) := by
  refine .bind (op_comes (fun raw hop => hok raw hop _ ?_) fun e hop => herr _ _ ?_)
  all_goals
    rw [hop]
    exact List.mem_append_right _ List.mem_cons_self

end Endings

/-- Where JSON is asked for, what goes on is the value that was printed. -/
theorem opJson_comes {α : Type} {call : OpCall} {Q : α → Sys → Prop} {f : Json → R α}
    {E : Fail → Sys → Prop} {empty : Text}
    (hok : ∀ v, Printed env call v → ∀ es, After Q E (f v ⟨w, n, es⟩))
    (herr : ∀ e es, E e ⟨w, n, es⟩) :
    After Q E ((opJson env call empty >>= f) ⟨w, n, es⟩) := by
  refine .bind (op_comes (fun raw hraw => ?_) fun _ _ => herr _ _)
  rcases hv : SerdeJson.value (if raw.isEmpty then utf8 empty else raw) with _ | v
  · exact herr _ _
  · exact hok v ⟨raw, empty, hraw, hv⟩ _

omit [SerdeJson] in
/-- The item is the one that the settings name. -/
theorem itemRef_comes {α : Type} {Q : α → Sys → Prop} {f : ItemRef → R α} {E : Fail → Sys → Prop}
    (hok : Named (fieldsOf w.settings) →
      After Q E (f (refOf (fieldsOf w.settings)) ⟨w, n + 1, es⟩))
    (herr : ∀ e k, E e ⟨w, k, es⟩) :
    After Q E ((itemRef env >>= f) ⟨w, n, es⟩) := by
  refine .bind (.bind (settings_spec (fun _ => ?_) fun _ _ => herr _ _))
  refine .bind (.failIf (fun h => hok ?_) fun _ => herr _ _)
  simpa [Named] using h

/-! ### One part after the other -/

section Parts

variable {p : Proc}

omit [SerdeJson] in
/-- Nothing is removed where nothing happens. -/
theorem Fewer.refl (fs : KeyFile → Option (List UInt8)) : Fewer fs fs := fun _ _ => .inl rfl

omit [SerdeJson] in
/-- A file that is not one of Apple's may be anything. -/
theorem Fewer.update {fs gs : KeyFile → Option (List UInt8)} (h : Fewer fs gs) {f : KeyFile}
    (hf : f ∉ files) (data : Option (List UInt8)) : Fewer fs (Function.update gs f data) := by
  intro g hg
  have hne : g ≠ f := fun he => hf (he ▸ hg)
  rw [Function.update_of_ne hne]
  exact h g hg

omit [SerdeJson] in
/-- A removal of one file leaves fewer. -/
theorem Fewer.remove {fs gs : KeyFile → Option (List UInt8)} (h : Fewer fs gs) (f : KeyFile) :
    Fewer fs (Function.update gs f none) := by
  intro g hg
  by_cases he : g = f
  · subst he
    rw [Function.update_self]
    exact .inr rfl
  · rw [Function.update_of_ne he]
    exact h g hg

/-- A part that carries nothing may go on to another one. -/
theorem Next.on {p p' : Proc} (hp : p.isEarly = true) (hp' : p'.isEarly = true) :
    Next env w p p' w := .early hp hp' (.refl _)

/-- The creation of the pair comes to a step of the process. -/
private theorem createPair_comes : Comes (Next env w .createPair) (createPair env ⟨w, 0, []⟩) := by
  refine .bind (call_spec (fun _ => ?_) fun _ _ => .quit _)
  rcases hmade : env.created with e | _ | pair
  · exact refuse_comes (.quit _)
  · exact Next.on rfl rfl
  · refine .bind (change_spec (.early rfl rfl ?_))
    exact ((Fewer.refl _).update (by decide) _).update (by decide) _

/-- The migration of a legacy pair comes to a step of the process. -/
private theorem migrateLegacy_comes :
    Comes (Next env w .migrateLegacy) (migrateLegacy env ⟨w, 0, []⟩) := by
  have hon : Next env w .migrateLegacy .beginSeq w := .on rfl rfl
  refine .bind (ask_spec (.ite (fun _ => hon) fun _ => ?_))
  refine .bind (call_spec (fun _ => .ite (fun _ => hon) fun _ => ?_) fun _ _ => .quit _)
  refine .ite (fun _ => hon) fun _ => .bind (call_spec (fun _ => ?_) fun _ _ => .quit _)
  refine .bind (call_spec (fun _ => .ite (fun _ => hon) fun _ => ?_) fun _ _ => .quit _)
  refine .bind (call_spec (fun _ => .ite (fun _ => hon) fun _ => ?_) fun _ _ => .quit _)
  -- the files are linked under their new names, one after the other
  have hkey := (Fewer.refl w.files).update (f := .selfKey) (by decide)
    (some ((w.files .key).getD []))
  refine .bind (call_spec (fun _ => .bind (change_spec ?_)) fun _ _ => .quit _)
  refine .bind (call_spec (fun _ => .bind (change_spec ?_)) fun _ _ => .early rfl rfl hkey)
  exact .early rfl rfl (hkey.update (by decide) _)

/-- The removal of a legacy file comes to a step of the process. -/
private theorem unlinkLegacy_comes {left : List KeyFile} :
    Comes (Next env w (.unlinkLegacy left)) (unlinkLegacy env left ⟨w, 0, []⟩) := by
  cases left with
  | nil => exact Next.on rfl rfl
  | cons f left =>
    refine .bind (.bind (call_spec (fun _ => change_spec ?_) fun _ _ => .quit _))
    exact .early rfl rfl ((Fewer.refl _).remove f)

/-- Reading the sequence for `begin` comes to a step of the process. -/
private theorem beginSeq_comes : Comes (Next env w .beginSeq) (beginSeq env ⟨w, 0, []⟩) := by
  refine .bind (call_spec (fun _ => ?_) fun _ _ => .quit _)
  refine .bind (counter_spec (fun _ => ?_) fun _ _ => .quit _)
  exact .bind (emit_spec (.on rfl rfl))

/-- Reading the mode for `begin` comes to a step of the process. -/
private theorem beginMode_comes : Comes (Next env w .beginMode) (beginMode env ⟨w, 0, []⟩) := by
  refine .bind (mode_spec (fun _ => ?_) fun _ _ => .quit _)
  exact .ite (fun _ => exit_comes (.quit _)) fun _ => .on rfl rfl

/-- A look at the cache for `begin` comes to a step of the process. -/
private theorem beginCache_comes : Comes (Next env w .beginCache) (beginCache env ⟨w, 0, []⟩) := by
  have hrest : ∀ (p : Option Payload) k es, Comes (Next env w .beginCache)
      ((do if ← usableForNewWindow p then exit 0 else return .beginWindow : R Proc)
        ⟨w, k, es⟩) := fun p k es =>
    .bind (ask_spec (.ite (fun _ => exit_comes (.quit _)) fun _ => .on rfl rfl))
  exact .bind (currentCache_spec (fun _ => hrest _ _ _) fun _ => hrest _ _ _)

/-- A look at the window for `begin` comes to a step of the process. -/
private theorem beginWindow_comes :
    Comes (Next env w .beginWindow) (beginWindow env ⟨w, 0, []⟩) := by
  refine .bind (readWindow_spec (fun _ => ?_) fun _ _ => .quit _)
  rcases hwindow : windowOf w.window with _ | _ | existing
  · exact Next.on rfl rfl
  · exact Next.on rfl rfl
  · exact exit_comes (.quit _)

/-- Reading the mode for `unlock` comes to a step of the process. -/
private theorem unlockMode_comes : Comes (Next env w .unlockMode) (unlockMode env ⟨w, 0, []⟩) := by
  refine .bind (mode_spec (fun _ => ?_) fun _ _ => .quit _)
  exact .ite (fun _ => refuse_comes (.quit _)) fun _ => .on rfl rfl

/-- A look at the cache for `unlock` comes to a step of the process. -/
private theorem unlockCache_comes :
    Comes (Next env w .unlockCache) (unlockCache env ⟨w, 0, []⟩) := by
  refine .bind (currentCache_spec (fun _ => ?_) fun _ => .on rfl rfl)
  rcases hcache : w.currentCache with _ | p
  · exact Next.on rfl rfl
  · exact refuse_comes (.quit _)

/-- Reading the generation of a fetch comes to a step of the process. -/
private theorem fillCache_comes {c : Caller} :
    Comes (Next env w (.fillCache c)) (fillCache env c ⟨w, 0, []⟩) := by
  refine .bind (call_spec (fun _ => ?_) fun _ _ => .quit _)
  refine .bind (counter_spec (fun _ => ?_) fun _ _ => .quit _)
  exact .bind (ask_spec (.fillCache c))

/-- Reading the item of a fetch comes to a step of the process. -/
private theorem fetchItem_comes {f : Fetch} :
    Comes (Next env w (.fetchItem f)) (fetchItem env f ⟨w, 0, []⟩) :=
  fetching_comes (itemRef_comes (fun h => .fetchItem f h) fun _ _ => .quit _)

/-- Reading a file of a fetch comes to a step of the process. -/
private theorem fetchFiles_comes {f : Fetch} {ref : ItemRef} {s : List (List UInt8)} :
    Comes (Next env w (.fetchFiles f ref s)) (fetchFiles env f ref s ⟨w, 0, []⟩) := by
  refine fetching_comes (readNext_comes (fun raw _ _ _ => ?_) fun _ _ _ => .quit _)
  exact .ite (fun _ => .fetching rfl rfl) fun _ => .fetching rfl rfl

/-- The check of a fetch comes to a step of the process. -/
private theorem fetchCheck_comes {f : Fetch} {ref : ItemRef} {s : List (List UInt8)} :
    Comes (Next env w (.fetchCheck f ref s)) (fetchCheck env f ref s ⟨w, 0, []⟩) := by
  refine fetching_comes ?_
  rcases hcheck : checkFiles env s with _ | problem
  · exact .bind (ask_spec (.fetching rfl rfl))
  · exact Next.quit _

/-- The encoding of a fetch comes to a step of the process. -/
private theorem fetchEncode_comes {f : Fetch} {ref : ItemRef} {s : List (List UInt8)} {t0 : Int} :
    Comes (Next env w (.fetchEncode f ref s t0)) (fetchEncode env f ref s t0 ⟨w, 0, []⟩) := by
  refine fetching_comes (.bind (settings_spec (fun _ => ?_) fun _ _ => .quit _))
  refine .bind (call_spec (fun _ => ?_) fun _ _ => .quit _)
  rcases hdata : payloadOf env (fieldsOf w.settings) t0 s with _ | data
  · exact Next.quit _
  · exact Next.fetched rfl _

/-- The publication of a fetch comes to a step of the process. -/
private theorem publishFetched_comes {f : Fetch} {payload : Fetched} :
    Comes (Next env w (.publish f payload)) (publishFetched env f payload ⟨w, 0, []⟩) := by
  refine .bind (.attempt (publishIfCurrent_spec.imp (fun o s hs => ?_) fun e s hs => ?_))
  · obtain ⟨w', n, es⟩ := s
    rcases hs with ⟨-, rfl⟩ | ⟨rfl, p, hmay, rfl⟩
    · exact filled_comes (.quit _)
    · exact filled_comes (.published hmay)
  · obtain ⟨w', n, es⟩ := s
    obtain rfl : w' = w := hs
    cases e with
    | keyring e => exact filled_comes (.quit _)
    | _ => exact Next.quit _

/-! ### Committing -/

/-- The start of `use` comes to a step of the process. -/
private theorem useStart_comes {args : UseArgs} :
    Comes (Next env w (.useStart args)) (useStart env args ⟨w, 0, []⟩) := by
  refine .bind (call_spec (fun _ => ?_) fun _ _ => .quit _)
  refine .bind (ask_spec (.ite (fun _ => refuse_comes (.quit _)) fun hopen => ?_))
  have hopen : w.window = none := by simpa using hopen
  refine .bind (bump_spec (fun _ _ _ => ?_) fun _ _ _ _ _ => .quit _)
  exact .bind (killFetch_spec (.useStart args hopen) fun _ _ => .useFailed args hopen)

/-- Looking for the item of `use` comes to a step of the process. -/
private theorem useGet_comes {args : UseArgs} {g : Nat} :
    Comes (Next env w (.useGet args g)) (useGet env args g ⟨w, 0, []⟩) := by
  refine using1Password_comes (opJson_comes (fun v hv es => ?_) fun _ _ => .quit _)
  rcases ha : args.account with _ | a
  · exact Next.useGet hv
  · exact .ite (fun _ => .useGet hv) fun _ => .useGiven ha hv

/-- Looking for the account of `use` comes to a step of the process. -/
private theorem useAccount_comes {g : Nat} {vault item : Text} :
    Comes (Next env w (.useAccount g vault item)) (useAccount env g vault item ⟨w, 0, []⟩) :=
  using1Password_comes (.bind (opJson_comes (fun _ hv _ => .useAccount hv) fun _ _ => .quit _))

/-- Reading a file for `use` comes to a step of the process. -/
private theorem useFiles_comes {g : Nat} {ref : ItemRef} {s : List (List UInt8)} :
    Comes (Next env w (.useFiles g ref s)) (useFiles env g ref s ⟨w, 0, []⟩) := by
  refine using1Password_comes (readNext_comes (fun raw _ _ _ => ?_) fun _ _ _ => .quit _)
  refine .ite (fun _ => .useKept rfl rfl) fun _ => ?_
  rcases hcheck : checkFiles env (s ++ [raw]) with _ | problem
  · exact Next.useKept rfl rfl
  · exact refuse_comes (.quit _)

/-- A commit, and what the command makes of how it went. -/
theorem adopt_comes {p p' : Proc} {g : Nat} {ref : ItemRef} (hp : p.adopting = some (g, ref, p')) :
    After (fun _ s => Next env w p p' s.world) (fun _ s => Next env w p .done s.world)
      (adopt env ref g ⟨w, 0, []⟩) := by
  refine adopt_spec.imp (fun _ s hs => ?_) fun _ s hs => ?_
  · obtain ⟨hcurrent, hworld⟩ := hs
    rw [hworld]
    exact .adopted hp hcurrent
  · rcases hs with hworld | ⟨hcurrent, hfailed⟩
    · rw [hworld]
      exact .quit _
    · exact .adoptFailed hp hcurrent hfailed

/-- Adopting the item of `use` comes to a step of the process. -/
private theorem useAdopt_comes {g : Nat} {ref : ItemRef} :
    Comes (Next env w (.useAdopt g ref)) (useAdopt env g ref ⟨w, 0, []⟩) := by
  refine .bind (.attempt ((adopt_comes rfl).imp (fun _ s hs => refuse_comes hs) fun e s hs => ?_))
  cases e with
  | superseded e => exact refuse_comes hs
  | _ => exact hs

/-! ### Importing -/

/-- The start of an import comes to a step of the process. -/
private theorem importStart_comes {args : ImportArgs} :
    Comes (Next env w (.importStart args)) (importStart env args ⟨w, 0, []⟩) := by
  refine .bind (call_spec (fun _ => ?_) fun _ _ => .quit _)
  refine .bind (ask_spec (.ite (fun _ => refuse_comes (.quit _)) fun _ => ?_))
  exact .bind (counter_spec (fun _ => .importStart args) fun _ _ => .quit _)

/-- A look at the files to import comes to a step of the process. -/
private theorem importPresent_comes {i : Import} :
    Comes (Next env w (.importPresent i)) (importPresent env i ⟨w, 0, []⟩) := by
  unfold importPresent
  rcases hf : files[i.present.length]? with _ | f
  · exact Next.importRead (List.getElem?_eq_none_iff.mp hf)
  · exact .bind (call_spec (fun _ => .bind (ask_spec (.importPresent hf))) fun _ _ => .quit _)

omit [SerdeJson] in
/-- The mode is 1Password when the settings say so. -/
private theorem modeOf_eq_iff (s : Settings) :
    (s.lookup identitySource == some "1password".toList) = true ↔
      modeOf s = "1password".toList := by
  rw [beq_iff_eq]
  unfold modeOf
  rcases s.lookup identitySource with _ | m
  · decide
  · simp

/-- A look at the settings of an import comes to a step of the process. -/
private theorem importSettings_comes {i : Import} :
    Comes (Next env w (.importSettings i)) (importSettings env i ⟨w, 0, []⟩) := by
  refine .bind (settings_spec (fun _ => ?_) fun _ _ => .quit _)
  refine .ite (fun _ => .rerun i _ (modeOf_eq_iff _)) fun hitem => ?_
  refine .ite (fun _ => refuse_comes (.quit _)) fun _ => ?_
  have hnamed : ¬ Named (fieldsOf w.settings) := by
    intro h
    apply hitem
    have hne := h.2
    unfold refOf at hne
    rcases hl : (fieldsOf w.settings).lookup opItem with _ | t
    · rw [hl] at hne
      exact absurd rfl hne
    · rw [hl] at hne
      simpa using hne
  rcases hcheck : checkFiles env (dataOf i.present) with _ | problem
  · exact Next.createItem hnamed
  · exact refuse_comes (.quit _)

/-- Finding the item of an earlier import comes to a step of the process. -/
private theorem rerunItem_comes {i : Import} {c : Bool} :
    Comes (Next env w (.rerunItem i c)) (rerunItem env i c ⟨w, 0, []⟩) :=
  importing_comes (itemRef_comes (fun h => .rerunItem i c h) fun _ _ => .quit _)

/-- Reading a file of an earlier import comes to a step of the process. -/
private theorem rerunFiles_comes {i : Import} {c : Bool} {ref : ItemRef} {s : List (List UInt8)} :
    Comes (Next env w (.rerunFiles i c ref s)) (rerunFiles env i c ref s ⟨w, 0, []⟩) := by
  refine importing_comes (readNext_comes (fun raw hop _ _ => ?_) fun _ _ _ => .quit _)
  refine .ite (fun _ => .rerunFiles hop) fun hlen => .rerunRead hop ?_
  simpa using hlen

/-- Comparing the files of an earlier import comes to a step of the process. -/
private theorem rerunCompare_comes {i : Import} {c : Bool} {ref : ItemRef} {s : List (List UInt8)} :
    Comes (Next env w (.rerunCompare i c ref s)) (rerunCompare env i c ref s ⟨w, 0, []⟩) := by
  unfold rerunCompare
  rcases hsame : differing i.present s with _ | f
  · cases c with
    | true => exact Next.rerunSame hsame
    | false =>
      rcases hcheck : checkFiles env s with _ | problem
      · simp only [Bool.false_eq_true, if_false]
        exact Next.rerunUsable hsame
      · simp only [Bool.false_eq_true, if_false]
        exact refuse_comes (.quit _)
  · exact refuse_comes (.quit _)

/-- Adopting the item of an earlier import comes to a step of the process. -/
private theorem rerunAdopt_comes {i : Import} {ref : ItemRef} {s : List (List UInt8)} :
    Comes (Next env w (.rerunAdopt i ref s)) (rerunAdopt env i ref s ⟨w, 0, []⟩) :=
  importing_comes (.bind (adopt_comes rfl))

/-- Creating the item of an import comes to a step of the process. -/
private theorem createItem_comes {i : Import} :
    Comes (Next env w (.createItem i)) (createItem env i ⟨w, 0, []⟩) := by
  refine importing_comes (opJson_comes (fun v hv es => ?_) fun _ _ => .quit _)
  refine .ite (fun _ => refuse_comes (.quit _)) fun hids => ?_
  have hids : jsonId v ≠ [] ∧ jsonVaultId v ≠ [] := by simpa using hids
  exact .created hv hids.1 hids.2

/-- Finding the account of a new item comes to a step of the process. -/
private theorem createAccount_comes {i : Import} {vault item : Text} :
    Comes (Next env w (.createAccount i vault item)) (createAccount env i vault item ⟨w, 0, []⟩) :=
  importing_comes (.bind (opJson_comes (fun _ hv _ => .createAccount hv) fun _ _ => .quit _))

/-- Saving the IDs of a new item comes to a step of the process. -/
private theorem importSave_comes {i : Import} {ref : ItemRef} :
    Comes (Next env w (.saveItemIds i ref)) (importSave env i ref ⟨w, 0, []⟩) := by
  refine .bind (.attempt (saveItemIds_spec.imp (fun _ s hs => ?_) fun e s hs => ?_))
  · obtain ⟨hcurrent, hworld⟩ := hs
    show Next env w _ _ s.world
    rw [hworld]
    exact .saved hcurrent
  · obtain ⟨w', n, es⟩ := s
    obtain rfl : w' = w := hs
    cases e with
    | io e => exact refuse_comes (.quit _)
    | superseded e => exact refuse_comes (.quit _)
    | _ => exact Next.quit _

/-- Reading a file of a new item back comes to a step of the process. -/
private theorem createdFiles_comes {i : Import} {ref : ItemRef} {s : List (List UInt8)} :
    Comes (Next env w (.createdFiles i ref s)) (createdFiles env i ref s ⟨w, 0, []⟩) := by
  refine importing_comes (readNext_comes (fun raw hop _ _ => ?_) fun _ _ _ => .quit _)
  exact .ite (fun _ => .createdFiles hop) fun _ => .createdRead hop

/-- Comparing the files of a new item comes to a step of the process. -/
private theorem createdCompare_comes {i : Import} {ref : ItemRef} {s : List (List UInt8)} :
    Comes (Next env w (.createdCompare i ref s)) (createdCompare i ref s ⟨w, 0, []⟩) :=
  .ite (fun h => .createdSame h) fun _ => refuse_comes (.quit _)

/-- Adopting a new item comes to a step of the process. -/
private theorem createdAdopt_comes {i : Import} {ref : ItemRef} {s : List (List UInt8)} :
    Comes (Next env w (.createdAdopt i ref s)) (createdAdopt env i ref s ⟨w, 0, []⟩) := by
  refine importing_comes (.bind (.attempt ((adopt_comes rfl).imp (fun _ s hs => hs) ?_)))
  intro e s hs
  cases e with
  | io e => exact refuse_comes hs
  | _ => exact hs

/-- Deleting a local file comes to a step of the process. -/
private theorem delete_comes {present : List (Option (List UInt8))} {s : List (List UInt8)}
    {left : List KeyFile} :
    Comes (Next env w (.delete present s left)) (delete env present s left ⟨w, 0, []⟩) := by
  cases left with
  | nil => exact refuse_comes (.quit _)
  | cons f left =>
    exact .bind (.bind (call_spec (fun _ => change_spec .deleted) fun _ _ => .quit _))

end Parts

/-! ### All of them -/

omit [SerdeJson] in
/-- A command of one step ends with it. -/
theorem returning_spec {x : R Int} {s : Sys} {Q : Proc → World → Prop} {E : Fail → Sys → Prop}
    (h : After (fun _ s => Q .done s.world) E (x s)) :
    After (fun p s => Q p s.world) E (returning x s) :=
  .bind (h.imp (fun _ _ h => exit_spec h) fun _ _ h => h)

/-- A command of one step. -/
theorem returning_comes {p : Proc} {x : R Int}
    (h : After (fun _ s => Next env w p .done s.world) (fun _ s => Next env w p .done s.world)
      (x ⟨w, 0, []⟩)) : Comes (Next env w p) (returning x ⟨w, 0, []⟩) := returning_spec h

/-- The command `lock` comes to a step of the process. -/
private theorem cmdLock_comes : Comes (Next env w .lock) (returning (cmdLock env) ⟨w, 0, []⟩) := by
  refine returning_comes (cmdLock_spec.imp (fun _ s hs => ?_) fun _ s hs => ?_)
  · rcases hs with ⟨hworld, -⟩ | ⟨hopen, ⟨hworld, -⟩ | hworld⟩
    · exact hworld ▸ .quit _
    · exact hworld ▸ .lockFailed hopen
    · exact hworld ▸ .locked hopen
  · rcases hs with hworld | ⟨hopen, hworld⟩
    · exact hworld ▸ .quit _
    · exact hworld ▸ .lockFailed hopen

/-- The command `onepassword off` comes to a step of the process. -/
private theorem cmdOnepasswordOff_comes :
    Comes (Next env w .onepasswordOff) (returning (cmdOnepasswordOff env) ⟨w, 0, []⟩) := by
  have hoff : ∀ s : Sys, (s.world = w ∨ w.window = none ∧ TurnedOff env w s.world) →
      Next env w .onepasswordOff .done s.world := by
    rintro s (hworld | ⟨hopen, h⟩)
    · exact hworld ▸ .quit _
    · exact .turnedOff hopen h
  exact returning_comes (cmdOnepasswordOff_spec.imp (fun _ s hs => hoff s hs) fun _ s hs => hoff s hs)

/-- The command `stop-begin` comes to a step of the process. -/
private theorem cmdStopBegin_comes :
    Comes (Next env w .stopBegin) (returning (cmdStopBegin env) ⟨w, 0, []⟩) :=
  returning_comes (cmdStopBegin_spec.imp (fun _ _ (hs : _ = _) => hs ▸ .stopBegin)
    fun _ _ (hs : _ = _) => hs ▸ .quit _)

/-- A step comes to one of the steps listed. -/
private theorem next_comes (env : Env) (w : World) (p : Proc) :
    Comes (Next env w p) (next env p ⟨w, 0, []⟩) := by
  cases p with
  | createPair => exact createPair_comes
  | migrateLegacy => exact migrateLegacy_comes
  | unlinkLegacy left => exact unlinkLegacy_comes
  | beginSeq => exact beginSeq_comes
  | beginMode => exact beginMode_comes
  | beginCache => exact beginCache_comes
  | beginWindow => exact beginWindow_comes
  | unlockMode => exact unlockMode_comes
  | unlockCache => exact unlockCache_comes
  | fillCache c => exact fillCache_comes
  | fetchItem f => exact fetchItem_comes
  | fetchFiles f ref s => exact fetchFiles_comes
  | fetchCheck f ref s => exact fetchCheck_comes
  | fetchEncode f ref s t0 => exact fetchEncode_comes
  | publish f payload => exact publishFetched_comes
  | window i =>
    exact returning_comes (cmdWindow_spec.imp (fun _ _ hs => .window hs.1) fun _ _ hs => .window hs.1)
  | stopBegin => exact cmdStopBegin_comes
  | stopEnd => exact returning_comes (cmdStopEnd_spec.imp (fun _ _ hs => .stopEnd hs)
      fun _ _ hs => .stopEnd hs)
  | lock => exact cmdLock_comes
  | onepasswordOff => exact cmdOnepasswordOff_comes
  | useStart args => exact useStart_comes
  | useGet args g => exact useGet_comes
  | useAccount g vault item => exact useAccount_comes
  | useFiles g ref s => exact useFiles_comes
  | useAdopt g ref => exact useAdopt_comes
  | importStart args => exact importStart_comes
  | importPresent i => exact importPresent_comes
  | importSettings i => exact importSettings_comes
  | rerunItem i c => exact rerunItem_comes
  | rerunFiles i c ref s => exact rerunFiles_comes
  | rerunCompare i c ref s => exact rerunCompare_comes
  | rerunAdopt i ref s => exact rerunAdopt_comes
  | createItem i => exact createItem_comes
  | createAccount i v item => exact createAccount_comes
  | saveItemIds i ref => exact importSave_comes
  | createdFiles i ref s => exact createdFiles_comes
  | createdCompare i ref s => exact createdCompare_comes
  | createdAdopt i ref s => exact createdAdopt_comes
  | delete p s left => exact delete_comes
  | done => exact Next.quit _

/-- **The steps.**  A step of a command is one of those listed, and is all that it logs. -/
theorem advance_next (env : Env) (p : Proc) (w : World) :
    Next env w p (advance env p w).1 (advance env p w).2.2 ∧
      ∃ events, (advance env p w).2.1 =
        [⟨p, (advance env p w).1, w, (advance env p w).2.2, events⟩] := by
  have h := next_comes env w p
  unfold advance
  rcases hr : next env p ⟨w, 0, []⟩ with ⟨e | p', s⟩
  · rw [hr] at h
    exact ⟨h, _, rfl⟩
  · rw [hr] at h
    exact ⟨h, _, rfl⟩

/-! ### What is kept of `op` -/

section Kept

variable {e : Event}

/-- The events of an outcome hold an event, whatever it is. -/
def Tells (e : Event) : Except Fail Proc × Sys → Prop :=
  After (fun _ s => e ∈ s.events) fun _ s => e ∈ s.events

omit [SerdeJson]

/-- What was said before an exit is said. -/
theorem exit_tells {code : Int} (h : e ∈ es) : Tells e (exit code ⟨w, n, es⟩) :=
  exit_spec (List.mem_append_left _ h)

/-- What was said before a refusal is said. -/
theorem refuse_tells {text : Text} {code : Int} (h : e ∈ es) :
    Tells e (refuse text code ⟨w, n, es⟩) :=
  .bind (emit_spec (exit_tells (List.mem_append_left _ h)))

/-- What was said before the outcome of a fetch is said. -/
private theorem filled_tells {c : Caller} {o : Outcome} {why : Option Fail} (h : e ∈ es) :
    Tells e (filled c o why ⟨w, n, es⟩) := by
  unfold filled
  split
  · exact .bind (emit_spec (exit_tells (List.mem_append_left _ h)))
  · exact exit_tells h
  all_goals exact refuse_tells h

/-- What is said within a fetch is said. -/
private theorem fetching_tells {c : Caller} {x : R Proc} (h : Tells e (x ⟨w, n, es⟩)) :
    Tells e (fetching c x ⟨w, n, es⟩) := by
  refine .bind (.attempt (After.imp h (fun _ _ h => h) fun err s hs => ?_))
  obtain ⟨w', n', es'⟩ := s
  cases err with
  | fetch err => exact filled_tells hs
  | _ => exact hs

/-- What is said while an item is looked at is said. -/
private theorem using1Password_tells {x : R Proc} (h : Tells e (x ⟨w, n, es⟩)) :
    Tells e (using1Password x ⟨w, n, es⟩) := by
  refine .bind (.attempt (After.imp h (fun _ _ h => h) fun err s hs => ?_))
  obtain ⟨w', n', es'⟩ := s
  cases err with
  | fetch err => exact refuse_tells hs
  | _ => exact hs

/-- What is said in an import is said. -/
theorem importing_tells {x : R Proc} (h : Tells e (x ⟨w, n, es⟩)) :
    Tells e (importing x ⟨w, n, es⟩) := by
  refine .bind (.attempt (After.imp h (fun _ _ h => h) fun err s hs => ?_))
  obtain ⟨w', n', es'⟩ := s
  cases err with
  | fetch err => exact refuse_tells hs
  | superseded err => exact refuse_tells hs
  | _ => exact hs

end Kept

/-- **What `op` prints is kept.**  A step that reads a file of an item keeps the call and what it
    came to. -/
theorem advance_tells (env : Env) (w : World) {p : Proc} {ref : ItemRef} {s : List (List UInt8)}
    (hp : p.reading = some (ref, s)) :
    ∀ m ∈ (advance env p w).2.1,
      .op (nextCall ref s).args (env.op (nextCall ref s).args) ∈ m.events := by
  have htells : Tells (.op (nextCall ref s).args (env.op (nextCall ref s).args))
      (next env p ⟨w, 0, []⟩) := by
    cases p with
    | fetchFiles f ref' s' =>
      cases hp
      refine fetching_tells (readNext_comes (fun raw _ es h => ?_) fun _ _ h => h)
      exact .ite (fun _ => h) fun _ => h
    | useFiles g ref' s' =>
      cases hp
      refine using1Password_tells (readNext_comes (fun raw _ es h => ?_) fun _ _ h => h)
      refine .ite (fun _ => h) fun _ => ?_
      rcases checkFiles env (s ++ [raw]) with _ | problem
      · exact h
      · exact refuse_tells h
    | rerunFiles i c ref' s' =>
      cases hp
      refine importing_tells (readNext_comes (fun raw _ es h => ?_) fun _ _ h => h)
      exact .ite (fun _ => h) fun _ => h
    | createdFiles i ref' s' =>
      cases hp
      refine importing_tells (readNext_comes (fun raw _ es h => ?_) fun _ _ h => h)
      exact .ite (fun _ => h) fun _ => h
    | _ => cases hp
  unfold advance
  rcases hr : next env p ⟨w, 0, []⟩ with ⟨e | p', s'⟩
  all_goals
    rw [hr] at htells
    intro m hm
    obtain rfl := List.mem_singleton.mp hm
  · exact List.mem_append_left _ htells
  · exact htells

/-! ### What becomes of the cache and the window -/

/-- Whatever is in the cache afterwards was there before, perhaps with another timeout. -/
def CacheKept (w w' : World) : Prop :=
  ∀ k, w'.cache = some k → ∃ k₀, w.cache = some k₀ ∧ k₀.origin = k.origin

omit [SerdeJson] in
/-- The cache is kept where nothing happens. -/
theorem CacheKept.refl (w : World) : CacheKept w w := fun k hk => ⟨k, hk, rfl⟩

omit [SerdeJson] in
/-- A cache that is the same is kept. -/
theorem CacheKept.of_eq {w w' : World} (h : w'.cache = w.cache) : CacheKept w w' :=
  fun k hk => ⟨k, h ▸ hk, rfl⟩

omit [SerdeJson] in
/-- A revocation of the key keeps the cache or empties it. -/
theorem CacheKept.revoked {w w' : World} (l : Bool) (h : w'.cache = (w.revoked l).cache) :
    CacheKept w w' := by
  intro k hk
  rw [h, revoked_cache] at hk
  cases l with
  | true => exact ⟨k, hk, rfl⟩
  | false => cases hk

omit [SerdeJson] in
/-- A new timeout of the key keeps the cache. -/
theorem CacheKept.timed {w w' : World} (timeout : Int) (h : w'.cache = (w.timed timeout).cache) :
    CacheKept w w' := by
  intro k hk
  obtain ⟨k₀, hk₀, horigin, -⟩ := timed_cache_eq_some (h ▸ hk)
  exact ⟨k₀, hk₀, horigin⟩

/-- Choosing a window keeps the cache. -/
theorem Chosen.cacheKept {lines : List Text} {w₁ : World} (h : Chosen w lines w₁) :
    CacheKept w w₁ := by
  cases h with
  | disk => exact .refl _
  | selfSigned => exact .refl _
  | onePassword p hserial hmode hcache husable => exact .timed _ rfl

omit [SerdeJson] in
/-- An adoption that fails keeps the cache or empties it. -/
theorem AdoptFailed.cacheKept {ref : ItemRef} {w' : World} (h : AdoptFailed env ref w w') :
    CacheKept w w' := by
  cases h with
  | refused => exact .refl _
  | revoked => exact .revoked env.lingers rfl
  | tornIds h => exact .revoked env.lingers rfl
  | tornMode h => exact .revoked env.lingers rfl
  | adopted => exact .revoked env.lingers rfl

/-- **The cache.**  A step keeps what is in it, at most, or publishes what may be published. -/
theorem Next.cache_cases {p p' : Proc} {w' : World} (h : Next env w p p' w') :
    CacheKept w w' ∨ ∃ f payload pl, p = .publish f payload ∧
      MayPublish w payload f.generation pl ∧
        w' = w.withCache payload (pl.periodEnds - w.now) := by
  cases h with
  | published hmay => exact .inr ⟨_, _, _, rfl, hmay, rfl⟩
  | window hw =>
    cases hw with
    | kept => exact .inl (.refl _)
    | opened hseq hnew hchosen => exact .inl hchosen.cacheKept
    | unrecorded hnew hchosen hfail => exact .inl hchosen.cacheKept
  | stopEnd hs =>
    cases hs with
    | timed p hcache hlasts => exact .inl (.timed _ rfl)
    | revoked p hcache hover => exact .inl (.revoked env.lingers (by simp))
    | _ => exact .inl (.of_eq rfl)
  | locked hopen => exact .inl (.revoked env.lingers (by simp))
  | turnedOff hopen hoff =>
    cases hoff with
    | revoked => exact .inl (.revoked env.lingers (by simp))
    | off => exact .inl (.revoked env.lingers (by simp))
    | _ => exact .inl (.of_eq rfl)
  | adopted hp hcurrent => exact .inl (.revoked env.lingers rfl)
  | adoptFailed hp hcurrent hfailed => exact .inl hfailed.cacheKept
  | _ => exact .inl (.of_eq rfl)

/-- Choosing a window writes none. -/
theorem Chosen.window_eq {lines : List Text} {w₁ : World} (h : Chosen w lines w₁) :
    w₁.window = w.window := by
  cases h <;> rfl

omit [SerdeJson] in
/-- An adoption that fails writes no window. -/
theorem AdoptFailed.window_eq {ref : ItemRef} {w' : World} (h : AdoptFailed env ref w w') :
    w'.window = w.window := by
  cases h <;> simp [World.adopted]

/-- **The window file.**  A step leaves it, removes it, or writes a new one. -/
theorem Next.window_cases {p p' : Proc} {w' : World} (h : Next env w p p' w') :
    w'.window = w.window ∨ w'.window = none ∨
      ∃ lines w₁, Chosen w lines w₁ ∧ w' = w₁.opened lines := by
  cases h with
  | window hw =>
    cases hw with
    | kept => exact .inl rfl
    | opened hseq hnew hchosen => exact .inr (.inr ⟨_, _, hchosen, rfl⟩)
    | unrecorded hnew hchosen hfail => exact .inl hchosen.window_eq
  | stopEnd hs =>
    cases hs with
    | kept => exact .inl rfl
    | _ => exact .inr (.inl (by simp))
  | locked hopen => exact .inl (by simp)
  | turnedOff hopen hoff => exact .inl (by cases hoff <;> simp)
  | adopted hp hcurrent => exact .inl (by simp [World.adopted])
  | adoptFailed hp hcurrent hfailed => exact .inl hfailed.window_eq
  | _ => exact .inl rfl

/-- Nothing is published as a window is chosen. -/
theorem Chosen.published_eq {lines : List Text} {w₁ : World} (h : Chosen w lines w₁) :
    w₁.published = w.published := by
  cases h <;> rfl

/-- **What was published.**  A step publishes what may be published, or nothing. -/
theorem Next.published_cases {p p' : Proc} {w' : World} (h : Next env w p p' w') :
    w'.published = w.published ∨ ∃ f payload pl, p = .publish f payload ∧
      MayPublish w payload f.generation pl ∧
        w' = w.withCache payload (pl.periodEnds - w.now) := by
  cases h with
  | published hmay => exact .inr ⟨_, _, _, rfl, hmay, rfl⟩
  | window hw =>
    cases hw with
    | kept => exact .inl rfl
    | opened hseq hnew hchosen =>
      have hsame := hchosen.published_eq
      exact .inl hsame
    | unrecorded hnew hchosen hfail => exact .inl hchosen.published_eq
  | stopEnd hs => cases hs <;> exact .inl (by simp [World.closed])
  | locked hopen => exact .inl (by simp)
  | turnedOff hopen hoff => exact .inl (by cases hoff <;> simp)
  | adopted hp hcurrent => exact .inl (by simp [World.adopted])
  | adoptFailed hp hcurrent hfailed => exact .inl (by cases hfailed <;> simp [World.adopted])
  | _ => exact .inl rfl

/-! ### What becomes of the counters -/

omit [SerdeJson] in
/-- A bump looks at the state file and the count of bumps only. -/
private theorem bumped_congr {w w₁ : World} (hstate : w₁.state = w.state)
    (hbumps : w₁.bumps = w.bumps)
    (name : Text) : (w₁.bumped name).state = (w.bumped name).state ∧
      (w₁.bumped name).bumps = (w.bumped name).bumps := by
  simp [World.bumped, World.counter, hstate, hbumps]

/-- The counters after a step are those before, or one of them was bumped. -/
def CountersKept (w w' : World) : Prop :=
  (w'.state = w.state ∧ w'.bumps = w.bumps) ∨
    ∃ name, (name = gen ∨ name = seq) ∧ w'.state = (w.bumped name).state ∧
      w'.bumps = (w.bumped name).bumps

omit [SerdeJson] in
/-- An adoption moves the generation by one at most. -/
theorem countersKept_adopted (lingers : Bool) (ref : ItemRef) :
    CountersKept w (w.adopted lingers ref) :=
  .inr ⟨gen, .inl rfl, bumped_congr (by simp) (by simp) gen⟩

/-- **The counters.**  A step bumps one of them, at most. -/
theorem Next.countersKept {p p' : Proc} {w' : World} (h : Next env w p p' w') :
    CountersKept w w' := by
  cases h with
  | window hw =>
    have hchosen : ∀ {lines w₁}, Chosen w lines w₁ → w₁.state = w.state ∧ w₁.bumps = w.bumps := by
      intro lines w₁ h
      cases h <;> exact ⟨rfl, rfl⟩
    cases hw with
    | kept => exact .inl ⟨rfl, rfl⟩
    | opened hseq hnew h =>
      have hsame := hchosen h
      exact .inl hsame
    | unrecorded hnew h hfail => exact .inl (hchosen h)
  | stopBegin => exact .inr ⟨seq, .inr rfl, rfl, rfl⟩
  | stopEnd hs => cases hs <;> exact .inl (by simp [World.closed])
  | lockFailed hopen => exact .inr ⟨gen, .inl rfl, rfl, rfl⟩
  | locked hopen => exact .inr ⟨gen, .inl rfl, by simp, by simp⟩
  | turnedOff hopen hoff =>
    cases hoff <;> exact .inr ⟨gen, .inl rfl, by simp, by simp⟩
  | useStart args hopen => exact .inr ⟨gen, .inl rfl, rfl, rfl⟩
  | useFailed args hopen => exact .inr ⟨gen, .inl rfl, rfl, rfl⟩
  | adopted hp hcurrent => exact countersKept_adopted _ _
  | adoptFailed hp hcurrent hfailed =>
    cases hfailed with
    | adopted => exact countersKept_adopted _ _
    | _ => exact .inl (by simp)
  | _ => exact .inl ⟨rfl, rfl⟩

omit [SerdeJson] in
/-- The generation is written without a broken line. -/
theorem clean_gen : Clean gen [] := by
  unfold Clean Unbroken
  decide

omit [SerdeJson] in
/-- The sequence is written without a broken line. -/
theorem clean_seq : Clean seq [] := by
  unfold Clean Unbroken
  decide

omit [SerdeJson] in
/-- Bumps are counted. -/
theorem CountersKept.le {w w' : World} (h : CountersKept w w') (name : Text) :
    w.bumps name ≤ w'.bumps name := by
  rcases h with ⟨-, hbumps⟩ | ⟨other, -, -, hbumps⟩
  · rw [hbumps]
  · rw [hbumps, bumped_bumps]
    by_cases hname : name = other
    · rw [hname, Function.update_self]
      omega
    · rw [Function.update_of_ne hname]

omit [SerdeJson] in
/-- A counter is moved by one at most. -/
theorem CountersKept.le_succ {w w' : World} (h : CountersKept w w') (name : Text) :
    w'.bumps name ≤ w.bumps name + 1 := by
  rcases h with ⟨-, hbumps⟩ | ⟨other, -, -, hbumps⟩
  · rw [hbumps]
    omega
  · rw [hbumps, bumped_bumps]
    by_cases hname : name = other
    · rw [hname, Function.update_self]
    · rw [Function.update_of_ne hname]
      omega

/-- A counter is where it started, moved on by its bumps. -/
def Counts (w₀ w : World) : Prop :=
  ∀ name, w.counter name = (w₀.counter name + w.bumps name) % counterRange

omit [SerdeJson] in
/-- The times that a counter was moved are counted on. -/
theorem CountersKept.counts {w₀ w w' : World} (h : CountersKept w w') (hw : Counts w₀ w) :
    Counts w₀ w' := by
  intro name
  rcases h with ⟨hstate, hbumps⟩ | ⟨other, hother, hstate, hbumps⟩
  · rw [hbumps, ← hw name]
    simp only [World.counter, hstate]
  · have hclean : Clean other [] := by
      rcases hother with rfl | rfl
      · exact clean_gen
      · exact clean_seq
    have hcounter : w'.counter name = (w.bumped other).counter name := by
      simp only [World.counter, hstate]
    rw [hcounter, counter_bumped w hclean, hbumps, bumped_bumps]
    by_cases hname : name = other
    · subst hname
      rw [if_pos rfl, Function.update_self, hw name, Nat.mod_add_mod, Nat.add_assoc]
    · rw [if_neg hname, Function.update_of_ne hname, hw name]

omit [SerdeJson] in
/-- Whatever the file says, it is a number below 2^64. -/
private theorem parseCounter_lt (t : Text) : parseCounter t < counterRange := by
  have h0 : 0 < counterRange := by decide
  unfold parseCounter
  split
  · split
    · split
      · assumption
      · exact h0
    · exact h0
  · exact h0

omit [SerdeJson] in
/-- A counter that is read is below 2^64. -/
theorem counter_lt (w : World) (name : Text) : w.counter name < counterRange := parseCounter_lt _

omit [SerdeJson] in
/-- At the start of a session nothing was bumped. -/
theorem counts_boot (b : Boot) : Counts b.world b.world := by
  intro name
  show b.world.counter name = (b.world.counter name + 0) % counterRange
  rw [Nat.add_zero, Nat.mod_eq_of_lt (counter_lt _ _)]

end Omdrop.Identity
