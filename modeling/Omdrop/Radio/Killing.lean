import Omdrop.Radio.Processes
import Omdrop.Text.Fields
import Omdrop.Text.Lines
import Omdrop.Text.Utf8

namespace Omdrop.Radio

open Omdrop.Text

/-!
# Stopping what a window started

`stop` and the clean-up after a supervisor signal the processes whose ids stand in the run
directory: the children in `pids` and the group of a hook in `hook.pgid`.  Ids are reused, so
that each is checked against the table of processes first.  The table changes between the steps
of the helper, a check and the signal behind it being one step; `T i` is the table at step `i`.

`cleanUp_ours_iff` says when every signal reaches the recorded processes only: unless the group
of a hook dies out while `killOrphanedHook` waits and its id is given to another.
-/

/-- Where the helper and its programs are, and as whom it runs. -/
structure Places where
  legacy : List UInt8
  hooks : List UInt8
  selfDir : Option (List UInt8)
  euid : Nat
  testRoot : Bool

/-- The owner that a process of the window must have. -/
def Places.trustedOwner (ctx : Places) : Nat := if ctx.testRoot then ctx.euid else 0

/-- A file in a directory. -/
def join (dir : List UInt8) (name : Text) : List UInt8 :=
  if dir = [] ∨ dir.getLast? = some 47 then dir ++ utf8 name else dir ++ 47 :: utf8 name

/-! ### What a process runs -/

/-- The arguments of a process. -/
def argv (p : Process) : List (List UInt8) :=
  ((p.cmdline.take 65536).splitOn 0).filter (· ≠ [])

/-- Is this alive, and no zombie? -/
def running (p : Process) : Bool := p.state ≠ 'Z' && p.state ≠ 'X'

/-- Is this the program with a verb? -/
def isInvocation (ctx : Places) (p : Process) (exe : List UInt8) (verb : Text) : Bool :=
  (argv p).head? == some exe && (argv p)[1]? == some (utf8 verb) &&
    (ctx.euid ≠ 0 || p.exe == some exe || p.exe == some (exe ++ utf8 " (deleted)"))

/-- Is this a script run by one of some interpreters? -/
def isScriptRun (p : Process) (interpreters : List Text) (script : List UInt8) : Bool :=
  let base := ((argv p).head?.getD []).splitOn 47 |>.getLast?.getD []
  interpreters.any (fun i => utf8 i == base) && (argv p)[1]? == some script

/-- Does a process run the program of a tag? -/
def runsTaggedProgram (ctx : Places) (p : Process) (tag : Text) : Bool :=
  let legacy (script : Text) := isScriptRun p ["python3", "python"] (join ctx.legacy script)
  let ours (verb : Text) := ctx.selfDir.any fun dir =>
    isInvocation ctx p (join dir "omdrop-adv") verb
  if tag = "mdns".toList then ours "mdns" || legacy "awdl-mdns-respond.py"
  else if tag = "ble".toList then ours "ble" || legacy "ble-airdrop-adv.py"
  else if tag = "peers".toList then
    isScriptRun p ["bash", "sh"] (join ctx.hooks "peer-watch") || legacy "awdl-peer-watch.py"
  else false

/-! ### What is recorded -/

/-- What a line of `pids` names. -/
structure Recorded where
  pid : Nat
  tag : Text
  start : Option Nat
deriving DecidableEq

/-- What a line of `pids` names, if it is well formed. -/
def parsePid (line : Text) : Option Recorded := do
  let f := splitWhitespace line
  let pid ← (((f[0]?).filter isUint).bind (parseUnsigned 32)).filter (1 < ·)
  return ⟨pid, (f[1]?).getD [], ((f[2]?).filter isUint).bind (parseUnsigned 64)⟩

/-- What the lines of `pids` name. -/
def parsePids (text : Text) : List Recorded := (strLines text).filterMap parsePid

/-- An id and a start time, and nothing else. -/
def parsePidStart (s : Text) : Option (Nat × Nat) := do
  let f := splitWhitespace s
  let pid ← ((f[0]?).filter isUint).bind (parseUnsigned 32)
  let start ← ((f[1]?).filter isUint).bind (parseUnsigned 64)
  if 1 < pid ∧ f[2]? = none then some (pid, start) else none

/-! ### Signals -/

/-- The signals that are sent. -/
inductive Sig
  | term
  | kill
deriving DecidableEq

/-- A signal as it was sent: at which step and for what record, and the step at which the record
    was checked. -/
structure Sent where
  step : Nat
  checked : Nat
  record : Recorded
  target : Int
  sig : Sig
deriving DecidableEq

/-- A number of 32 bits as a signed one. -/
def asI32 (n : Nat) : Int := if n < 2 ^ 31 then n else n - 2 ^ 32

/-- Does a signal reach the process at an id? -/
def Reaches (T : Table) (target : Int) (pid : Nat) (p : Process) : Prop :=
  T.get pid = some p ∧
    if 0 < target then (pid : Int) = target else (p.group.pgid : Int) = -target

/-- Is the target none of those that stand for a whole group or for everything? -/
def allowed (target : Int) : Bool := target ≠ 0 && target ≠ -1

instance (T : Table) (target : Int) : Decidable (∃ pid p, Reaches T target pid p) :=
  decidable_of_iff (∃ pid < 2 ^ 22, ∃ p ∈ T.get pid,
      if 0 < target then (pid : Int) = target else (p.group.pgid : Int) = -target)
    ⟨fun ⟨pid, _, p, hp, h⟩ => ⟨pid, p, hp, h⟩,
      fun ⟨pid, p, hp, h⟩ => ⟨pid, (T.bounded hp).2, p, hp, h⟩⟩

/-- The signal to a target, unless it is one of those that are refused. -/
def signalled (step checked : Nat) (r : Recorded) (target : Int) (sig : Sig) : List Sent :=
  if allowed target then [⟨step, checked, r, target, sig⟩] else []

/-- The target for a recorded child, if it is the process that was started. -/
def stillOurs (ctx : Places) (T : Table) (r : Recorded) : Option Int :=
  (T.get r.pid).bind fun p =>
    if p.uids ≠ (ctx.trustedOwner, ctx.trustedOwner) ∨ running p = false then none
    else
      match r.start with
      | some st => if p.start = st ∧ p.group.pgid = r.pid then some (-asI32 r.pid) else none
      | none    => if runsTaggedProgram ctx p r.tag then some (asI32 r.pid) else none

/-- The signals to the children that are still ours, and the targets that they reached. -/
def termAll (ctx : Places) (T : Nat → Table) (i : Nat) :
    List Recorded → List Sent × List (Recorded × Int)
  | []      => ([], [])
  | r :: rs =>
    let rest := termAll ctx T (i + 1) rs
    match stillOurs ctx (T i) r with
    | none        => rest
    | some target =>
      (signalled i i r target .term ++ rest.1,
        if allowed target ∧ ∃ pid p, Reaches (T i) target pid p then (r, target) :: rest.2
        else rest.2)

/-- The signals to those of them that are still ours after the wait. -/
def killAll (ctx : Places) (T : Nat → Table) (i : Nat) : List (Recorded × Int) → List Sent
  | []                  => []
  | (r, target) :: rest =>
    (if stillOurs ctx (T i) r = some target then signalled i i r target .kill else []) ++
      killAll ctx T (i + 1) rest

/-- Every recorded child is killed, as a group; `pids` is what the file says when there is one. -/
def killChildren (ctx : Places) (pids : Option Text) (T : Nat → Table) (i : Nat) : List Sent :=
  let list := parsePids (pids.getD [])
  let terms := termAll ctx T i list
  terms.1 ++ killAll ctx T (i + list.length) terms.2

/-- The group of the hook that a supervisor was running, with its leader if that is the process that
    was recorded. -/
def hookLeader (ctx : Places) (hook : Option Text) (T : Table) : Option (Nat × Process) := do
  let (pgid, start) ← hook.bind parsePidStart
  let p ← T.get pgid
  if p.start = start ∧ p.group.pgid = pgid ∧ p.uids = (ctx.trustedOwner, ctx.trustedOwner) ∧
      running p = true then some (pgid, p)
  else none

/-- That group is killed; the second signal goes out after a wait for the leader. -/
def killOrphanedHook (ctx : Places) (hook : Option Text) (T : Nat → Table) (i : Nat) :
    List Sent :=
  match hookLeader ctx hook (T i) with
  | none                => []
  | some (pgid, leader) =>
    let r : Recorded := ⟨pgid, "hook", some leader.start⟩
    signalled i i r (-asI32 pgid) .term ++ signalled (i + 1) i r (-asI32 pgid) .kill

/-- The clean-up: the hook, and then the children. -/
def cleanUp (ctx : Places) (hook pids : Option Text) (T : Nat → Table) : List Sent :=
  killOrphanedHook ctx hook T 0 ++ killChildren ctx pids T 2

/-! ### Whose processes they are -/

/-- The leader that was checked is there, and leads its group. -/
def LeaderRemains (ctx : Places) (T : Table) (pid : Nat) (leader : Process) : Prop :=
  ∃ p, T.get pid = some p ∧ p.serial = leader.serial ∧ p.start = leader.start ∧
    p.group.pgid = pid ∧ p.uids = (ctx.trustedOwner, ctx.trustedOwner)

/-- The leader that was checked has exited, and whoever has its group's id is of that group. -/
def MembersRemain (T : Table) (pid : Nat) (leader : Process) : Prop :=
  (∀ p, T.get pid = some p → p.serial ≠ leader.serial) ∧
    ∀ i q, Reaches T (-pid) i q → q.group = leader.group

/-- Does a signal go to a process of the window?  With a start time, to the group of the recorded
    leader; without one, to the one process that runs the program of the tag. -/
inductive Ours (ctx : Places) (T : Nat → Table) (s : Sent) : Prop
  | group {start : Nat} {leader : Process} (hrecord : s.record.start = some start)
      (htarget : s.target = -s.record.pid) (hleader : (T s.checked).get s.record.pid = some leader)
      (hstart : leader.start = start) (hleads : leader.group.pgid = s.record.pid)
      (howner : leader.uids = (ctx.trustedOwner, ctx.trustedOwner))
      (hgroup : LeaderRemains ctx (T s.step) s.record.pid leader ∨
        MembersRemain (T s.step) s.record.pid leader)
  | program {p : Process} (hrecord : s.record.start = none) (htarget : s.target = s.record.pid)
      (hp : (T s.step).get s.record.pid = some p)
      (howner : p.uids = (ctx.trustedOwner, ctx.trustedOwner))
      (hruns : runsTaggedProgram ctx p s.record.tag = true)

/-- The id of a group was given to another one, which is there. -/
def Taken (es : List Event) (T : Table) (pgid : Nat) : Prop :=
  ∃ p, .spawn pgid p ∈ es ∧ p.group = ⟨pgid, p.serial⟩ ∧
    ∃ i q, T.get i = some q ∧ q.group = p.group

/-- The number of a process in the table fits. -/
theorem asI32_of_get {T : Table} {pid : Nat} {p : Process} (h : T.get pid = some p) :
    asI32 pid = pid := by
  have := T.bounded h
  rw [asI32, if_pos (by omega)]

/-! ### The children -/

/-- **What a check says.** -/
theorem stillOurs_cases {ctx : Places} {T : Table} {r : Recorded} {target : Int}
    (h : stillOurs ctx T r = some target) : ∃ p, T.get r.pid = some p ∧
      p.uids = (ctx.trustedOwner, ctx.trustedOwner) ∧
      (r.start = some p.start ∧ p.group.pgid = r.pid ∧ target = -r.pid ∨
        r.start = none ∧ runsTaggedProgram ctx p r.tag = true ∧ target = r.pid) := by
  obtain ⟨p, hp, h⟩ := Option.bind_eq_some_iff.mp h
  rw [asI32_of_get hp] at h
  split at h
  · cases h
  · rename_i hbad
    rw [not_or, not_not] at hbad
    refine ⟨p, hp, hbad.1, ?_⟩
    split at h
    · rename_i st hst
      split at h
      · rename_i hleads
        exact .inl ⟨by rw [hst, hleads.1], hleads.2, (Option.some.inj h).symm⟩
      · cases h
    · rename_i hst
      split at h
      · rename_i hruns
        exact .inr ⟨hst, hruns, (Option.some.inj h).symm⟩
      · cases h

/-- A signal right behind its check is ours. -/
theorem Ours.of_check {ctx : Places} {T : Nat → Table} {s : Sent} (hstep : s.checked = s.step)
    (h : stillOurs ctx (T s.step) s.record = some s.target) : Ours ctx T s := by
  obtain ⟨p, hp, howner, ⟨hrecord, hleads, htarget⟩ | ⟨hrecord, hruns, htarget⟩⟩ :=
    stillOurs_cases h
  · exact .group hrecord htarget (hstep ▸ hp) rfl hleads howner
      (.inl ⟨p, hp, rfl, rfl, hleads, howner⟩)
  · exact .program hrecord htarget hp howner hruns

/-- What is sent for the children is sent right behind a check. -/
def Checked (ctx : Places) (T : Nat → Table) (list : List Recorded) (s : Sent) : Prop :=
  s.record ∈ list ∧ s.checked = s.step ∧ stillOurs ctx (T s.step) s.record = some s.target

/-- A signal is sent where the target is allowed. -/
theorem mem_signalled {step checked : Nat} {r : Recorded} {target : Int} {sig : Sig} {s : Sent} :
    s ∈ signalled step checked r target sig ↔
      allowed target = true ∧ s = ⟨step, checked, r, target, sig⟩ := by
  unfold signalled
  split <;> simp_all

/-- The first signals are for processes that were just checked. -/
private theorem termAll_checked (ctx : Places) (T : Nat → Table) (i : Nat) (list : List Recorded) :
    (∀ s ∈ (termAll ctx T i list).1, Checked ctx T list s) ∧
      ∀ x ∈ (termAll ctx T i list).2, x.1 ∈ list := by
  induction list generalizing i with
  | nil => exact ⟨by simp [termAll], by simp [termAll]⟩
  | cons r rs ih =>
    obtain ⟨hsent, htargets⟩ := ih (i + 1)
    have hrest : ∀ s ∈ (termAll ctx T (i + 1) rs).1, Checked ctx T (r :: rs) s := fun s hs =>
      ⟨List.mem_cons_of_mem _ (hsent s hs).1, (hsent s hs).2⟩
    have hrest' : ∀ x ∈ (termAll ctx T (i + 1) rs).2, x.1 ∈ r :: rs := fun x hx =>
      List.mem_cons_of_mem _ (htargets x hx)
    cases hours : stillOurs ctx (T i) r with
    | none =>
      simp only [termAll, hours]
      exact ⟨hrest, hrest'⟩
    | some target =>
      simp only [termAll, hours]
      refine ⟨fun s hs => ?_, fun x hx => ?_⟩
      · rcases List.mem_append.mp hs with hs | hs
        · obtain ⟨-, rfl⟩ := mem_signalled.mp hs
          exact ⟨List.mem_cons_self, rfl, hours⟩
        · exact hrest s hs
      · split at hx
        · rcases List.mem_cons.mp hx with rfl | hx
          · exact List.mem_cons_self
          · exact hrest' x hx
        · exact hrest' x hx

/-- The second signals are for processes that were just checked, of those that are left. -/
private theorem killAll_checked (ctx : Places) (T : Nat → Table) (i : Nat) {list : List Recorded}
    {targets : List (Recorded × Int)} (h : ∀ x ∈ targets, x.1 ∈ list) :
    ∀ s ∈ killAll ctx T i targets, Checked ctx T list s := by
  induction targets generalizing i with
  | nil => exact fun s hs => by cases hs
  | cons x targets ih =>
    obtain ⟨r, target⟩ := x
    rw [List.forall_mem_cons] at h
    intro s hs
    rcases List.mem_append.mp hs with hs | hs
    · split at hs
      · rename_i hours
        obtain ⟨-, rfl⟩ := mem_signalled.mp hs
        exact ⟨h.1, rfl, hours⟩
      · cases hs
    · exact ih (i + 1) h.2 s hs

/-- **Every signal to the children is sent right behind a check.** -/
theorem killChildren_checked (ctx : Places) (pids : Option Text) (T : Nat → Table) (i : Nat) :
    ∀ s ∈ killChildren ctx pids T i, Checked ctx T (parsePids (pids.getD [])) s := by
  intro s hs
  obtain ⟨hterm, htargets⟩ := termAll_checked ctx T i (parsePids (pids.getD []))
  rcases List.mem_append.mp hs with hs | hs
  · exact hterm s hs
  · exact killAll_checked ctx T _ htargets s hs

/-- Recorded ids are above one. -/
theorem one_lt_of_mem_parsePids {text : Text} {r : Recorded} (h : r ∈ parsePids text) :
    1 < r.pid := by
  obtain ⟨line, -, hline⟩ := List.mem_filterMap.mp h
  obtain ⟨pid, hpid, hr⟩ := Option.bind_eq_some_iff.mp hline
  obtain rfl := Option.some.inj hr
  simpa using (Option.filter_eq_some_iff.mp hpid).2

/-- A recorded number is above one. -/
private theorem one_lt_of_parsePidStart {s : Text} {pid start : Nat}
    (h : parsePidStart s = some (pid, start)) : 1 < pid := by
  obtain ⟨pid', -, h⟩ := Option.bind_eq_some_iff.mp h
  obtain ⟨start', -, h⟩ := Option.bind_eq_some_iff.mp h
  split at h
  · rename_i hpid
    simp only [Option.some.injEq, Prod.mk.injEq] at h
    exact h.1 ▸ hpid.1
  · cases h

/-- A target of a recorded id is that process or its group, and never a whole group of the helper's
    or everything. -/
theorem target_ne {target : Int} {pid : Nat} (hpid : 1 < pid)
    (h : target = -pid ∨ target = pid) : target ≠ 0 ∧ target ≠ 1 ∧ target ≠ -1 := by
  omega

/-- A signal is sent no earlier than the step it is in. -/
private theorem le_step_of_mem_termAll {ctx : Places} {T : Nat → Table} {i : Nat}
    {list : List Recorded}
    {s : Sent} (h : s ∈ (termAll ctx T i list).1) : i ≤ s.step := by
  induction list generalizing i with
  | nil => simp [termAll] at h
  | cons r rs ih =>
    cases hours : stillOurs ctx (T i) r with
    | none =>
      simp only [termAll, hours] at h
      exact Nat.le_of_succ_le (ih h)
    | some target =>
      simp only [termAll, hours] at h
      rcases List.mem_append.mp h with h | h
      · obtain ⟨-, rfl⟩ := mem_signalled.mp h
        exact Nat.le_refl _
      · exact Nat.le_of_succ_le (ih h)

/-- The first signal to a child goes out when the check at its step holds, whatever becomes of the
    other lines. -/
private theorem mem_termAll_iff (ctx : Places) (T : Nat → Table) (i : Nat) {list : List Recorded}
    (hlist : ∀ r ∈ list, 1 < r.pid) {k : Nat} {r : Recorded} (hk : list[k]? = some r) :
    (∃ s ∈ (termAll ctx T i list).1, s.step = i + k ∧ s.record = r ∧ s.sig = .term) ↔
      (stillOurs ctx (T (i + k)) r).isSome = true := by
  -- one record after the other: each is checked in the step of its own number
  induction list generalizing i k with
  | nil => simp at hk
  | cons r' rs ih =>
    rw [List.forall_mem_cons] at hlist
    -- the signals are the first record's, if it is still ours, and those of the others
    have hsent : (termAll ctx T i (r' :: rs)).1 =
        ((stillOurs ctx (T i) r').elim [] fun target => signalled i i r' target .term) ++
          (termAll ctx T (i + 1) rs).1 := by
      cases hours : stillOurs ctx (T i) r' <;> simp only [termAll, hours] <;> rfl
    -- the others come in later steps
    have hlater : ∀ s ∈ (termAll ctx T (i + 1) rs).1, s.step ≠ i := by
      intro s hs
      have := le_step_of_mem_termAll hs
      omega
    have hhead : ∀ s ∈ (stillOurs ctx (T i) r').elim [] fun target =>
        signalled i i r' target .term, s.step = i := by
      intro s hs
      cases hours : stillOurs ctx (T i) r' with
      | none => simp [hours] at hs
      | some target =>
        rw [hours] at hs
        obtain ⟨-, rfl⟩ := mem_signalled.mp hs
        rfl
    rw [hsent]
    cases k with
    -- the first record is this one
    | zero =>
      rw [List.getElem?_cons_zero, Option.some.injEq] at hk
      subst hk
      constructor
      · rintro ⟨s, hs, hstep, -⟩
        rcases List.mem_append.mp hs with hs | hs
        · by_contra hnone
          rw [Nat.add_zero, Bool.not_eq_true, Option.isSome_eq_false_iff,
            Option.isNone_iff_eq_none] at hnone
          rw [hnone] at hs
          cases hs
        · exact absurd hstep (hlater s hs)
      · intro hours
        obtain ⟨target, htarget⟩ := Option.isSome_iff_exists.mp hours
        rw [Nat.add_zero] at htarget
        obtain ⟨p, -, -, hcases⟩ := stillOurs_cases htarget
        have hne : target ≠ 0 ∧ target ≠ 1 ∧ target ≠ -1 :=
          target_ne hlist.1 (hcases.imp (fun h => h.2.2) fun h => h.2.2)
        refine ⟨⟨i, i, r', target, .term⟩, List.mem_append_left _ ?_, rfl, rfl, rfl⟩
        rw [htarget]
        exact mem_signalled.mpr ⟨by simp [allowed, hne], rfl⟩
    -- this one is among the others
    | succ k =>
      rw [List.getElem?_cons_succ] at hk
      have hrest := ih (i + 1) hlist.2 hk
      rw [Nat.add_right_comm, Nat.add_assoc] at hrest
      rw [← hrest]
      constructor
      · rintro ⟨s, hs, hstep, hr⟩
        rcases List.mem_append.mp hs with hs | hs
        · have := hhead s hs
          omega
        · exact ⟨s, hs, hstep, hr⟩
      · rintro ⟨s, hs, hstep, hr⟩
        exact ⟨s, List.mem_append_right _ hs, hstep, hr⟩

/-! ### The hook -/

/-- A recorded hook that is found is a process of that number, above one. -/
theorem hookLeader_cases {ctx : Places} {hook : Option Text} {T : Table} {pgid : Nat}
    {leader : Process} (h : hookLeader ctx hook T = some (pgid, leader)) :
    1 < pgid ∧ T.get pgid = some leader ∧ leader.group.pgid = pgid ∧
      leader.uids = (ctx.trustedOwner, ctx.trustedOwner) := by
  obtain ⟨⟨pid, start⟩, hrecord, h⟩ := Option.bind_eq_some_iff.mp h
  obtain ⟨p, hp, h⟩ := Option.bind_eq_some_iff.mp h
  obtain ⟨text, -, hparse⟩ := Option.bind_eq_some_iff.mp hrecord
  split at h
  · rename_i hcheck
    simp only [Option.some.injEq, Prod.mk.injEq] at h
    obtain ⟨rfl, rfl⟩ := h
    exact ⟨one_lt_of_parsePidStart hparse, hp, hcheck.2.1, hcheck.2.2.1⟩
  · cases h

/-- What is sent for a hook: two signals to its group. -/
theorem killOrphanedHook_eq {ctx : Places} {hook : Option Text} {T : Nat → Table} {i pgid : Nat}
    {leader : Process} (h : hookLeader ctx hook (T i) = some (pgid, leader)) :
    killOrphanedHook ctx hook T i =
      [⟨i, i, ⟨pgid, "hook", some leader.start⟩, -pgid, .term⟩,
        ⟨i + 1, i, ⟨pgid, "hook", some leader.start⟩, -pgid, .kill⟩] := by
  obtain ⟨hpgid, hleader, -, -⟩ := hookLeader_cases h
  have hallowed : allowed (-pgid) = true := by
    have := target_ne hpgid (.inl rfl : -(pgid : Int) = -pgid ∨ _)
    simp [allowed, this]
  simp only [killOrphanedHook, h, asI32_of_get hleader, signalled, hallowed, if_true,
    List.singleton_append]

/-- A hook is signalled in the first step or after the wait. -/
private theorem step_of_mem_killOrphanedHook {ctx : Places} {hook : Option Text} {T : Nat → Table}
    {i : Nat} {s : Sent} (h : s ∈ killOrphanedHook ctx hook T i) : s.step = i ∨ s.step = i + 1 := by
  unfold killOrphanedHook at h
  split at h
  · cases h
  · rcases List.mem_append.mp h with h | h
    · obtain ⟨-, rfl⟩ := mem_signalled.mp h
      exact .inl rfl
    · obtain ⟨-, rfl⟩ := mem_signalled.mp h
      exact .inr rfl

/-- **After the wait**: the signal reaches the group of the leader unless another group has its
    id. -/
theorem group_remains_iff {ctx : Places} {T T' : Table} {es : List Event} (hrun : Run T es T')
    {pgid : Nat} {leader : Process} (hleader : T.get pgid = some leader)
    (hleads : leader.group.pgid = pgid)
    (howner : leader.uids = (ctx.trustedOwner, ctx.trustedOwner)) :
    LeaderRemains ctx T' pgid leader ∨ MembersRemain T' pgid leader ↔ ¬ Taken es T' pgid := by
  have hserial := (T.numbered hleader).1
  have hfounder := T.founded hleader hleader hleads
  constructor
  · rintro hremain ⟨p, hmem, hown, i, q, hq, hgroup⟩
    -- the group that has the id now was founded by a process of the run
    have hid : q.group.pgid = pgid := by rw [hgroup, hown]
    have hnew : q.group.founder = p.serial := by rw [hgroup, hown]
    have hnext := hrun.next_le_of_spawn hmem
    rcases hremain with ⟨p', hp', hsame, -⟩ | ⟨-, hmembers⟩
    · have := T'.founded hp' hq hid
      omega
    · have hold : q.group = leader.group := by
        refine hmembers i q ⟨hq, ?_⟩
        rw [if_neg (by omega), hid]
        omega
      rw [hold] at hnew
      omega
  · intro hfree
    have hmember : ∀ i q, T'.get i = some q → q.group.pgid = pgid → q.group = leader.group := by
      intro i q hq hid
      rcases hrun.groups hq with ⟨j, p, hp, hpq⟩ | ⟨p, hmem, hpq, hfounder', -⟩
      · rw [← hpq] at hid ⊢
        exact T.together hp hleader (hid.trans hleads.symm)
      · refine absurd ⟨p, hid ▸ hmem, ?_, i, q, hq, hpq.symm⟩ hfree
        rw [hpq, ← hid, ← hfounder']
    by_cases hgone : ∀ p, T'.get pgid = some p → p.serial ≠ leader.serial
    · right
      refine ⟨hgone, fun i q hq => hmember i q hq.1 ?_⟩
      have hneg : ¬ 0 < -(pgid : Int) := by omega
      have := hq.2
      rw [if_neg hneg] at this
      omega
    · left
      push Not at hgone
      obtain ⟨p, hp, hsame⟩ := hgone
      rcases hrun.same hp with ⟨p', hp', hpp⟩ | hnext
      · rw [hleader, Option.some.injEq] at hp'
        subst hp'
        exact ⟨p, hp, hsame, hpp.start.symm, hpp.group ▸ hleads, hpp.uids ▸ howner⟩
      · omega

/-- So is the second signal to a hook. -/
theorem kill_ours_iff {ctx : Places} {hook : Option Text} {T : Nat → Table} {es : List Event}
    (hrun : Run (T 0) es (T 1)) {pgid : Nat} {leader : Process}
    (h : hookLeader ctx hook (T 0) = some (pgid, leader)) :
    Ours ctx T ⟨1, 0, ⟨pgid, "hook", some leader.start⟩, -pgid, .kill⟩ ↔
      ¬ Taken es (T 1) pgid := by
  obtain ⟨-, hget, hleads, howner⟩ := hookLeader_cases h
  rw [← group_remains_iff hrun hget hleads howner]
  constructor
  · intro hours
    cases hours with
    | group _ _ hleader' _ _ _ hgroup =>
      obtain rfl := Option.some.inj (hget.symm.trans hleader')
      exact hgroup
    | program hrecord => cases hrecord
  · exact fun hgroup => .group rfl rfl hget rfl hleads howner hgroup

/-- A hook that is found is killed after the wait. -/
theorem mem_cleanUp_hook {ctx : Places} {hook pids : Option Text} {T : Nat → Table} {pgid : Nat}
    {leader : Process} (h : hookLeader ctx hook (T 0) = some (pgid, leader)) :
    ⟨1, 0, ⟨pgid, "hook", some leader.start⟩, -pgid, .kill⟩ ∈ cleanUp ctx hook pids T := by
  rw [cleanUp, killOrphanedHook_eq h]
  simp

/-! ### The clean-up -/

/-- A malformed line changes nothing for the others. -/
private theorem parsePids_malformed {before after : List Text} {line : Text}
    (hlines : ∀ l ∈ before ++ line :: after, '\n' ∉ l) (hline : parsePid (stripCr line) = none) :
    parsePids (unlines (before ++ line :: after)) = parsePids (unlines (before ++ after)) := by
  have hothers : ∀ l ∈ before ++ after, '\n' ∉ l := by
    intro l hl
    refine hlines l ?_
    rcases List.mem_append.mp hl with h | h
    · exact List.mem_append_left _ h
    · exact List.mem_append_right _ (List.mem_cons_of_mem _ h)
  rw [parsePids, parsePids, strLines_unlines hlines, strLines_unlines hothers]
  simp [List.filterMap_append, hline]

/-- The last signal is a kill. -/
private theorem sig_of_mem_killAll {ctx : Places} {T : Nat → Table} {i : Nat}
    {targets : List (Recorded × Int)} {s : Sent} (h : s ∈ killAll ctx T i targets) :
    s.sig = .kill := by
  induction targets generalizing i with
  | nil => cases h
  | cons x targets ih =>
    rcases List.mem_append.mp h with h | h
    · split at h
      · obtain ⟨-, rfl⟩ := mem_signalled.mp h
        rfl
      · cases h
    · exact ih h

/-- **Only the window's own processes**: no id that stands for more is signalled, a child gets its
    signal whatever the other lines say, and a malformed line changes nothing; and every signal is
    for the recorded process or its group, unless the hook's group dies out in the wait and its id
    is given to another. -/
theorem cleanUp_ours_iff (ctx : Places) (hook pids : Option Text) (T : Nat → Table)
    {es : List Event} (hrun : Run (T 0) es (T 1)) :
    (∀ s ∈ cleanUp ctx hook pids T, s.target ≠ 0 ∧ s.target ≠ 1 ∧ s.target ≠ -1) ∧
    (∀ (k : Nat) (r : Recorded), (parsePids (pids.getD []))[k]? = some r →
      ((∃ s ∈ cleanUp ctx hook pids T, s.step = 2 + k ∧ s.record = r ∧ s.sig = .term) ↔
        (stillOurs ctx (T (2 + k)) r).isSome = true)) ∧
    (∀ (before after : List Text) (line : Text), (∀ l ∈ before ++ line :: after, '\n' ∉ l) →
      parsePid (stripCr line) = none →
        parsePids (unlines (before ++ line :: after)) = parsePids (unlines (before ++ after))) ∧
    ((∀ s ∈ cleanUp ctx hook pids T, Ours ctx T s) ↔
      ∀ pgid leader, hookLeader ctx hook (T 0) = some (pgid, leader) → ¬ Taken es (T 1) pgid) := by
  have hchildren := killChildren_checked ctx pids T 2
  refine ⟨fun s hs => ?_, fun k r hk => ?_, fun _ _ _ => parsePids_malformed, fun h => ?_,
    fun h s hs => ?_⟩
  · -- no signal is for a group of number zero or one, nor for all processes
    rcases List.mem_append.mp hs with hs | hs
    · cases hleader : hookLeader ctx hook (T 0) with
      | none => simp [killOrphanedHook, hleader] at hs
      | some found =>
        obtain ⟨pgid, leader⟩ := found
        rw [killOrphanedHook_eq hleader] at hs
        have hne := target_ne (hookLeader_cases hleader).1 (.inl rfl : -(pgid : Int) = -pgid ∨ _)
        simp only [List.mem_cons, List.not_mem_nil, or_false] at hs
        rcases hs with rfl | rfl <;> exact hne
    · obtain ⟨hrecord, -, hours⟩ := hchildren s hs
      obtain ⟨p, -, -, hcases⟩ := stillOurs_cases hours
      exact target_ne (one_lt_of_mem_parsePids hrecord) (hcases.imp (·.2.2) (·.2.2))
  · -- a recorded process is signalled where it is still ours
    have hlist : ∀ r ∈ parsePids (pids.getD []), 1 < r.pid := fun r hr => one_lt_of_mem_parsePids hr
    rw [← mem_termAll_iff ctx T 2 hlist hk]
    constructor
    · rintro ⟨s, hs, hstep, hr, hsig⟩
      rcases List.mem_append.mp hs with hs | hs
      · have := step_of_mem_killOrphanedHook hs
        omega
      · rcases List.mem_append.mp hs with hs | hs
        · exact ⟨s, hs, hstep, hr, hsig⟩
        · rw [sig_of_mem_killAll hs] at hsig
          cases hsig
    · rintro ⟨s, hs, h⟩
      exact ⟨s, List.mem_append_right _ (List.mem_append_left _ hs), h⟩
  · -- the second signal to the hook is for its own group, so no other took the number
    exact fun pgid leader hleader =>
      (kill_ours_iff hrun hleader).mp (h _ (mem_cleanUp_hook hleader))
  · rcases List.mem_append.mp hs with hs | hs
    · cases hleader : hookLeader ctx hook (T 0) with
      | none => simp [killOrphanedHook, hleader] at hs
      | some found =>
        obtain ⟨pgid, leader⟩ := found
        obtain ⟨-, hget, hleads, howner⟩ := hookLeader_cases hleader
        rw [killOrphanedHook_eq hleader] at hs
        simp only [List.mem_cons, List.not_mem_nil, or_false] at hs
        -- the first signal follows the check at once, the second after the wait
        rcases hs with rfl | rfl
        · exact .group rfl rfl hget rfl hleads howner
            (.inl ⟨leader, hget, rfl, rfl, hleads, howner⟩)
        · exact (kill_ours_iff hrun hleader).mpr (h pgid leader hleader)
    · obtain ⟨-, hstep, hours⟩ := hchildren s hs
      exact .of_check hstep hours

/-! ### A reused id -/

/-- A process that leads a group of its own. -/
def sampleLeader (serial start : Nat) : Process :=
  ⟨serial, start, ⟨100, serial⟩, (0, 0), 'S', [], none⟩

/-- No process. -/
def Table.empty : Table where
  get _ := none
  next := 0
  bounded h := by cases h
  numbered h := by cases h
  together h := by cases h
  founded h := by cases h

/-- A hook runs. -/
def sampleBefore : Table :=
  Table.empty.spawn 100 (sampleLeader 0 5)
    { bounded := by decide
      free := rfl
      unused := fun h => by cases h
      serial := rfl
      group := .inl rfl }

/-- The hook has exited. -/
def sampleGone : Table :=
  (sampleBefore.change 100 ({ · with state := 'Z' }) fun _ => ⟨rfl, rfl, rfl, rfl⟩).reap 100

/-- Nothing is left in the table. -/
theorem sampleGone_get (i : Nat) : sampleGone.get i = none := by
  show (if i = 100 then none
    else if i = 100 then _ else Function.update (fun _ => none) 100 _ i) = none
  by_cases h : i = 100
  · rw [if_pos h]
  · rw [if_neg h, if_neg h, Function.update_of_ne h]

/-- Another process may come under the number. -/
theorem sampleGone_starts : sampleGone.Starts 100 (sampleLeader 1 9) where
  bounded := by decide
  free := sampleGone_get 100
  unused {i q} h := by simp [sampleGone_get i] at h
  serial := rfl
  group := .inl rfl

/-- Another process has started under its id. -/
def sampleAfter : Table := sampleGone.spawn 100 (sampleLeader 1 9) sampleGone_starts

/-- The events between the two signals to the hook. -/
def sampleEvents : List Event := [.exit 100, .reap 100, .spawn 100 (sampleLeader 1 9)]

/-- The table at the steps of the helper. -/
def sampleTables (i : Nat) : Table := if i = 0 then sampleBefore else sampleAfter

/-- The other process comes in the wait. -/
theorem sampleRun : Run (sampleTables 0) sampleEvents (sampleTables 1) :=
  .cons (.exit sampleBefore 100) (.cons (.reap _ 100)
    (.cons (.spawn sampleGone 100 _ sampleGone_starts) (.nil sampleAfter)))

/-- The helper of an installed system. -/
def samplePlaces : Places := ⟨utf8 "/usr/lib/omdrop", utf8 "/usr/lib/omdrop/hooks", none, 0, false⟩

/-- The hook is found before. -/
theorem sample_hookLeader :
    hookLeader samplePlaces (some "100 5") (sampleTables 0) = some (100, sampleLeader 0 5) := by
  decide +kernel

/-- **A group that nobody recorded**: the hook's group is gone after the first signal, its id is
    given to another, and the second signal kills that. -/
theorem cleanUp_hits_another : ¬ ∀ (ctx : Places) (hook pids : Option Text) (T : Nat → Table)
    (es : List Event), Run (T 0) es (T 1) → ∀ s ∈ cleanUp ctx hook pids T, Ours ctx T s := by
  intro h
  have htaken : Taken sampleEvents (sampleTables 1) 100 :=
    ⟨sampleLeader 1 9, by simp [sampleEvents], rfl, 100, sampleLeader 1 9, rfl, rfl⟩
  have hkill := h samplePlaces (some "100 5") none sampleTables sampleEvents sampleRun _
    (mem_cleanUp_hook sample_hookLeader)
  exact (kill_ours_iff sampleRun sample_hookLeader).mp hkill htaken

/-! ### A group that stays -/

/-- A process that the hook started in its group. -/
def sampleMember : Process := ⟨1, 6, ⟨100, 0⟩, (0, 0), 'S', [], none⟩

private theorem sampleBefore_starts : sampleBefore.Starts 101 sampleMember where
  bounded := by decide
  free := rfl
  unused {i q} h := by
    rcases Table.get_cases h with ⟨-, rfl⟩ | ⟨-, h⟩
    · decide
    · cases h
  serial := rfl
  group := .inr ⟨100, sampleLeader 0 5, rfl, rfl⟩

/-- A hook runs, and a process of its group. -/
def samplePair : Table := sampleBefore.spawn 101 sampleMember sampleBefore_starts

/-- The hook has exited, and the other process has not. -/
def sampleLeft : Table :=
  (samplePair.change 100 ({ · with state := 'Z' }) fun _ => ⟨rfl, rfl, rfl, rfl⟩).reap 100

/-- Where the hook exits in the wait and a process of its group stays, the second signal is for the
    hook's group still. -/
theorem cleanUp_ours_member :
    let T : Nat → Table := fun i => if i = 0 then samplePair else sampleLeft
    Run (T 0) [.exit 100, .reap 100] (T 1) ∧ (T 1).get 100 = none ∧
      (T 1).get 101 = some sampleMember ∧
      Ours samplePlaces T ⟨1, 0, ⟨100, "hook", some 5⟩, -100, .kill⟩ := by
  intro T
  have hrun : Run (T 0) [.exit 100, .reap 100] (T 1) :=
    .cons (.exit samplePair 100) (.cons (.reap _ 100) (.nil sampleLeft))
  have hquiet : ∀ pgid leader, hookLeader samplePlaces (some "100 5") (T 0) =
      some (pgid, leader) → ¬ Taken [.exit 100, .reap 100] (T 1) pgid := by
    rintro pgid leader - ⟨p, hmem, -⟩
    simp at hmem
  have hleader : hookLeader samplePlaces (some "100 5") (T 0) =
      some (100, sampleLeader 0 5) := by decide +kernel
  have hkill : ⟨1, 0, ⟨100, "hook", some 5⟩, -100, .kill⟩ ∈
      cleanUp samplePlaces (some "100 5") none T :=
    @mem_cleanUp_hook _ _ none T 100 (sampleLeader 0 5) hleader
  exact ⟨hrun, rfl, rfl,
    (cleanUp_ours_iff samplePlaces (some "100 5") none T hrun).2.2.2.mpr hquiet _ hkill⟩

end Omdrop.Radio
