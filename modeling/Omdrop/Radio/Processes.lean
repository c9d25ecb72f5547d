import Mathlib.Algebra.Ring.Nat
import Mathlib.Logic.Function.Basic

namespace Omdrop.Radio

/-!
# Processes

The table of processes and how it changes on its own: processes exit, are collected, run another
program and start.  A new process is in the group of one that is there or in a group of its own
under its id, and an id is not given out while a process or a group has it.  Every process has a
number that no other has had, which the kernel does not show, and a group is told from a later one
under the same id by the number of the process that founded it.

`Run.same` says where the processes of a table come from, and `Run.groups` where its groups do.
-/

/-- A process group: its id, and the number of the process that founded it. -/
structure Group where
  pgid : Nat
  founder : Nat
deriving DecidableEq

/-- What there is to know of a process. -/
structure Process where
  serial : Nat
  start : Nat
  group : Group
  /-- the real and the effective user -/
  uids : Nat × Nat
  state : Char
  cmdline : List UInt8
  exe : Option (List UInt8)
deriving DecidableEq

/-- The processes by their ids.  `next` is the number of the next one. -/
structure Table where
  get : Nat → Option Process
  next : Nat
  bounded : ∀ {i p}, get i = some p → 0 < i ∧ i < 2 ^ 22
  numbered : ∀ {i p}, get i = some p → p.serial < next ∧ p.group.founder < next
  /-- an id is that of one group at a time -/
  together : ∀ {i j p q}, get i = some p → get j = some q → p.group.pgid = q.group.pgid →
    p.group = q.group
  /-- the process that has the id of a group founded it -/
  founded : ∀ {i j p q}, get i = some p → get j = some q → q.group.pgid = i →
    q.group.founder = p.serial

/-- One and the same process, whatever it runs. -/
structure Same (p q : Process) : Prop where
  serial : p.serial = q.serial
  start : p.start = q.start
  group : p.group = q.group
  uids : p.uids = q.uids

theorem Same.refl (p : Process) : Same p p := ⟨rfl, rfl, rfl, rfl⟩

theorem Same.trans {p q r : Process} (h : Same p q) (h' : Same q r) : Same p r :=
  ⟨h.serial.trans h'.serial, h.start.trans h'.start, h.group.trans h'.group, h.uids.trans h'.uids⟩

namespace Table

/-- A table with no other processes than there were. -/
def keep (T : Table) (get : Nat → Option Process)
    (h : ∀ {i q}, get i = some q → ∃ p, T.get i = some p ∧ Same p q) : Table where
  get := get
  next := T.next
  bounded hq := by
    obtain ⟨p, hp, -⟩ := h hq
    exact T.bounded hp
  numbered hq := by
    obtain ⟨p, hp, hpq⟩ := h hq
    rw [← hpq.serial, ← hpq.group]
    exact T.numbered hp
  together hq hq' hid := by
    obtain ⟨p, hp, hpq⟩ := h hq
    obtain ⟨p', hp', hpq'⟩ := h hq'
    rw [← hpq.group, ← hpq'.group] at hid ⊢
    exact T.together hp hp' hid
  founded hq hq' hid := by
    obtain ⟨p, hp, hpq⟩ := h hq
    obtain ⟨p', hp', hpq'⟩ := h hq'
    rw [← hpq'.group] at hid ⊢
    rw [← hpq.serial]
    exact T.founded hp hp' hid

/-- A process that exits, or that runs another program. -/
def change (T : Table) (pid : Nat) (f : Process → Process) (hf : ∀ p, Same p (f p)) : Table :=
  T.keep (fun i => if i = pid then (T.get i).map f else T.get i) fun {i q} h => by
    split at h
    · obtain ⟨p, hp, rfl⟩ := Option.map_eq_some_iff.mp h
      exact ⟨p, hp, hf p⟩
    · exact ⟨q, h, Same.refl q⟩

/-- A process that is collected. -/
def reap (T : Table) (pid : Nat) : Table :=
  T.keep (fun i => if i = pid then none else T.get i) fun {i q} h => by
    split at h
    · cases h
    · exact ⟨q, h, Same.refl q⟩

/-- May a process start under an id? -/
structure Starts (T : Table) (pid : Nat) (p : Process) : Prop where
  bounded : 0 < pid ∧ pid < 2 ^ 22
  free : T.get pid = none
  unused : ∀ {i q}, T.get i = some q → q.group.pgid ≠ pid
  serial : p.serial = T.next
  group : p.group = ⟨pid, p.serial⟩ ∨ ∃ i q, T.get i = some q ∧ p.group = q.group

theorem get_cases {get : Nat → Option Process} {pid i : Nat} {p q : Process}
    (h : Function.update get pid (some p) i = some q) :
    i = pid ∧ q = p ∨ i ≠ pid ∧ get i = some q := by
  by_cases hi : i = pid
  · subst hi
    rw [Function.update_self, Option.some.injEq] at h
    exact .inl ⟨rfl, h.symm⟩
  · rw [Function.update_of_ne hi] at h
    exact .inr ⟨hi, h⟩

/-- A process that starts. -/
def spawn (T : Table) (pid : Nat) (p : Process) (h : T.Starts pid p) : Table where
  get := Function.update T.get pid (some p)
  next := T.next + 1
  bounded hq := by
    rcases get_cases hq with ⟨rfl, -⟩ | ⟨-, hq⟩
    · exact h.bounded
    · exact T.bounded hq
  numbered hq := by
    rcases get_cases hq with ⟨-, rfl⟩ | ⟨-, hq⟩
    · have hserial := h.serial
      rcases h.group with hg | ⟨i, q, hq, hg⟩
      · rw [hg]
        exact ⟨by omega, by simp only; omega⟩
      · have := T.numbered hq
        rw [hg]
        omega
    · have := T.numbered hq
      omega
  together {i j q r} hq hr hid := by
    have hown : ∀ {k s}, T.get k = some s → p.group.pgid = s.group.pgid → p.group = s.group := by
      intro k s hs hid
      rcases h.group with hg | ⟨k', s', hs', hg⟩
      · rw [hg] at hid
        exact absurd hid.symm (h.unused hs)
      · rw [hg] at hid ⊢
        exact T.together hs' hs hid
    rcases get_cases hq with ⟨-, rfl⟩ | ⟨-, hold⟩ <;>
      rcases get_cases hr with ⟨-, rfl⟩ | ⟨-, hold'⟩
    · rfl
    · exact hown hold' hid
    · exact (hown hold hid.symm).symm
    · exact T.together hold hold' hid
  founded {i j q r} hq hr hid := by
    rcases get_cases hq with ⟨rfl, rfl⟩ | ⟨hi, hold⟩ <;>
      rcases get_cases hr with ⟨rfl, rfl⟩ | ⟨-, hold'⟩
    · rcases h.group with hg | ⟨k, s, hs, hg⟩
      · rw [hg]
      · rw [hg] at hid
        exact absurd hid (h.unused hs)
    · exact absurd hid (h.unused hold')
    · rcases h.group with hg | ⟨k, s, hs, hg⟩
      · rw [hg] at hid
        exact absurd hid.symm hi
      · rw [hg] at hid ⊢
        exact T.founded hold hs hid
    · exact T.founded hold hold' hid

end Table

/-! ### Runs -/

/-- What may happen to the table. -/
inductive Event
  | exit (pid : Nat)
  | exec (pid : Nat) (cmdline : List UInt8) (exe : Option (List UInt8))
  | reap (pid : Nat)
  | spawn (pid : Nat) (p : Process)

/-- One event. -/
inductive Step : Table → Event → Table → Prop
  | exit (T : Table) (pid : Nat) :
      Step T (.exit pid) (T.change pid ({ · with state := 'Z' }) fun _ => ⟨rfl, rfl, rfl, rfl⟩)
  | exec (T : Table) (pid : Nat) (cmdline : List UInt8) (exe : Option (List UInt8)) :
      Step T (.exec pid cmdline exe)
        (T.change pid ({ · with cmdline := cmdline, exe := exe }) fun _ => ⟨rfl, rfl, rfl, rfl⟩)
  | reap (T : Table) (pid : Nat) : Step T (.reap pid) (T.reap pid)
  | spawn (T : Table) (pid : Nat) (p : Process) (h : T.Starts pid p) :
      Step T (.spawn pid p) (T.spawn pid p h)

/-- Events one after the other. -/
inductive Run : Table → List Event → Table → Prop
  | nil (T : Table) : Run T [] T
  | cons {T T' T'' : Table} {e : Event} {es : List Event} (h : Step T e T') (hs : Run T' es T'') :
      Run T (e :: es) T''

/-- After an event there are the processes of before, and the one that it started. -/
theorem Step.same {T T' : Table} {e : Event} (h : Step T e T') {i : Nat} {q : Process}
    (hq : T'.get i = some q) :
    (∃ p, T.get i = some p ∧ Same p q) ∨ e = .spawn i q ∧ T.Starts i q := by
  have hchange : ∀ {pid : Nat} {f : Process → Process} {hf : ∀ p, Same p (f p)},
      (T.change pid f hf).get i = some q → ∃ p, T.get i = some p ∧ Same p q := by
    intro pid f hf hq
    change (if i = pid then (T.get i).map f else T.get i) = some q at hq
    split at hq
    · obtain ⟨p, hp, rfl⟩ := Option.map_eq_some_iff.mp hq
      exact ⟨p, hp, hf p⟩
    · exact ⟨q, hq, Same.refl q⟩
  cases h with
  | exit pid => exact .inl (hchange hq)
  | exec pid => exact .inl (hchange hq)
  | reap pid =>
    change (if i = pid then none else T.get i) = some q at hq
    split at hq
    · cases hq
    · exact .inl ⟨q, hq, Same.refl q⟩
  | spawn pid p hstarts =>
    rcases Table.get_cases hq with ⟨rfl, rfl⟩ | ⟨-, hq⟩
    · exact .inr ⟨rfl, hstarts⟩
    · exact .inl ⟨q, hq, Same.refl q⟩

theorem Step.next_le {T T' : Table} {e : Event} (h : Step T e T') : T.next ≤ T'.next := by
  cases h with
  | exit => exact Nat.le_refl _
  | exec => exact Nat.le_refl _
  | reap => exact Nat.le_refl _
  | spawn => exact Nat.le_succ _

/-- A process that starts in a run has a number from the run on. -/
theorem Run.next_le_of_spawn {T T' : Table} {es : List Event} (h : Run T es T') {pid : Nat}
    {p : Process} (hp : .spawn pid p ∈ es) : T.next ≤ p.serial := by
  induction h with
  | nil => cases hp
  | cons hstep _ ih =>
    rcases List.mem_cons.mp hp with rfl | hp
    · cases hstep with
      | spawn _ _ hstarts => exact Nat.le_of_eq hstarts.serial.symm
    · exact Nat.le_trans hstep.next_le (ih hp)

/-- **Where processes come from**: a process was there at the start of a run, or has a number from
    the run on. -/
theorem Run.same {T T' : Table} {es : List Event} (h : Run T es T') {i : Nat} {q : Process}
    (hq : T'.get i = some q) : (∃ p, T.get i = some p ∧ Same p q) ∨ T.next ≤ q.serial := by
  induction h with
  | nil => exact .inl ⟨q, hq, Same.refl q⟩
  | cons hstep _ ih =>
    rcases ih hq with ⟨p, hp, hpq⟩ | hnext
    · rcases hstep.same hp with ⟨p', hp', hpp⟩ | ⟨-, hstarts⟩
      · exact .inl ⟨p', hp', hpp.trans hpq⟩
      · exact .inr (Nat.le_of_eq (hstarts.serial.symm.trans hpq.serial))
    · exact .inr (Nat.le_trans hstep.next_le hnext)

/-- **Where groups come from**: a group was there at the start of a run, or was founded in it by a
    process that started under its id. -/
theorem Run.groups {T T' : Table} {es : List Event} (h : Run T es T') {i : Nat} {q : Process}
    (hq : T'.get i = some q) :
    (∃ j p, T.get j = some p ∧ p.group = q.group) ∨
      ∃ p, .spawn q.group.pgid p ∈ es ∧ p.group = q.group ∧ q.group.founder = p.serial ∧
        T.next ≤ p.serial := by
  induction h generalizing i q with
  | nil => exact .inl ⟨i, q, hq, rfl⟩
  | @cons T₀ T₁ T₂ e es hstep hrun ih =>
    rcases ih hq with ⟨j, p, hp, hpq⟩ | ⟨p, hmem, hpq, hfounder, hnext⟩
    · rcases hstep.same hp with ⟨p', hp', hpp⟩ | ⟨rfl, hstarts⟩
      · exact .inl ⟨j, p', hp', hpp.group.trans hpq⟩
      · rcases hstarts.group with hg | ⟨k, r, hr, hg⟩
        · refine .inr ⟨p, ?_, hpq, ?_, Nat.le_of_eq hstarts.serial.symm⟩
          · rw [← hpq, hg]
            exact List.mem_cons_self
          · rw [← hpq, hg]
        · exact .inl ⟨k, r, hr, hg.symm.trans hpq⟩
    · exact .inr ⟨p, List.mem_cons_of_mem _ hmem, hpq, hfounder,
        Nat.le_trans hstep.next_le hnext⟩

end Omdrop.Radio
