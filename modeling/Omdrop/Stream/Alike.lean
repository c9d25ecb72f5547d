import Omdrop.Machine.Alike
import Omdrop.Stream.Read

namespace Omdrop.Stream

open Fallible

/-!
# Two sources side by side

Sources that give the same answers give the same outcome to every loop over them.  `Alike same
gone` says that they do as long as `same` relates them; `gone` is what relates them after a
failure, when nothing is read any more.
-/

variable {γ π R T : Type}

/-! ### One turn of a loop -/

section Turns

variable [Read γ π R] {c : γ} {r r' : R} {want limit : Nat} {acc bs : List UInt8} {b : UInt8}
  {e : IoError π} {chunk : ℕ+}

/-- An empty read ends a full one. -/
private theorem readFull_of_nil (hw : want ≠ 0) (h : Read.read c want r = (.ok [], r')) :
    readFull c want acc r = (.ok acc, r') := by
  rw [readFull, if_neg hw]
  split <;> rename_i h' <;> rw [h] at h' <;> cases h'
  rfl

/-- A full read goes on after some bytes. -/
private theorem readFull_of_cons (hw : want ≠ 0) (h : Read.read c want r = (.ok (b :: bs), r')) :
    readFull c want acc r = readFull c (want - (b :: bs).length) (acc ++ b :: bs) r' := by
  rw [readFull, if_neg hw]
  split <;> rename_i h' <;> rw [h] at h' <;> cases h'
  rfl

/-- A full read goes on after an interruption, and fails with any other error. -/
theorem readFull_of_error (hw : want ≠ 0) (h : Read.read c want r = (.error e, r')) :
    readFull c want acc r =
      if e.isInterrupted then readFull c want acc r' else (.error e, r') := by
  rw [readFull, if_neg hw]
  split <;> rename_i h' <;> rw [h] at h' <;> cases h'
  rfl

/-- An empty read ends a copy. -/
private theorem copyTake_of_nil (hl : limit ≠ 0)
    (h : Read.read c (min chunk limit) r = (.ok [], r')) :
    copyTake c chunk limit acc r = (.ok (), acc, r') := by
  rw [copyTake, if_neg hl]
  split <;> rename_i h' <;> rw [h] at h' <;> cases h'
  rfl

/-- A copy goes on after some bytes. -/
private theorem copyTake_of_cons (hl : limit ≠ 0)
    (h : Read.read c (min chunk limit) r = (.ok (b :: bs), r')) :
    copyTake c chunk limit acc r =
      copyTake c chunk (limit - (b :: bs).length) (acc ++ b :: bs) r' := by
  rw [copyTake, if_neg hl]
  split <;> rename_i h' <;> rw [h] at h' <;> cases h'
  rfl

/-- A copy goes on after an interruption, and fails with any other error. -/
theorem copyTake_of_error (hl : limit ≠ 0) (h : Read.read c (min chunk limit) r = (.error e, r')) :
    copyTake c chunk limit acc r =
      if e.isInterrupted then copyTake c chunk limit acc r' else (.error e, acc, r') := by
  rw [copyTake, if_neg hl]
  split <;> rename_i h' <;> rw [h] at h' <;> cases h'
  rfl

end Turns

/-! ### Side by side -/

/-- Sources that `same` relates give the same answer to a call. -/
def Alike [Read γ π R] [Read γ π T] (same : R → T → Prop) (gone : IoError π → R → T → Prop) :
    Prop :=
  ∀ c n r t, same r t → Same (fun _ => same)
    (fun e r t => if e.isInterrupted then same r t else gone e r t)
    (Read.read c n r) (Read.read c n t)

namespace Alike

variable {same : R → T → Prop} {gone : IoError π → R → T → Prop} {c : γ}

section Loops

variable [Read γ π R] [Read γ π T]

/-- What fails alike may fail in more ways. -/
theorem imp {gone' : IoError π → R → T → Prop} (h : Alike same gone)
    (hgone : ∀ e r t, gone e r t → gone' e r t) : Alike same gone' := by
  intro c n r t hrt
  refine (h c n r t hrt).imp (fun _ _ _ h => h) fun e r t h => ?_
  split at h
  · rw [if_pos ‹_›]
    exact h
  · rw [if_neg ‹_›]
    exact hgone e r t h

/-- Full reads are alike. -/
theorem readFull (h : Alike same gone) (want : Nat) (acc : List UInt8) {r : R} {t : T}
    (hrt : same r t) : Same (fun _ => same) gone (Stream.readFull c want acc r)
      (Stream.readFull c want acc t) := by
  fun_induction Stream.readFull c want acc r generalizing t with
  | case1 acc r =>
    -- as many bytes are there as were wanted
    rw [Stream.readFull, if_pos rfl]
    exact ⟨rfl, hrt⟩
  | case2 want acc r hw r' hr =>
    -- the source is at its end
    obtain ⟨t', ht, hrt'⟩ := (h c want r t hrt).exists hr
    rw [readFull_of_nil hw ht]
    exact ⟨rfl, hrt'⟩
  | case3 want acc r hw b bs r' hr ih =>
    -- some bytes come, and more are wanted
    obtain ⟨t', ht, hrt'⟩ := (h c want r t hrt).exists hr
    rw [readFull_of_cons hw ht]
    exact ih hrt'
  | case4 want acc r hw e r' hr hi ih =>
    -- an interrupted read is made again
    obtain ⟨t', ht, hrt'⟩ := (h c want r t hrt).exists hr
    rw [readFull_of_error hw ht, if_pos hi]
    rw [Related, if_pos hi] at hrt'
    exact ih hrt'
  | case5 want acc r hw e r' hr hi =>
    -- any other failure ends it
    obtain ⟨t', ht, hrt'⟩ := (h c want r t hrt).exists hr
    rw [readFull_of_error hw ht, if_neg hi]
    rw [Related, if_neg hi] at hrt'
    exact ⟨rfl, hrt'⟩

/-- A copy ends alike, and has copied the same. -/
theorem copyTake (h : Alike same gone) (chunk : ℕ+) (limit : Nat) (copied : List UInt8) {r : R}
    {t : T} (hrt : same r t) : ∃ res out r' t',
      Stream.copyTake c chunk limit copied r = (res, out, r') ∧
      Stream.copyTake c chunk limit copied t = (res, out, t') ∧
      Related (fun _ => same) gone res r' t' := by
  fun_induction Stream.copyTake c chunk limit copied r generalizing t with
  | case1 copied r =>
    rw [Stream.copyTake, if_pos rfl]
    exact ⟨_, _, _, _, rfl, rfl, hrt⟩
  | case2 limit copied r hl r' hr =>
    obtain ⟨t', ht, hrt'⟩ := (h c _ r t hrt).exists hr
    exact ⟨_, _, _, _, rfl, copyTake_of_nil hl ht, hrt'⟩
  | case3 limit copied r hl b bs r' hr ih =>
    obtain ⟨t', ht, hrt'⟩ := (h c _ r t hrt).exists hr
    rw [copyTake_of_cons hl ht]
    exact ih hrt'
  | case4 limit copied r hl e r' hr hi ih =>
    obtain ⟨t', ht, hrt'⟩ := (h c _ r t hrt).exists hr
    rw [copyTake_of_error hl ht, if_pos hi]
    rw [Related, if_pos hi] at hrt'
    exact ih hrt'
  | case5 limit copied r hl e r' hr hi =>
    obtain ⟨t', ht, hrt'⟩ := (h c _ r t hrt).exists hr
    rw [copyTake_of_error hl ht, if_neg hi]
    rw [Related, if_neg hi] at hrt'
    exact ⟨_, _, _, _, rfl, rfl, hrt'⟩

end Loops

/-- To read all is alike. -/
theorem drain [FiniteRead γ π R] [FiniteRead γ π T] (h : Alike same gone) (room : Nat → ℕ+)
    (k : Nat) (acc : List UInt8) {r : R} {t : T} (hrt : same r t) :
    Same (fun _ => same) gone (Stream.drain c room k acc r)
      (Stream.drain c room k acc t) := by
  fun_induction Stream.drain c room k acc r generalizing t with
  | case1 k acc r r' hr =>
    obtain ⟨t', ht, hrt'⟩ := (h c _ r t hrt).exists hr
    rw [Stream.drain.eq_def c room k acc t]
    split <;> rename_i ht' <;> rw [ht] at ht' <;> cases ht'
    exact ⟨rfl, hrt'⟩
  | case2 k acc r b bs r' hr ih =>
    obtain ⟨t', ht, hrt'⟩ := (h c _ r t hrt).exists hr
    rw [Stream.drain.eq_def c room k acc t]
    split <;> rename_i ht' <;> rw [ht] at ht' <;> cases ht'
    exact ih hrt'
  | case3 k acc r e r' hr hi ih =>
    obtain ⟨t', ht, hrt'⟩ := (h c _ r t hrt).exists hr
    rw [Related, if_pos hi] at hrt'
    rw [Stream.drain.eq_def c room k acc t]
    split <;> rename_i ht' <;> rw [ht] at ht' <;> cases ht'
    rw [if_pos hi]
    exact ih hrt'
  | case4 k acc r e r' hr hi =>
    obtain ⟨t', ht, hrt'⟩ := (h c _ r t hrt).exists hr
    rw [Related, if_neg hi] at hrt'
    rw [Stream.drain.eq_def c room k acc t]
    split <;> rename_i ht' <;> rw [ht] at ht' <;> cases ht'
    rw [if_neg hi]
    exact ⟨rfl, hrt'⟩

end Alike

end Omdrop.Stream
