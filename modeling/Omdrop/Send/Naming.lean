import Mathlib.Data.List.Nodup
import Mathlib.Tactic.SplitIfs
import Omdrop.Machine.Inevitable
import Omdrop.Machine.Run

namespace Omdrop.Send

/-!
# Asking peers for names

`peer_names` asks every peer at once, each on a thread of its own, and takes in their answers while
the table is read again.  Here the threads answer in any order and at any time, between any two
steps of the loop.  `peerNames_exact` says that nobody is lost and nobody repeated.
-/

/-- Where the loop is: going through the peers that it has just heard of, at its condition, waiting
    for an answer, taking the other answers that are there, handling what it got, at the rescan, or
    over. -/
inductive Point
  | asking
  | head
  | receive
  | drain
  | handle
  | rescan
  | returned
  deriving DecidableEq

/-- A lookup: the peers still to go through, those asked, those that have yet to answer, the answers
    on their way, how many are outstanding, the answers that were received and are to be handled,
    those that were reported, and those that will be returned.  For the record: every peer that the
    loop has heard of, every query that was made, and every answer that was given. -/
structure Naming (α β : Type) where
  point : Point
  todo : List α
  asked : List α
  flight : List α
  channel : List (α × β)
  pending : Int
  got : List (α × β)
  reported : List (α × β)
  results : List (α × β)
  heard : List α
  queries : List α
  sent : List (α × β)

/-- What the loop meets: whether it waits in vain, whether the wake lasts, and who is heard. -/
structure Meets (α : Type) where
  timedOut : Bool
  awake : Bool
  heard : List α

/-- What can happen next: a peer answers, or the loop makes a step. -/
inductive NamingEvent (α β : Type)
  | answer (mac : α) (name : β)
  | loop (meets : Meets α)

namespace Naming

variable {α β : Type}

/-- A lookup of some peers, as it starts. -/
def start (macs : List α) : Naming α β :=
  ⟨.asking, macs, [], [], [], 0, [], [], [], macs, [], []⟩

/-- Nobody is asked twice; who was asked has yet to answer, or the answer is on its way, received or
    a result; and that many are outstanding. -/
structure Sound (s : Naming α β) : Prop where
  asked : ∀ m, m ∈ s.asked ↔ m ∈ s.queries
  nodup : s.queries.Nodup
  heard : ∀ m, m ∈ s.heard ↔ m ∈ s.queries ∨ m ∈ s.todo
  sent : s.results ++ s.got ++ s.channel = s.sent
  perm : (s.sent.map Prod.fst ++ s.flight).Perm s.queries
  pending : s.pending = s.flight.length + s.channel.length + s.got.length
  reported : s.reported = s.results
  todo : s.point ≠ .asking → s.todo = []
  got : s.point ≠ .drain → s.point ≠ .handle → s.got = []
  waiting : s.point = .receive → 0 < s.pending
  ended : s.point = .returned → s.pending = 0

/-- Before it starts, nothing is asked and nothing is answered. -/
private theorem sound_start (macs : List α) : (start macs : Naming α β).Sound where
  asked _ := Iff.rfl
  nodup := List.nodup_nil
  heard _ := by simp [start]
  sent := rfl
  perm := List.Perm.refl _
  pending := rfl
  reported := rfl
  todo h := absurd rfl h
  got _ _ := rfl
  waiting h := by cases h
  ended h := by cases h

/-- Every peer asked has answered, and none is to be gone through that was not asked. -/
structure Quiet (s : Naming α β) : Prop where
  sound : s.Sound
  flight : s.flight = []
  todo : ∀ m ∈ s.todo, m ∈ s.asked

/-- The table holds no newcomers, if it is read again and the wake lasts. -/
def NoNewcomers (rescans : Bool) (s : Naming α β) (meets : Meets α) : Prop :=
  (rescans && meets.awake) = true → ∀ m ∈ meets.heard, m ∈ s.asked

/-- How far a point is from the next answer to be handled. -/
def rank (s : Naming α β) : Nat :=
  match s.point with
  | .asking   => 4
  | .head     => 3
  | .receive  => 2
  | .drain    => if s.got = [] ∧ s.channel = [] then 7 else 1
  | .handle   => if s.got = [] then 6 else 0
  | .rescan   => 5
  | .returned => 0

/-- What is left at a point. -/
def left (s : Naming α β) : Nat :=
  match s.point with
  | .asking => s.todo.length
  | .drain  => s.channel.length
  | _       => 0

/-- What every step of a quiet lookup makes smaller: the answers outstanding, how far the next one
    is, and what is left before the next point. -/
def measure (s : Naming α β) : Nat × Nat × Nat := (s.pending.toNat, s.rank, s.left)

/-- One triple is before another. -/
def Before : Nat × Nat × Nat → Nat × Nat × Nat → Prop :=
  Prod.Lex (· < ·) (Prod.Lex (· < ·) (· < ·))

/-- Fewer pending answers are a smaller measure, whatever else grows. -/
private theorem before_of_pending {s s' : Naming α β} (h : s'.pending.toNat < s.pending.toNat) :
    Before s'.measure s.measure := .left _ _ h

/-- With as many answers pending, a later point of the loop is a smaller measure. -/
theorem before_of_rank {s s' : Naming α β} (hpending : s'.pending = s.pending)
    (h : s'.rank < s.rank) : Before s'.measure s.measure := by
  unfold Before measure
  rw [hpending]
  exact .right _ (.left _ _ h)

/-- At the same point, less left to do is a smaller measure. -/
theorem before_of_left {s s' : Naming α β} (hpending : s'.pending = s.pending)
    (hrank : s'.rank = s.rank) (h : s'.left < s.left) : Before s'.measure s.measure := by
  unfold Before measure
  rw [hpending, hrank]
  exact .right _ (.right _ h)

variable [DecidableEq α]

/-- A peer that was asked and has not answered does. -/
def answer (mac : α) (name : β) (s : Naming α β) : Naming α β :=
  if mac ∈ s.flight then { s with
    flight := s.flight.erase mac
    channel := s.channel ++ [(mac, name)]
    sent := s.sent ++ [(mac, name)] }
  else s

/-- The next step of the loop; `rescans` tells whether the table is read again. -/
def loop (rescans : Bool) (meets : Meets α) (s : Naming α β) : Naming α β :=
  match s.point with
  | .asking   =>
    match s.todo with
    | []        => { s with point := .head }
    | m :: todo =>
      if m ∈ s.asked then { s with todo }
      else { s with
        todo
        asked := m :: s.asked
        flight := s.flight ++ [m]
        queries := s.queries ++ [m]
        pending := s.pending + 1 }
  | .head     => { s with point := if 0 < s.pending then .receive else .returned }
  | .receive  =>
    match s.channel with
    | a :: channel => { s with got := [a], channel, point := .drain }
    | []           =>
      -- without a rescan it waits for as long as it takes
      if rescans && meets.timedOut then { s with got := [], point := .drain } else s
  | .drain    =>
    match s.channel with
    | a :: channel => { s with got := s.got ++ [a], channel }
    | []           => { s with point := .handle }
  | .handle   =>
    match s.got with
    | a :: got => { s with
        got
        pending := s.pending - 1
        reported := s.reported ++ [a]
        results := s.results ++ [a] }
    | []       => { s with point := .rescan }
  | .rescan   =>
    if rescans && meets.awake then
      { s with todo := meets.heard, heard := s.heard ++ meets.heard, point := .asking }
    else { s with point := .head }
  | .returned => s

def step (rescans : Bool) (s : Naming α β) : NamingEvent α β → Naming α β
  | .answer mac name => s.answer mac name
  | .loop meets      => s.loop rescans meets

/-- The lookup as a machine. -/
def machine (rescans : Bool) : Machine (Naming α β) (NamingEvent α β) Unit :=
  ⟨fun s e => (s.step rescans e, ())⟩

/-! ### The steps of the loop -/

section

variable {s : Naming α β} {rescans : Bool} {meets : Meets α}

/-- When all are asked, the loop starts over. -/
theorem loop_asking_nil (hpoint : s.point = .asking) (htodo : s.todo = []) :
    s.loop rescans meets = { s with point := .head } := by
  cases s; cases hpoint; cases htodo; rfl

/-- A peer that was asked before is passed over. -/
theorem loop_asking_old {m : α} {todo : List α} (hpoint : s.point = .asking)
    (htodo : s.todo = m :: todo) (hm : m ∈ s.asked) :
    s.loop rescans meets = { s with todo } := by
  cases s; cases hpoint; cases htodo; exact if_pos hm

/-- A new peer is asked, and one more answer is pending. -/
private theorem loop_asking_new {m : α} {todo : List α} (hpoint : s.point = .asking)
    (htodo : s.todo = m :: todo) (hm : m ∉ s.asked) :
    s.loop rescans meets = { s with
      todo
      asked := m :: s.asked
      flight := s.flight ++ [m]
      queries := s.queries ++ [m]
      pending := s.pending + 1 } := by
  cases s; cases hpoint; cases htodo; exact if_neg hm

/-- The loop goes on as long as an answer is pending. -/
theorem loop_head (hpoint : s.point = .head) : s.loop rescans meets =
    { s with point := if 0 < s.pending then .receive else .returned } := by
  cases s; cases hpoint; rfl

/-- The first answer that waits in the channel is taken. -/
theorem loop_receive_cons {a : α × β} {channel : List (α × β)} (hpoint : s.point = .receive)
    (hchannel : s.channel = a :: channel) :
    s.loop rescans meets = { s with got := [a], channel, point := .drain } := by
  cases s; cases hpoint; cases hchannel; rfl

/-- Where none waits, the loop goes on only once a rescan's wait is over. -/
private theorem loop_receive_nil (hpoint : s.point = .receive) (hchannel : s.channel = []) :
    s.loop rescans meets =
      if rescans && meets.timedOut then { s with got := [], point := .drain } else s := by
  cases s; cases hpoint; cases hchannel; rfl

/-- What else waits is taken with it. -/
theorem loop_drain_cons {a : α × β} {channel : List (α × β)} (hpoint : s.point = .drain)
    (hchannel : s.channel = a :: channel) :
    s.loop rescans meets = { s with got := s.got ++ [a], channel } := by
  cases s; cases hpoint; cases hchannel; rfl

/-- An empty channel ends the draining. -/
theorem loop_drain_nil (hpoint : s.point = .drain) (hchannel : s.channel = []) :
    s.loop rescans meets = { s with point := .handle } := by
  cases s; cases hpoint; cases hchannel; rfl

/-- Each answer that was taken is handled, and is no longer pending. -/
theorem loop_handle_cons {a : α × β} {got : List (α × β)} (hpoint : s.point = .handle)
    (hgot : s.got = a :: got) :
    s.loop rescans meets = { s with
      got
      pending := s.pending - 1
      reported := s.reported ++ [a]
      results := s.results ++ [a] } := by
  cases s; cases hpoint; cases hgot; rfl

/-- When all are handled, it is time to rescan. -/
theorem loop_handle_nil (hpoint : s.point = .handle) (hgot : s.got = []) :
    s.loop rescans meets = { s with point := .rescan } := by
  cases s; cases hpoint; cases hgot; rfl

/-- A rescan while awake gives the peers heard since. -/
theorem loop_rescan (hpoint : s.point = .rescan) : s.loop rescans meets =
    if rescans && meets.awake then
      { s with todo := meets.heard, heard := s.heard ++ meets.heard, point := .asking }
    else { s with point := .head } := by
  cases s; cases hpoint; rfl

/-- What has returned stays as it is. -/
private theorem loop_returned (hpoint : s.point = .returned) : s.loop rescans meets = s := by
  cases s; cases hpoint; rfl

end

/-! ### What a lookup keeps -/

/-- A lookup that ends puts the answer of a peer that was asked into the channel. -/
theorem Sound.answer {s : Naming α β} (h : s.Sound) (mac : α) (name : β) :
    (s.answer mac name).Sound := by
  unfold Naming.answer
  split_ifs with hmac
  · refine { h with sent := ?_, perm := ?_, pending := ?_ }
    · show s.results ++ s.got ++ (s.channel ++ [(mac, name)]) = s.sent ++ [(mac, name)]
      rw [← List.append_assoc, h.sent]
    · -- the one that answers goes from those that have yet to behind those that have
      have hmoved : ((s.sent ++ [(mac, name)]).map Prod.fst ++ s.flight.erase mac).Perm
          (s.sent.map Prod.fst ++ s.flight) := by
        rw [List.map_append, List.append_assoc]
        exact (List.perm_cons_erase hmac).symm.append_left _
      exact hmoved.trans h.perm
    · have hlen := List.length_erase_of_mem hmac
      have hpos := List.length_pos_of_mem hmac
      show s.pending = (s.flight.erase mac).length + (s.channel ++ [(mac, name)]).length +
        s.got.length
      rw [h.pending, hlen, List.length_append, List.length_singleton]
      omega
  · exact h

/-- A peer is gone through: it is asked, unless it was. -/
theorem Sound.ask {s : Naming α β} (h : s.Sound) {m : α} {todo : List α} (hpoint : s.point = .asking)
    (htodo : s.todo = m :: todo) (rescans : Bool) (meets : Meets α) :
    (s.loop rescans meets).Sound := by
  by_cases hm : m ∈ s.asked
  · rw [loop_asking_old hpoint htodo hm]
    refine { h with heard := fun x => ?_, todo := fun hne => absurd hpoint hne }
    rw [h.heard, htodo, List.mem_cons]
    have hasked := (h.asked m).mp hm
    constructor
    · rintro (hx | rfl | hx)
      · exact .inl hx
      · exact .inl hasked
      · exact .inr hx
    · exact Or.imp_right .inr
  · rw [loop_asking_new hpoint htodo hm]
    refine { h with
      asked := fun x => ?_
      nodup := ?_
      heard := fun x => ?_
      perm := ?_
      pending := ?_
      todo := fun hne => absurd hpoint hne
      waiting := fun hw => absurd (hpoint.symm.trans hw) (by decide)
      ended := fun hover => absurd (hpoint.symm.trans hover) (by decide) }
    · show x ∈ m :: s.asked ↔ x ∈ s.queries ++ [m]
      rw [List.mem_cons, h.asked, List.mem_append, List.mem_singleton, or_comm]
    · show (s.queries ++ [m]).Nodup
      rw [← List.concat_eq_append, List.nodup_concat]
      exact ⟨mt (h.asked m).mpr hm, h.nodup⟩
    · show x ∈ s.heard ↔ x ∈ s.queries ++ [m] ∨ x ∈ todo
      rw [h.heard, htodo, List.mem_append, List.mem_singleton, List.mem_cons, or_assoc]
    · show (s.sent.map Prod.fst ++ (s.flight ++ [m])).Perm (s.queries ++ [m])
      rw [← List.append_assoc]
      exact h.perm.append_right _
    · show s.pending + 1 = (s.flight ++ [m]).length + s.channel.length + s.got.length
      rw [h.pending, List.length_append, List.length_singleton]
      omega

section Points

variable {s : Naming α β} (rescans : Bool) (meets : Meets α)

/-- At the head of the loop it is over when no answer is pending. -/
theorem Sound.atHead (h : s.Sound) (hpoint : s.point = .head) :
    (s.loop rescans meets).Sound := by
  have htodo := h.todo (by simp [hpoint])
  have hgot := h.got (by simp [hpoint]) (by simp [hpoint])
  rw [loop_head hpoint]
  have hpending := h.pending
  refine { h with
    todo := fun _ => htodo
    got := fun _ _ => hgot
    waiting := fun hw => ?_
    ended := fun hover => ?_ }
  · dsimp only at hw ⊢
    split_ifs at hw with hpos
    exact hpos
  · dsimp only at hover ⊢
    split_ifs at hover with hpos
    omega

/-- An answer that is received goes to the batch, and time that runs out makes one of nothing. -/
theorem Sound.atReceive (h : s.Sound) (hpoint : s.point = .receive) :
    (s.loop rescans meets).Sound := by
  have htodo := h.todo (by simp [hpoint])
  have hgot := h.got (by simp [hpoint]) (by simp [hpoint])
  cases hchannel : s.channel with
  | cons a channel =>
    rw [loop_receive_cons hpoint hchannel]
    refine { h with
      sent := ?_
      pending := ?_
      todo := fun _ => htodo
      got := fun hne _ => absurd rfl hne
      waiting := fun hw => by cases hw
      ended := fun hover => by cases hover }
    · show s.results ++ [a] ++ channel = s.sent
      rw [← h.sent, hgot, hchannel, List.append_nil, List.append_assoc, List.singleton_append]
    · show s.pending = s.flight.length + channel.length + 1
      rw [h.pending, hgot, hchannel, List.length_cons, List.length_nil]
      omega
  | nil =>
    rw [loop_receive_nil hpoint hchannel]
    split_ifs
    · refine { h with
        sent := ?_
        pending := ?_
        todo := fun _ => htodo
        got := fun hne _ => absurd rfl hne
        waiting := fun hw => by cases hw
        ended := fun hover => by cases hover }
      · show s.results ++ [] ++ s.channel = s.sent
        rw [← h.sent, hgot]
      · show s.pending = s.flight.length + s.channel.length + 0
        rw [h.pending, hgot]
        rfl
    · exact h

/-- Every answer that is there already goes to the batch. -/
theorem Sound.atDrain (h : s.Sound) (hpoint : s.point = .drain) :
    (s.loop rescans meets).Sound := by
  have htodo := h.todo (by simp [hpoint])
  cases hchannel : s.channel with
  | cons a channel =>
    rw [loop_drain_cons hpoint hchannel]
    refine { h with
      sent := ?_
      pending := ?_
      todo := fun _ => htodo
      got := fun hne _ => absurd hpoint hne
      waiting := fun hw => absurd (hpoint.symm.trans hw) (by decide)
      ended := fun hover => absurd (hpoint.symm.trans hover) (by decide) }
    · show s.results ++ (s.got ++ [a]) ++ channel = s.sent
      rw [← h.sent, hchannel]
      simp only [List.append_assoc, List.singleton_append]
    · show s.pending = s.flight.length + channel.length + (s.got ++ [a]).length
      rw [h.pending, hchannel, List.length_cons, List.length_append, List.length_singleton]
      omega
  | nil =>
    rw [loop_drain_nil hpoint hchannel]
    exact { h with
      todo := fun _ => htodo
      got := fun _ hne => absurd rfl hne
      waiting := fun hw => by cases hw
      ended := fun hover => by cases hover }

/-- The batch is gone through, one answer after the other. -/
theorem Sound.atHandle (h : s.Sound) (hpoint : s.point = .handle) :
    (s.loop rescans meets).Sound := by
  have htodo := h.todo (by simp [hpoint])
  cases hgot : s.got with
  | cons a got =>
    rw [loop_handle_cons hpoint hgot]
    refine { h with
      sent := ?_
      pending := ?_
      reported := ?_
      todo := fun _ => htodo
      got := fun _ hne => absurd hpoint hne
      waiting := fun hw => absurd (hpoint.symm.trans hw) (by decide)
      ended := fun hover => absurd (hpoint.symm.trans hover) (by decide) }
    · show s.results ++ [a] ++ got ++ s.channel = s.sent
      rw [← h.sent, hgot]
      simp only [List.append_assoc, List.singleton_append]
    · show s.pending - 1 = s.flight.length + s.channel.length + got.length
      rw [h.pending, hgot, List.length_cons]
      omega
    · show s.reported ++ [a] = s.results ++ [a]
      rw [h.reported]
  | nil =>
    rw [loop_handle_nil hpoint hgot]
    exact { h with
      todo := fun _ => htodo
      got := fun _ _ => hgot
      waiting := fun hw => by cases hw
      ended := fun hover => by cases hover }

/-- A scan hears of more peers, which are gone through next. -/
theorem Sound.atRescan (h : s.Sound) (hpoint : s.point = .rescan) :
    (s.loop rescans meets).Sound := by
  have htodo := h.todo (by simp [hpoint])
  have hgot := h.got (by simp [hpoint]) (by simp [hpoint])
  rw [loop_rescan hpoint]
  split_ifs
  · refine { h with
      heard := fun x => ?_
      todo := fun hne => absurd rfl hne
      got := fun _ _ => hgot
      waiting := fun hw => by cases hw
      ended := fun hover => by cases hover }
    show x ∈ s.heard ++ meets.heard ↔ x ∈ s.queries ∨ x ∈ meets.heard
    rw [List.mem_append, h.heard, htodo]
    simp
  · exact { h with
      todo := fun _ => htodo
      got := fun _ _ => hgot
      waiting := fun hw => by cases hw
      ended := fun hover => by cases hover }

end Points

/-- **What a step of the loop keeps.** -/
theorem Sound.loop {s : Naming α β} (h : s.Sound) (rescans : Bool) (meets : Meets α) :
    (s.loop rescans meets).Sound := by
  cases hpoint : s.point with
  | asking =>
    cases htodo : s.todo with
    | nil =>
      rw [loop_asking_nil hpoint htodo]
      exact { h with
        todo := fun _ => htodo
        got := fun _ _ => h.got (by simp [hpoint]) (by simp [hpoint])
        waiting := fun hw => by cases hw
        ended := fun hover => by cases hover }
    | cons m todo => exact h.ask hpoint htodo rescans meets
  | head => exact h.atHead rescans meets hpoint
  | receive => exact h.atReceive rescans meets hpoint
  | drain => exact h.atDrain rescans meets hpoint
  | handle => exact h.atHandle rescans meets hpoint
  | rescan => exact h.atRescan rescans meets hpoint
  | returned =>
    rw [loop_returned hpoint]
    exact h

/-- What is asked and what is answered agree after any number of steps. -/
theorem sound_run (rescans : Bool) (macs : List α) (es : List (NamingEvent α β)) :
    ((machine rescans).run (start macs) es).Sound := by
  refine Machine.Keeps.run (fun s e hs => ?_) (sound_start macs) es
  cases e with
  | answer mac name => exact hs.answer mac name
  | loop meets => exact hs.loop rescans meets

/-! ### The end of a lookup -/

/-- **A quiet lookup gets on**, and stays quiet. -/
theorem Quiet.loop {s : Naming α β} (h : s.Quiet) (hover : s.point ≠ .returned) {rescans : Bool}
    {meets : Meets α} (hmeets : NoNewcomers rescans s meets) :
    (s.loop rescans meets).Quiet ∧ Before (s.loop rescans meets).measure s.measure := by
  have hsound := h.sound.loop rescans meets
  have hpending := h.sound.pending
  rw [h.flight, List.length_nil] at hpending
  cases hpoint : s.point with
  | asking =>
    have hrank : s.rank = 4 := by rw [rank, hpoint]
    cases htodo : s.todo with
    | nil =>
      rw [loop_asking_nil hpoint htodo] at hsound ⊢
      exact ⟨⟨hsound, h.flight, h.todo⟩, before_of_rank rfl (hrank ▸ Nat.lt_add_one 3)⟩
    | cons m todo =>
      have hmem : ∀ x ∈ m :: todo, x ∈ s.asked := htodo ▸ h.todo
      rw [loop_asking_old hpoint htodo (hmem m List.mem_cons_self)] at hsound ⊢
      refine ⟨⟨hsound, h.flight, fun x hx => hmem x (List.mem_cons_of_mem _ hx)⟩,
        before_of_left rfl ?_ ?_⟩
      · unfold rank
        simp only [hpoint]
      · unfold left
        simp only [hpoint, htodo, List.length_cons]
        omega
  | head =>
    have hrank : s.rank = 3 := by rw [rank, hpoint]
    rw [loop_head hpoint] at hsound ⊢
    refine ⟨⟨hsound, h.flight, h.todo⟩, before_of_rank rfl (hrank ▸ ?_)⟩
    unfold rank
    dsimp only
    split_ifs <;> decide
  | receive =>
    have hgot := h.sound.got (by simp [hpoint]) (by simp [hpoint])
    have hrank : s.rank = 2 := by rw [rank, hpoint]
    cases hchannel : s.channel with
    | nil =>
      -- there would be nobody to wait for
      have hpos := h.sound.waiting hpoint
      rw [hpending, hgot, hchannel] at hpos
      exact absurd hpos (Int.lt_irrefl 0)
    | cons a channel =>
      rw [loop_receive_cons hpoint hchannel] at hsound ⊢
      refine ⟨⟨hsound, h.flight, h.todo⟩, before_of_rank rfl (hrank ▸ ?_)⟩
      simp [rank]
  | drain =>
    cases hchannel : s.channel with
    | nil =>
      rw [loop_drain_nil hpoint hchannel] at hsound ⊢
      refine ⟨⟨hsound, h.flight, h.todo⟩, before_of_rank rfl ?_⟩
      unfold rank
      rw [hpoint, hchannel]
      dsimp only
      by_cases hgot : s.got = []
      · rw [if_pos hgot, if_pos ⟨hgot, rfl⟩]
        decide
      · rw [if_neg hgot, if_neg fun hg => hgot hg.1]
        decide
    | cons a channel =>
      rw [loop_drain_cons hpoint hchannel] at hsound ⊢
      refine ⟨⟨hsound, h.flight, h.todo⟩, before_of_left rfl ?_ ?_⟩
      · unfold rank
        simp [hpoint, hchannel]
      · unfold left
        simp only [hpoint, hchannel, List.length_cons]
        omega
  | handle =>
    cases hgot : s.got with
    | nil =>
      have hrank : s.rank = 6 := by rw [rank, hpoint]; simp [hgot]
      rw [loop_handle_nil hpoint hgot] at hsound ⊢
      exact ⟨⟨hsound, h.flight, h.todo⟩, before_of_rank rfl (hrank ▸ Nat.lt_add_one 5)⟩
    | cons a got =>
      rw [loop_handle_cons hpoint hgot] at hsound ⊢
      refine ⟨⟨hsound, h.flight, h.todo⟩, before_of_pending ?_⟩
      rw [hgot, List.length_cons] at hpending
      dsimp only
      omega
  | rescan =>
    have hrank : s.rank = 5 := by rw [rank, hpoint]
    unfold NoNewcomers at hmeets
    rw [loop_rescan hpoint] at hsound ⊢
    split_ifs at hsound ⊢ with hagain
    · exact ⟨⟨hsound, h.flight, hmeets hagain⟩, before_of_rank rfl (hrank ▸ Nat.lt_add_one 4)⟩
    · exact ⟨⟨hsound, h.flight, h.todo⟩, before_of_rank rfl (hrank ▸ (by decide : 3 < 5))⟩
  | returned => exact absurd hpoint hover

end Naming

end Omdrop.Send
