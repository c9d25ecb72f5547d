import Mathlib.Data.Nat.ModEq
import Omdrop.Identity.Steps

namespace Omdrop.Identity

open Omdrop.Text

/-!
# Stale fetches

A payload is published for the generation that its fetch read.  The generation is a counter that
wraps, so what can be said is `published_unbumped`: since the fetch read it, the generation was
bumped a multiple of `counterRange` times, which is no time at all unless it was bumped that often.
-/

section Runs

variable [SerdeJson] {env : Env} {w w' w₀ : World} {p p' : Proc}

/-- The fetch that a command is in. -/
def Proc.fetch : Proc → Option Fetch
  | .fetchItem f         => some f
  | .fetchFiles f _ _    => some f
  | .fetchCheck f _ _    => some f
  | .fetchEncode f _ _ _ => some f
  | .publish f _         => some f
  | _                    => none

/-- Since bumps `k` there were bumps up to `n`, a multiple of the range of the counter. -/
def Unbumped (k n : Nat) : Prop := ∃ m, n = k + m * counterRange

/-- A fetch read the generation as it was after so many bumps. -/
def ReadAt (w₀ w : World) (f : Fetch) : Prop :=
  f.asOf ≤ w.bumps gen ∧ f.generation = (w₀.counter gen + f.asOf) % counterRange

/-- What is known of a command: its fetch read the generation, and its payload is of that fetch. -/
structure Fetches (w₀ w : World) (p : Proc) : Prop where
  read : ∀ f, p.fetch = some f → ReadAt w₀ w f
  payload : ∀ f payload, p = .publish f payload → payload.asOf = f.asOf

/-- What is known of the world: its counters, and that nothing stale was published. -/
structure Fresh (w₀ w : World) : Prop where
  counts : Counts w₀ w
  published : ∀ f n, (f, n) ∈ w.published → Unbumped f.asOf n

omit [SerdeJson] in
/-- A process that is in the middle of a fetch holds it. -/
theorem Proc.fetch_of_fetching {f : Fetch} {ref : ItemRef} (h : p.fetching = some (f, ref)) :
    p.fetch = some f := by
  cases p <;> simp_all [Proc.fetching, Proc.fetch]

omit [SerdeJson] in
/-- A process that has only begun holds no fetch. -/
theorem Proc.fetch_of_early (h : p.isEarly = true) : p.fetch = none := by
  cases p <;> first | rfl | cases h

omit [SerdeJson] in
/-- A process that looks at an item holds no fetch. -/
theorem Proc.fetch_of_use {g : Nat} {ref : ItemRef} (h : p.use = some (g, ref)) :
    p.fetch = none := by
  cases p <;> first | rfl | cases h

omit [SerdeJson] in
/-- A process that adopts an item holds no fetch. -/
theorem Proc.fetch_of_adopting {g : Nat} {ref : ItemRef} (h : p.adopting = some (g, ref, p')) :
    p'.fetch = none := by
  cases p <;> cases h <;> rfl

/-- A command comes to its fetch by reading the generation. -/
theorem Next.fetch_cases (h : Next env w p p' w') {f : Fetch} (hf : p'.fetch = some f) :
    p.fetch = some f ∨ (f.generation = w.counter gen ∧ f.asOf = w.bumps gen) := by
  cases h with
  | early hp hp' hfs => simp [Proc.fetch_of_early hp'] at hf
  | fillCache c =>
    cases hf
    exact .inr ⟨rfl, rfl⟩
  | fetchItem f' hnamed => exact .inl hf
  | fetching hp hp' =>
    rw [Proc.fetch_of_fetching hp'] at hf
    rw [Proc.fetch_of_fetching hp, hf]
    exact .inl rfl
  | fetched hp data =>
    rw [Proc.fetch_of_fetching hp]
    exact .inl hf
  | useKept hp hp' => simp [Proc.fetch_of_use hp'] at hf
  | adopted hp hcurrent => simp [Proc.fetch_of_adopting hp] at hf
  | _ => cases hf

omit [SerdeJson] in
/-- The counter tells how often the generation was bumped, up to its range. -/
theorem unbumped_of_counter {f : Fetch} (hcounts : Counts w₀ w) (hread : ReadAt w₀ w f)
    (hcurrent : w.counter gen = f.generation) : Unbumped f.asOf (w.bumps gen) := by
  rw [hcounts gen, hread.2] at hcurrent
  have hmod : f.asOf ≡ w.bumps gen [MOD counterRange] :=
    Nat.ModEq.add_left_cancel' _ hcurrent.symm
  obtain ⟨m, hm⟩ := (Nat.modEq_iff_dvd' hread.1).mp hmod
  refine ⟨m, ?_⟩
  have hle := hread.1
  rw [Nat.mul_comm] at hm
  omega

/-- A payload is published for a generation that is current then. -/
theorem Next.fresh (h : Next env w p p' w') (hw : Fresh w₀ w) (hp : Fetches w₀ w p) :
    Fresh w₀ w' := by
  refine ⟨h.countersKept.counts hw.counts, ?_⟩
  rcases h.published_cases with hsame | ⟨f, payload, pl, rfl, hmay, rfl⟩
  · rw [hsame]
    exact hw.published
  · intro f' n hmem
    rcases List.mem_append.mp hmem with hmem | hmem
    · exact hw.published f' n hmem
    · obtain ⟨rfl, rfl⟩ : f' = payload ∧ n = w.bumps gen := by simpa using hmem
      rw [hp.payload f f' rfl]
      exact unbumped_of_counter hw.counts (hp.read f rfl) hmay.current

omit [SerdeJson] in
/-- What was fetched for a generation was so still when another has come. -/
theorem Fetches.mono (hp : Fetches w₀ w p) (hle : w.bumps gen ≤ w'.bumps gen) :
    Fetches w₀ w' p :=
  ⟨fun f hf => ⟨(hp.read f hf).1.trans hle, (hp.read f hf).2⟩, hp.payload⟩

/-- A fetch that goes on is for the generation that it read. -/
theorem Next.fetches (h : Next env w p p' w') (hw : Fresh w₀ w) (hp : Fetches w₀ w p) :
    Fetches w₀ w' p' := by
  have hle := h.countersKept.le gen
  refine ⟨fun f hf => ?_, fun f payload hpublish => ?_⟩
  · rcases h.fetch_cases hf with hsame | ⟨hgen, hasOf⟩
    · exact (hp.mono hle).read f hsame
    · rw [ReadAt, hgen, hasOf]
      exact ⟨hle, hw.counts gen⟩
  · subst hpublish
    cases h with
    | fetched hfetch data => rfl
    | early hearly hearly' => cases hearly'
    | fetching hfetch hfetch' => cases hfetch'
    | useKept huse huse' => cases huse'
    | adopted hadopt => cases p <;> cases hadopt

omit [SerdeJson] in
/-- The outside bumps nothing and publishes nothing. -/
theorem outside_fresh (e : Outside) (hw : Fresh w₀ w) : Fresh w₀ (outside e w) := by
  cases e with
  | clock t => exact ⟨hw.counts, hw.published⟩
  | lost => exact ⟨hw.counts, hw.published⟩

/-- That fetches are for generations that were read is an invariant of the runs. -/
theorem invariant_fresh (w₀ : World) : lifecycle.Invariant (fun _ _ _ => True) (Fresh w₀)
    fun w p _ => Fetches w₀ w p where
  start w c _ := by
    refine ⟨fun f hf => ?_, fun f payload hpublish => ?_⟩
    · cases c <;> cases hf
    · cases c <;> cases hpublish
  outside w e hw := outside_fresh e hw
  outside_other w e p past _ hp := by
    cases e <;> exact hp.mono le_rfl
  shared w p past env _ hw hp := (advance_next env p w).1.fresh hw hp
  own w p past env _ hw hp := (advance_next env p w).1.fetches hw hp
  other w p past env _ hw hp q past' hq := hq.mono ((advance_next env p w).1.countersKept.le gen)

/-! ### After a lock -/

/-- Process `k` is a `lock` that succeeds next, and the key that it revokes is gone. -/
def Locks (s : Pool.State World Proc Moved) (k : Nat) (env : Env) : Prop :=
  (∃ past, s.procs[k]? = some (.lock, past)) ∧ env.lingers = false ∧
    (cmdLock env ⟨s.shared, 0, []⟩).1 = .ok 0

/-- What the cache holds was published at some time since there were `k` bumps. -/
def PublishedSince (k : Nat) (w : World) : Prop :=
  k ≤ w.bumps gen ∧ ∀ key, w.cache = some key →
    ∃ n, k ≤ n ∧ n ≤ w.bumps gen ∧ (key.origin, n) ∈ w.published

/-- What the cache holds was fetched since there were `k` bumps, unless the generation was bumped
    through the whole range of the counter since. -/
def FetchedSince (k : Nat) (w : World) : Prop :=
  ∀ key, w.cache = some key →
    k ≤ key.origin.asOf ∨ key.origin.asOf + counterRange ≤ w.bumps gen

/-- What is published after a point stays so in a step. -/
theorem Next.publishedSince {k : Nat} (h : Next env w p p' w') (hw : PublishedSince k w) :
    PublishedSince k w' := by
  obtain ⟨hk, hcache⟩ := hw
  have hle := h.countersKept.le gen
  have hkept : ∀ f n, (f, n) ∈ w.published → (f, n) ∈ w'.published := by
    intro f n hmem
    rcases h.published_cases with hsame | ⟨_, _, _, rfl, _, rfl⟩
    · rw [hsame]
      exact hmem
    · exact List.mem_append_left _ hmem
  refine ⟨hk.trans hle, fun key hkey => ?_⟩
  rcases h.cache_cases with hc | ⟨f, payload, pl, rfl, hmay, rfl⟩
  · obtain ⟨k₀, hk₀, horigin⟩ := hc key hkey
    obtain ⟨n, hn, hnle, hmem⟩ := hcache k₀ hk₀
    exact ⟨n, hn, hnle.trans hle, horigin ▸ hkept _ n hmem⟩
  · cases hkey
    exact ⟨w.bumps gen, hk, le_rfl, List.mem_append_right _ List.mem_cons_self⟩

omit [SerdeJson] in
/-- What is published after a point stays so, whatever happens outside. -/
private theorem outside_publishedSince {k : Nat} (e : Outside) (hw : PublishedSince k w) :
    PublishedSince k (outside e w) := by
  obtain ⟨hk, hcache⟩ := hw
  cases e with
  | clock t => exact ⟨hk, fun key hkey => hcache key (Option.filter_eq_some_iff.mp hkey).1⟩
  | lost =>
    refine ⟨hk, fun key hkey => ?_⟩
    cases hkey

omit [SerdeJson] in
/-- What is published after a bump was fetched after it. -/
theorem Fresh.fetchedSince {k : Nat} (hw : Fresh w₀ w) (hsince : PublishedSince k w) :
    FetchedSince k w := by
  intro key hkey
  obtain ⟨n, hn, hle, hmem⟩ := hsince.2 key hkey
  obtain ⟨m, hm⟩ := hw.published _ _ hmem
  by_cases hm0 : m = 0
  · left
    subst hm0
    omega
  · right
    have hround : 1 * counterRange ≤ m * counterRange := Nat.mul_le_mul_right _ (by omega)
    omega

/-- A lock that succeeds leaves no key. -/
theorem Locks.cache {s : Pool.State World Proc Moved} {k : Nat} {env : Env}
    (h : Locks s k env) : (lifecycle.step s (.advance k env)).1.shared.cache = none := by
  obtain ⟨⟨past, hk⟩, hlingers, hok⟩ := h
  have hspec := @cmdLock_spec env s.shared 0 []
  rcases hrun : cmdLock env ⟨s.shared, 0, []⟩ with ⟨r, s'⟩
  rw [hrun] at hspec hok
  obtain rfl : r = .ok 0 := hok
  have hworld : s'.world.cache = none := by
    rcases hspec with ⟨-, hcode⟩ | ⟨-, ⟨-, hcode⟩ | hworld⟩
    · exact absurd rfl hcode
    · exact absurd rfl hcode
    · rw [hworld, hlingers]
      rfl
  have hnext : next env .lock ⟨s.shared, 0, []⟩ =
      (.ok .done, { s' with events := s'.events ++ [.exit 0] }) :=
    Fallible.bind_of_ok hrun
  simp only [Pool.step, hk, lifecycle, advance, hnext]
  exact hworld

/-- The invariant holds after any run from a boot. -/
theorem fresh_after (b : Boot) (as : List (Pool.Action Cmd Env Outside)) :
    Pool.Holds (Fresh b.world) (fun w p _ => Fetches b.world w p) (b.after as) := by
  apply (invariant_fresh b.world).run _ (.of_forall fun _ _ _ => trivial)
  refine ⟨⟨counts_boot b, fun f n hmem => ?_⟩, fun p past hp => ?_⟩
  · cases hmem
  · cases hp

/-- **Stale fetches are not published.**  What is put in the keyring is for a generation that was
    bumped a multiple of `counterRange` times since it was read: not at all, unless it went all
    the way round.  A lock that succeeds leaves no key, and whatever is in the keyring after it was
    fetched since, unless the generation went all the way round since that fetch. -/
theorem stale_not_published (b : Boot) (as : List (Pool.Action Cmd Env Outside)) :
    (∀ f n, (f, n) ∈ (b.after as).shared.published → Unbumped f.asOf n) ∧
      ∀ pre k env post, as = pre ++ .advance k env :: post → Locks (b.after pre) k env →
        (b.after (pre ++ [.advance k env])).shared.cache = none ∧
          FetchedSince ((b.after (pre ++ [.advance k env])).shared.bumps gen)
            (b.after as).shared := by
  refine ⟨(fresh_after b as).1.published, fun pre k env post has hlocks => ?_⟩
  have hcache : (b.after (pre ++ [.advance k env])).shared.cache = none := by
    rw [Boot.after, Machine.run_append]
    exact hlocks.cache
  refine ⟨hcache, (fresh_after b as).1.fetchedSince ?_⟩
  have hafter : b.after as =
      lifecycle.machine.run (b.after (pre ++ [.advance k env])) post := by
    rw [Boot.after, Boot.after, ← Machine.run_append, has]
    simp
  rw [hafter]
  have hrule : lifecycle.Invariant (fun _ _ _ => True)
      (PublishedSince ((b.after (pre ++ [.advance k env])).shared.bumps gen))
      fun _ _ _ => True := by
    apply Pool.Invariant.of_shared
    · intro w p env _ hw
      exact (advance_next env p w).1.publishedSince hw
    · exact fun w e hw => outside_publishedSince e hw
  refine (hrule.run ⟨⟨le_rfl, fun key hkey => ?_⟩, fun _ _ _ => trivial⟩
    (.of_forall fun _ _ _ => trivial)).1
  rw [hcache] at hkey
  cases hkey

end Runs

/-! ### A generation that comes round -/

/-- A fetch id. -/
def sampleId : Text := List.replicate 32 '0'

/-- What `op` prints about an item. -/
def samplePrinted : List UInt8 :=
  utf8 "\x7b\"id\":\"new\",\"vault\":\x7b\"id\":\"v\"\x7d\x7d".toList

/-- The header of a payload. -/
def sampleHeader : List UInt8 :=
  utf8 ("\x7b\"certificate\":1,\"fetch_id\":\"".toList ++ sampleId ++
    "\",\"fetched_at\":0,\"hard_expiry\":86400,\"key\":1,\"period_ends\":43200,".toList ++
    "\"record\":1\x7d".toList)

/-- JSON, as far as the runs below read and write it. -/
@[reducible] def sampleJson : SerdeJson where
  value raw :=
    if raw = samplePrinted then
      some (.obj [("id", .str "new"), ("vault", .obj [("id", .str "v")])])
    else none
  members raw :=
    if raw = sampleHeader then
      some [("certificate", .int 1), ("fetch_id", .str sampleId), ("fetched_at", .int 0),
        ("hard_expiry", .int 86400), ("key", .int 1), ("period_ends", .int 43200),
        ("record", .int 1)]
    else none
  quote t := '"' :: t ++ ['"']

/-- Everything works, and every file in 1Password is a byte. -/
def sampleEnv : Env where
  faults _ := none
  lingers := false
  checkApple _ _ _ := none
  keyMatches _ _ := true
  isSelfSigned _ := true
  created := .ok none
  op _ := .ok [1]
  random := List.replicate 16 0
  serial := 7
  keys := "keys"

/-- The settings name an item of 1Password. -/
def sampleBoot : Boot where
  settings := some (windowText ["identity_source=1password", "identity_op_account=a",
    "identity_op_vault=v", "identity_op_item=old"])
  state := none
  window := none
  files _ := none
  now := 0

/-- What is fetched of the item. -/
def sampleFetched : Fetched where
  data := magic ++ 10 :: sampleHeader ++ [10, 1, 1, 1]
  vault := "v"
  item := "old"
  asOf := 0

/-- Process 0 is about to publish it. -/
def samplePublish : Proc := .publish ⟨.unlock, 0, 0⟩ sampleFetched

/-- It fetches. -/
def sampleFetch : List (Pool.Action Cmd Env Outside) :=
  .start .unlock :: List.replicate 9 (.advance 0 sampleEnv)

/-- Then so many locks run. -/
def sampleLocks (n : Nat) : List (Pool.Action Cmd Env Outside) :=
  (List.range n).flatMap fun i => [.start .lock, .advance (i + 1) sampleEnv]

section

attribute [local instance] sampleJson

/-- After `n` locks the fetch is where it was. -/
structure Waiting (n : Nat) (s : Pool.State World Proc Moved) : Prop where
  window : s.shared.window = none
  now : s.shared.now = 0
  bumps : s.shared.bumps gen = n
  counter : s.shared.counter gen = n % counterRange
  procs : s.procs.map Prod.fst = samplePublish :: List.replicate n .done

/-- A lock that nothing stops. -/
private theorem lock_sample {w : World} (h : w.window = none) :
    Fallible.After (fun p s => p = .done ∧ s.world = (w.bumped gen).revoked false)
      (fun _ _ => False) (next sampleEnv .lock ⟨w, 0, []⟩) := by
  apply returning_spec (Q := fun p s => p = .done ∧ s = (w.bumped gen).revoked false)
  refine .bind (call_spec (fun _ => ?_) fun _ ht => nomatch ht)
  refine .bind (ask_spec (.ite (fun hopen => ?_) fun _ => ?_))
  · rw [h] at hopen
    cases hopen
  · refine .bind (bump_spec (fun _ _ _ => ?_) fun _ _ _ _ ht => nomatch ht)
    refine .bind (.bind (call_spec (fun _ => ?_) fun _ ht => nomatch ht))
    refine removeFile_spec (fun _ => ?_) fun _ ht => nomatch ht
    refine .bind (.attempt (revoke_spec (fun _ => ?_) fun _ ht => nomatch ht))
    exact .bind (emit_spec ⟨rfl, rfl⟩)

/-- A publication that nothing stops. -/
private theorem publish_sample {w : World} {f : Fetch} {payload : Fetched} {p : Payload}
    (h : MayPublish w payload f.generation p) :
    Fallible.After (fun _ s => s.world = w.withCache payload (p.periodEnds - w.now))
      (fun _ _ => False) (next sampleEnv (.publish f payload) ⟨w, 0, []⟩) := by
  obtain ⟨hcurrent, hwindow, hparses, hlasts⟩ := h
  refine .bind (.attempt (.bind (call_spec (fun _ => ?_) fun _ ht => nomatch ht)))
  refine .bind (counter_spec (fun _ => ?_) fun _ ht => nomatch ht)
  refine .ite (fun hgen => absurd hcurrent hgen) fun _ => ?_
  refine .bind (readWindow_spec (fun _ => ?_) fun _ ht => nomatch ht)
  refine .ite (fun hopen => ?_) fun _ => ?_
  · rw [hwindow] at hopen
    cases hopen
  · rw [hparses]
    refine .bind (ask_spec (.bind (.bind (.failIf (fun _ => ?_) fun hshort => ?_))))
    · refine .bind (call_spec (fun _ => change_spec ?_) fun _ ht => nomatch ht)
      exact filled_spec fun _ _ => rfl
    · have : p.periodEnds - w.now < 1 := by simpa using hshort
      omega

/-- A step does what the specification of its command says. -/
theorem advance_of_after {w : World} {p : Proc} {Q : Proc → Sys → Prop}
    (h : Fallible.After Q (fun _ _ => False) (next sampleEnv p ⟨w, 0, []⟩)) :
    ∃ s, Q (advance sampleEnv p w).1 s ∧ (advance sampleEnv p w).2.2 = s.world := by
  unfold advance
  rcases hrun : next sampleEnv p ⟨w, 0, []⟩ with ⟨e | p', s⟩
  · rw [hrun] at h
    exact h.elim
  · rw [hrun] at h
    exact ⟨s, h, rfl⟩

/-- A `lock` that comes and goes leaves the fetch waiting. -/
theorem Waiting.lock {n : Nat} {s : Pool.State World Proc Moved} (h : Waiting n s) :
    Waiting (n + 1) (lifecycle.machine.run s [.start .lock, .advance (n + 1) sampleEnv]) := by
  have hlength : s.procs.length = n + 1 := by
    rw [← List.length_map (f := Prod.fst), h.procs]
    simp
  have hproc : (s.procs ++ [(Proc.lock, [])])[n + 1]? = some (.lock, []) := by
    rw [← hlength]
    simp
  obtain ⟨s', ⟨hdone, hworld⟩, hafter⟩ := advance_of_after (lock_sample h.window)
  have hshared : (lifecycle.machine.run s [.start .lock, .advance (n + 1) sampleEnv]).shared =
      (s.shared.bumped gen).revoked false := by
    simp [Pool.machine, Pool.step, lifecycle, start, hproc, hafter, hworld]
  have hprocs : (lifecycle.machine.run s [.start .lock, .advance (n + 1) sampleEnv]).procs.map
      Prod.fst = samplePublish :: List.replicate (n + 1) .done := by
    simp only [Machine.run_cons, Machine.run_nil, Pool.machine, Pool.step, lifecycle, start, hproc]
    rw [List.map_set, List.map_append, h.procs, hdone]
    simp [List.replicate_succ']
  refine ⟨?_, ?_, ?_, ?_, hprocs⟩ <;> rw [hshared]
  · simp [h.window]
  · simp [h.now]
  · simp [h.bumps]
  · show (s.shared.bumped gen).counter gen = _
    rw [counter_bumped _ clean_gen, if_pos rfl, h.counter, Nat.mod_add_mod]

/-- The fetch waits to be published. -/
private theorem waiting_fetched : Waiting 0 (sampleBoot.after sampleFetch) := by
  have h : (fun s : Pool.State World Proc Moved => (s.shared.window, s.shared.now,
      s.shared.bumps gen, s.shared.counter gen, s.procs.map Prod.fst))
      (sampleBoot.after sampleFetch) = (none, 0, 0, 0, [samplePublish]) := by
    decide +kernel
  simp only [Prod.mk.injEq] at h
  obtain ⟨hwindow, hnow, hbumps, hcounter, hprocs⟩ := h
  exact ⟨hwindow, hnow, hbumps, hcounter, hprocs⟩

/-- The fetch waits still after any number of locks. -/
private theorem waiting_locks (n : Nat) :
    Waiting n (sampleBoot.after (sampleFetch ++ sampleLocks n)) := by
  induction n with
  | zero => exact waiting_fetched
  | succ n ih =>
    have hlocks : sampleLocks (n + 1) =
        sampleLocks n ++ [.start .lock, .advance (n + 1) sampleEnv] := by
      simp [sampleLocks, List.range_succ]
    rw [hlocks, ← List.append_assoc, Boot.after, Machine.run_append]
    exact ih.lock

/-- The payload that is fetched is a good one, for half a day. -/
private theorem parsePayload_sample :
    ∃ p, parsePayload sampleFetched.data = some p ∧ p.periodEnds = 43200 := by
  have h : (parsePayload sampleFetched.data).map Payload.periodEnds = some 43200 := by
    decide +kernel
  exact Option.map_eq_some_iff.mp h

/-- The fetch is published once the generation is what it read. -/
private theorem published_after_locks {n : Nat} (hround : n % counterRange = 0) :
    (sampleFetched, n) ∈ (sampleBoot.after
      (sampleFetch ++ sampleLocks n ++ [.advance 0 sampleEnv])).shared.published := by
  have hwaiting := waiting_locks n
  rw [Boot.after, Machine.run_append]
  rw [Boot.after] at hwaiting
  generalize lifecycle.machine.run ⟨sampleBoot.world, []⟩ (sampleFetch ++ sampleLocks n) = s
    at hwaiting
  obtain ⟨p, hp, hends⟩ := parsePayload_sample
  have hmay : MayPublish s.shared sampleFetched 0 p := by
    refine ⟨?_, ?_, hp, ?_⟩
    · rw [hwaiting.counter, hround]
    · rw [hwaiting.window]
      rfl
    · rw [hends, hwaiting.now]
      decide
  obtain ⟨s', hworld, hafter⟩ := advance_of_after (publish_sample (f := ⟨.unlock, 0, 0⟩) hmay)
  have hhead : (s.procs.map Prod.fst)[0]? = some samplePublish := by
    rw [hwaiting.procs]
    rfl
  rw [List.getElem?_map] at hhead
  obtain ⟨⟨q, past⟩, hq, rfl⟩ := Option.map_eq_some_iff.mp hhead
  have hshared : (lifecycle.step s (.advance 0 sampleEnv)).1.shared =
      (advance sampleEnv samplePublish s.shared).2.2 := by
    simp only [Pool.step, hq, lifecycle]
  show _ ∈ (lifecycle.step s (.advance 0 sampleEnv)).1.shared.published
  rw [hshared, samplePublish, hafter, hworld]
  apply List.mem_append_right
  rw [hwaiting.bumps]
  exact List.mem_cons_self

end

/-- A fetch waits while the generation goes all the way round, and is published. -/
theorem stale_published :
    ¬ ∀ (_ : SerdeJson) (b : Boot) (as : List (Pool.Action Cmd Env Outside)) f n,
      (f, n) ∈ (b.after as).shared.published → f.asOf = n := by
  intro h
  have hpublished := published_after_locks (n := counterRange) (Nat.mod_self counterRange)
  have hsame := h sampleJson sampleBoot _ _ _ hpublished
  have hrange : 0 < counterRange := by decide
  rw [show sampleFetched.asOf = 0 from rfl] at hsame
  exact hrange.ne hsame

end Omdrop.Identity
