import Mathlib.Data.List.Basic

namespace Omdrop.Nested

/-!
# Trees from their tokens

A tree is written as tokens: a node as an opening token, its children and a closing token.

* `readNest` reads a tree back by recursive descent (`readNest_iff`);
* `Nest.build` makes a value of a tree by recursion, as a `Builder` says what to do at each node;
* `run` makes it token by token, with the containers that are still open on a stack.

`run_iff` says that the two agree: the machine ends with one value and nothing open exactly on
the tokens of one tree, and then it has the value that the recursion gives.
-/

variable {κ α F V : Type}

/-- A token: a container is opened, the last one is closed, or a leaf. -/
inductive Token (κ α : Type)
  | enter (k : κ)
  | leave
  | leaf (a : α)
  deriving DecidableEq, Repr

/-- Leaves in containers. -/
inductive Nest (κ α : Type)
  | leaf (a : α)
  | node (k : κ) (children : List (Nest κ α))

mutual

/-- The tokens of a tree. -/
def Nest.tokens : Nest κ α → List (Token κ α)
  | .leaf a          => [.leaf a]
  | .node k children => .enter k :: (forestTokens children ++ [.leave])

/-- The tokens of some trees, one after the other. -/
def forestTokens : List (Nest κ α) → List (Token κ α)
  | []      => []
  | t :: ts => t.tokens ++ forestTokens ts

end

/-- Trees and lists of trees, by induction side by side. -/
theorem Nest.induct {P : Nest κ α → Prop} {Q : List (Nest κ α) → Prop}
    (leaf : ∀ a, P (.leaf a)) (node : ∀ k children, Q children → P (.node k children))
    (nil : Q []) (cons : ∀ t ts, P t → Q ts → Q (t :: ts)) :
    (∀ t, P t) ∧ ∀ ts, Q ts :=
  ⟨Nest.rec leaf node nil cons, Nest.rec_1 leaf node nil cons⟩

/-! ### Reading by recursive descent -/

/-- The trees up to the end of the container they are in, and the tokens after it; `n` is how
    many tokens may be read. -/
def readForest : Nat → List (Token κ α) → Option (List (Nest κ α) × List (Token κ α))
  | 0, _                      => none
  | _ + 1, []                 => none
  | _ + 1, .leave :: tokens   => some ([], tokens)
  | n + 1, .leaf a :: tokens  =>
    (readForest n tokens).map fun (ts, rest) => (.leaf a :: ts, rest)
  | n + 1, .enter k :: tokens => do
    let (children, rest) ← readForest n tokens
    let (ts, rest) ← readForest n rest
    some (.node k children :: ts, rest)

/-- The tree that some tokens are, when they are one. -/
def readNest : List (Token κ α) → Option (Nest κ α)
  | [.leaf a]        => some (.leaf a)
  | .enter k :: rest =>
    match readForest rest.length rest with
    | some (children, []) => some (.node k children)
    | _                   => none
  | _                => none

private theorem readForest_sound {n : Nat} {tokens rest : List (Token κ α)} {ts : List (Nest κ α)}
    (h : readForest n tokens = some (ts, rest)) : tokens = forestTokens ts ++ .leave :: rest := by
  fun_induction readForest n tokens generalizing ts rest with
  | case1 => cases h
  | case2 => cases h
  | case3 n tokens =>
    -- what was entered is left
    cases h
    rfl
  | case4 n a tokens ih =>
    -- a leaf
    obtain ⟨⟨ts', rest'⟩, hread, heq⟩ := Option.map_eq_some_iff.mp h
    cases heq
    rw [ih hread]
    simp [forestTokens, Nest.tokens]
  | case5 n k tokens ih ih' =>
    -- a node with its children, and what stands beside it
    obtain ⟨⟨children, rest₁⟩, hread, h⟩ := Option.bind_eq_some_iff.mp h
    obtain ⟨⟨ts', rest'⟩, hread', heq⟩ := Option.bind_eq_some_iff.mp h
    cases heq
    rw [ih hread, ih' _ hread']
    simp [forestTokens, Nest.tokens]

private theorem readForest_complete {n : Nat} (ts : List (Nest κ α)) (rest : List (Token κ α))
    (hn : (forestTokens ts).length < n) :
    readForest n (forestTokens ts ++ .leave :: rest) = some (ts, rest) := by
  have key : (∀ t : Nest κ α, ∀ n ts rest tokens, t.tokens.length + (forestTokens ts).length < n →
        (∀ n, (forestTokens ts).length < n → readForest n tokens = some (ts, rest)) →
        readForest n (t.tokens ++ tokens) = some (t :: ts, rest)) ∧
      ∀ ts : List (Nest κ α), ∀ n rest, (forestTokens ts).length < n →
        readForest n (forestTokens ts ++ .leave :: rest) = some (ts, rest) := by
    apply Nest.induct
    · intro a n ts rest tokens hn htokens
      obtain ⟨n, rfl⟩ : ∃ n', n = n' + 1 := ⟨n - 1, by omega⟩
      simp only [Nest.tokens, List.length_singleton] at hn
      show readForest (n + 1) (.leaf a :: tokens) = _
      rw [readForest, htokens n (by omega)]
      rfl
    · intro k children ih n ts rest tokens hn htokens
      obtain ⟨n, rfl⟩ : ∃ n', n = n' + 1 := ⟨n - 1, by omega⟩
      simp only [Nest.tokens, List.length_cons, List.length_append, List.length_nil] at hn
      show readForest (n + 1) (.enter k :: (forestTokens children ++ [.leave]) ++ tokens) = _
      have hassoc : .enter k :: (forestTokens children ++ [.leave]) ++ tokens =
          .enter k :: (forestTokens children ++ .leave :: tokens) := by simp
      rw [hassoc, readForest, ih n tokens (by omega)]
      show (readForest n tokens).bind _ = _
      rw [htokens n (by omega)]
      rfl
    · intro n rest hn
      obtain ⟨n, rfl⟩ : ∃ n', n = n' + 1 := ⟨n - 1, by omega⟩
      rfl
    · intro t ts iht ihts n rest hn
      rw [forestTokens, List.length_append] at hn
      rw [forestTokens, List.append_assoc]
      exact iht n ts rest _ hn fun m hm => ihts m rest hm
  exact key.2 ts n rest hn

/-- **A tree is read back from its tokens, and from no others.** -/
theorem readNest_iff {tokens : List (Token κ α)} {t : Nest κ α} :
    readNest tokens = some t ↔ t.tokens = tokens := by
  constructor
  · intro h
    unfold readNest at h
    split at h
    · cases h
      simp [Nest.tokens]
    · split at h
      · rename_i hread
        cases h
        rw [readForest_sound hread]
        simp [Nest.tokens]
      · cases h
    · cases h
  · rintro rfl
    cases t with
    | leaf a => rfl
    | node k children =>
      show readNest (.enter k :: (forestTokens children ++ [.leave])) = _
      have hn : (forestTokens children).length <
          (forestTokens children ++ [Token.leave]).length := by simp
      rw [readNest, readForest_complete children [] hn]

/-! ### Making a value -/

/-- What is done at each token: the value of a leaf, the container that an opening token begins,
    putting a value into a container, and the value of a container that is closed. -/
structure Builder (κ α F V : Type) where
  leaf : α → Option V
  enter : κ → F
  put : F → V → Option F
  leave : F → Option V

variable (b : Builder κ α F V)

mutual

/-- The value of a tree, by recursion. -/
def Nest.build : Nest κ α → Option V
  | .leaf a          => b.leaf a
  | .node k children => (putAll (b.enter k) children).bind b.leave

/-- A container with the values of some trees put into it, one after the other. -/
def putAll (f : F) : List (Nest κ α) → Option F
  | []      => some f
  | t :: ts => (t.build).bind fun v => (b.put f v).bind fun f => putAll f ts

end

/-- A value that is being made: the containers that are open, innermost first, and the value that
    is there when none is. -/
structure State (F V : Type) where
  stack : List F
  root : Option V

/-- Put a value where it belongs. -/
def State.place (s : State F V) (v : V) : Option (State F V) :=
  match s.stack with
  | []         => if s.root.isNone then some ⟨[], some v⟩ else none
  | f :: stack => (b.put f v).map fun f => ⟨f :: stack, s.root⟩

/-- Take one token. -/
def State.step (s : State F V) : Token κ α → Option (State F V)
  | .enter k => some ⟨b.enter k :: s.stack, s.root⟩
  | .leaf a  => (b.leaf a).bind (s.place b)
  | .leave   =>
    match s.stack with
    | []         => none
    | f :: stack => (b.leave f).bind (State.place b ⟨stack, s.root⟩)

/-- Take some tokens. -/
def State.run (s : State F V) (tokens : List (Token κ α)) : Option (State F V) :=
  tokens.foldlM (State.step b) s

variable {b} {s s' : State F V} {tokens rest : List (Token κ α)}

@[simp] theorem State.run_nil : s.run b [] = some s := rfl

theorem State.run_cons (token : Token κ α) :
    s.run b (token :: tokens) = (s.step b token).bind (State.run b · tokens) := rfl

/-- What the tokens of a tree and those of some trees do. -/
theorem State.run_tokens :
    (∀ (t : Nest κ α) (s : State F V) (rest : List (Token κ α)),
      s.run b (t.tokens ++ rest) =
        (t.build b).bind fun v => (s.place b v).bind (State.run b · rest)) ∧
    ∀ (ts : List (Nest κ α)) (f : F) (stack : List F) (root : Option V)
      (rest : List (Token κ α)),
      State.run b ⟨f :: stack, root⟩ (forestTokens ts ++ rest) =
        (putAll b f ts).bind fun f => State.run b ⟨f :: stack, root⟩ rest := by
  apply Nest.induct
  · intro a s rest
    show ((b.leaf a).bind (s.place b)).bind (State.run b · rest) = _
    rw [Nest.build, Option.bind_assoc]
  · intro k children ih s rest
    have hassoc : (Nest.node k children).tokens ++ rest =
        .enter k :: (forestTokens children ++ .leave :: rest) := by simp [Nest.tokens]
    rw [hassoc, State.run_cons]
    show State.run b ⟨b.enter k :: s.stack, s.root⟩ _ = _
    rw [ih, Nest.build, Option.bind_assoc]
    apply Option.bind_congr
    intro f _
    show ((b.leave f).bind (s.place b)).bind (State.run b · rest) = _
    rw [Option.bind_assoc]
  · intro f stack root rest
    rfl
  · intro t ts iht ihts f stack root rest
    rw [forestTokens, List.append_assoc, iht, putAll, Option.bind_assoc]
    apply Option.bind_congr
    intro v _
    show ((b.put f v).map _).bind _ = _
    rw [Option.bind_assoc, Option.bind_map]
    apply Option.bind_congr
    intro f' _
    exact ihts f' stack root rest

/-- **One tree, whatever is open.**  The tokens of a tree put its value where it belongs. -/
theorem State.run_nest (t : Nest κ α) (s : State F V) (rest : List (Token κ α)) :
    s.run b (t.tokens ++ rest) =
      (t.build b).bind fun v => (s.place b v).bind (State.run b · rest) :=
  State.run_tokens.1 t s rest

/-- **What is open is closed.**  A run that leaves nothing open goes through trees to the end of
    the innermost container. -/
theorem State.closes {f : F} {stack : List F} {root : Option V}
    (h : State.run b ⟨f :: stack, root⟩ tokens = some s') (hs' : s'.stack = []) :
    ∃ ts rest, tokens = forestTokens ts ++ .leave :: rest := by
  induction hn : tokens.length using Nat.strongRecOn generalizing tokens f stack with
  | ind n ih =>
    cases tokens with
    | nil =>
      rw [State.run_nil, Option.some.injEq] at h
      rw [← h] at hs'
      cases hs'
    | cons token tokens =>
      rw [List.length_cons] at hn
      rw [State.run_cons] at h
      obtain ⟨s₁, hstep, hrun⟩ := Option.bind_eq_some_iff.mp h
      cases token with
      | leave => exact ⟨[], tokens, rfl⟩
      | leaf a =>
        obtain ⟨v, hv, hplace⟩ := Option.bind_eq_some_iff.mp hstep
        obtain ⟨f', hput, rfl⟩ := Option.map_eq_some_iff.mp hplace
        obtain ⟨ts, rest, rfl⟩ := ih tokens.length (by omega) hrun rfl
        exact ⟨.leaf a :: ts, rest, by simp [forestTokens, Nest.tokens]⟩
      | enter k =>
        cases hstep
        obtain ⟨children, rest, rfl⟩ := ih tokens.length (by omega) hrun rfl
        -- the node that ends there goes into the container, and the run goes on behind it
        have hnode : .enter k :: (forestTokens children ++ .leave :: rest) =
            (Nest.node k children).tokens ++ rest := by simp [Nest.tokens]
        rw [← State.run_cons, hnode, State.run_nest] at h
        obtain ⟨v, hv, h⟩ := Option.bind_eq_some_iff.mp h
        obtain ⟨s₂, hplace, h⟩ := Option.bind_eq_some_iff.mp h
        obtain ⟨f', hput, rfl⟩ := Option.map_eq_some_iff.mp hplace
        have hless : rest.length < n := by
          rw [List.length_append, List.length_cons] at hn
          omega
        obtain ⟨ts, rest', rfl⟩ := ih rest.length hless h rfl
        exact ⟨.node k children :: ts, rest', by simp [forestTokens, Nest.tokens]⟩

/-- A run with nothing open at its start and its end starts with a tree. -/
theorem State.exists_nest {root : Option V}
    (h : State.run b ⟨[], root⟩ tokens = some s') (hs' : s'.stack = []) :
    tokens = [] ∨ ∃ (t : Nest κ α) (rest : _), tokens = t.tokens ++ rest := by
  cases tokens with
  | nil => exact .inl rfl
  | cons token tokens =>
    right
    rw [State.run_cons] at h
    obtain ⟨s₁, hstep, hrun⟩ := Option.bind_eq_some_iff.mp h
    cases token with
    | leave => cases hstep
    | leaf a => exact ⟨.leaf a, tokens, rfl⟩
    | enter k =>
      cases hstep
      obtain ⟨children, rest, rfl⟩ := State.closes hrun hs'
      exact ⟨.node k children, rest, by simp [Nest.tokens]⟩

/-- With the value there, no more can come. -/
theorem State.run_root {v : V} (h : State.run b ⟨[], some v⟩ tokens = some s')
    (hs' : s'.stack = []) : tokens = [] ∧ s'.root = some v := by
  rcases State.exists_nest h hs' with rfl | ⟨t, rest, rfl⟩
  · cases h
    exact ⟨rfl, rfl⟩
  · rw [State.run_nest] at h
    obtain ⟨w, _, h⟩ := Option.bind_eq_some_iff.mp h
    obtain ⟨s₁, hplace, _⟩ := Option.bind_eq_some_iff.mp h
    cases hplace

/-- **Token by token is by recursion.** -/
theorem run_iff {v : V} :
    State.run b ⟨[], none⟩ tokens = some ⟨[], some v⟩ ↔
      (readNest tokens).bind (Nest.build b) = some v := by
  constructor
  · intro h
    rcases State.exists_nest h rfl with rfl | ⟨t, rest, rfl⟩
    · cases h
    · rw [State.run_nest] at h
      obtain ⟨w, hw, h⟩ := Option.bind_eq_some_iff.mp h
      obtain ⟨hrest, hroot⟩ := State.run_root (h : State.run b ⟨[], some w⟩ rest = _) rfl
      cases hroot
      rw [hrest, List.append_nil, readNest_iff.mpr rfl]
      exact hw
  · intro h
    obtain ⟨t, hread, hbuild⟩ := Option.bind_eq_some_iff.mp h
    obtain rfl := readNest_iff.mp hread
    rw [← List.append_nil t.tokens, State.run_nest, hbuild]
    rfl

end Omdrop.Nested
