import Omdrop.Send.Http

namespace Omdrop.Send.Http

open Omdrop.Stream Omdrop.Text

/-!
# Responses in a stream

What a stream of bytes holds is said here once, for the whole stream: `responseAt` is the response
at its front and what follows it.  `responseAt_front` says that the response ends where it does:
the same is read whatever follows.
-/

/-- What is known of the parser: it wants more of every part of a head that it accepts, and more
    bytes behind a head or behind what is none do not change its mind. -/
structure Httparse.Lawful [Httparse] : Prop where
  head : ∀ {P n resp}, Httparse.response P = .complete n resp →
    Httparse.response (P.take n) = .complete n resp
  part : ∀ {P n resp k}, Httparse.response P = .complete n resp → k < n →
    Httparse.response (P.take k) = .incomplete
  more : ∀ {P n resp} (T), Httparse.response P = .complete n resp →
    Httparse.response (P ++ T) = .complete n resp
  wrong : ∀ {P why} (T), Httparse.response P = .error why →
    Httparse.response (P ++ T) = .error why

/-! ### What a stream holds -/

/-- How the bytes end, `e` being what it means to end here. -/
def endsWith (fin : Option HttpErr) (e : HttpErr) : HttpErr := (fin.filter (! isEof ·)).getD e

/-- The line at the front of a stream, and what follows it. -/
def lineAt (fin : Option HttpErr) (S : List UInt8) : Except HttpErr (Text × List UInt8) :=
  match crlfAt S with
  | some i => .ok (fromUtf8Lossy (S.take i), S.drop (i + 2))
  | none   =>
    if maxHeadBytes < S.length then .error (pyErr "LineTooLong" "chunk line too long")
    else .error (endsWith fin
      (pyErr "IncompleteRead" "connection closed inside a chunked body"))

/-- The first `n` bytes, and what follows them. -/
def bytesAt (n : Nat) (fin : Option HttpErr) (S : List UInt8) :
    Except HttpErr (List UInt8 × List UInt8) :=
  if n ≤ S.length then .ok (S.take n, S.drop n)
  else .error (endsWith fin (pyErr "IncompleteRead" (decimal S.length ++
    " bytes read, ".toList ++ decimal (n - S.length) ++ " more expected".toList)))

/-- A line takes at least its end. -/
theorem length_lineAt {fin : Option HttpErr} {S rest : List UInt8} {line : Text}
    (h : lineAt fin S = .ok (line, rest)) : rest.length < S.length := by
  unfold lineAt at h
  split at h
  · rename_i i hi
    cases h
    have := crlfAt_le hi
    rw [List.length_drop]
    omega
  · split at h <;> cases h

/-- Counted bytes leave no more than there were. -/
private theorem length_bytesAt {n : Nat} {fin : Option HttpErr} {S bs rest : List UInt8}
    (h : bytesAt n fin S = .ok (bs, rest)) : rest.length ≤ S.length := by
  unfold bytesAt at h
  split at h <;> cases h
  rw [List.length_drop]
  exact Nat.sub_le _ _

/-- What follows the trailers. -/
def trailersAt (fin : Option HttpErr) (S : List UInt8) : Except HttpErr (List UInt8) :=
  match _h : lineAt fin S with
  | .error e          => .error e
  | .ok (line, rest) => if line = [] then .ok rest else trailersAt fin rest
termination_by S.length
decreasing_by exact length_lineAt _h

/-- The data of the chunks up to the last, behind `body`, and what follows the last one's line. -/
def chunksAt (fin : Option HttpErr) (body S : List UInt8) :
    Except HttpErr (List UInt8 × List UInt8) :=
  match _hline : lineAt fin S with
  | .error e          => .error e
  | .ok (line, rest) =>
    match chunkSize line with
    | .error e => .error e
    | .ok size =>
      if size = 0 then .ok (body, rest)
      else if maxResponseBytes < min (body.length + size) (2 ^ 64 - 1) then
        .error (pyErr "HTTPException" "chunked response is too large")
      else
        match _hdata : bytesAt size fin rest with
        | .error e              => .error e
        | .ok (chunk, rest') =>
          match _hend : lineAt fin rest' with
          | .error e               => .error e
          | .ok (line, rest'') =>
            if line = [] then chunksAt fin (body ++ chunk) rest''
            else .error (pyErr "IncompleteRead" "chunk not followed by CRLF")
termination_by S.length
decreasing_by
  have h₁ := length_lineAt _hline
  have h₂ := length_bytesAt _hdata
  have h₃ := length_lineAt _hend
  omega

/-- A body at the front of a stream, and what follows it. -/
def bodyAt (framing : Framing) (fin : Option HttpErr) (S : List UInt8) :
    Except HttpErr (List UInt8 × List UInt8) :=
  match framing with
  | .none       => .ok ([], S)
  | .length n   => bytesAt n fin S
  | .chunked    =>
    match chunksAt fin [] S with
    | .error e           => .error e
    | .ok (body, rest) => (trailersAt fin rest).map (body, ·)
  | .untilClose =>
    if maxResponseBytes < S.length then .error (pyErr "HTTPException" "response is too large")
    else match fin.filter (! isEof ·) with
      | none   => .ok (S, [])
      | some e => .error e

section Heads

variable [Httparse]

/-- The head at the front of a stream. -/
def headAt (fin : Option HttpErr) (S : List UInt8) : Except HttpErr Head :=
  match headIn S with
  | some (.ok (n, resp)) => headOf n resp
  | some (.error why)    => .error (badStatus why)
  | none                 =>
    if maxHeadBytes < S.length then .error (pyErr "LineTooLong" "response head too long")
    else .error (endsWith fin (if S = [] then
        pyErr "RemoteDisconnected" "Remote end closed connection without response"
      else pyErr "IncompleteRead" "connection closed inside the response head"))

/-- A head takes at least a byte. -/
theorem length_headAt {fin : Option HttpErr} {S : List UInt8} {head : Head}
    (h : headAt fin S = .ok head) : (S.drop head.len).length < S.length := by
  unfold headAt at h
  split at h
  · rename_i n resp hin
    have hresp := headIn_ok hin
    have hpos := Httparse.complete_pos hresp
    have hle := Httparse.complete_le hresp
    rw [headOf_len h, List.length_drop]
    omega
  · cases h
  · split at h <;> cases h

/-- The response at the front of a stream, and what follows it. -/
def responseAt (fin : Option HttpErr) (S : List UInt8) : Except HttpErr (Response × List UInt8) :=
  match _h : headAt fin S with
  | .error e  => .error e
  | .ok head =>
    if isInterim head.status then responseAt fin (S.drop head.len)
    else
      match bodyAt head.framing fin (S.drop head.len) with
      | .error e           => .error e
      | .ok (body, rest) => .ok (⟨head.status, head.reason, body⟩, rest)
termination_by S.length
decreasing_by exact length_headAt _h

end Heads

/-! ### What was found -/

/-- Where a line ends does not depend on what follows. -/
theorem crlfAt_stable : Incoming.Stable crlfAt := by
  intro P T i h
  fun_induction crlfAt P generalizing i with
  | case1 bs =>
    cases h
    rfl
  | case2 b bs hne ih =>
    obtain ⟨j, hj, rfl⟩ := Option.map_eq_some_iff.mp h
    rw [List.cons_append, crlfAt.eq_2 _ _ ?_, ih j hj]
    · rfl
    · intro rest hb hbs
      cases bs with
      | nil => cases hj
      | cons b' bs =>
        rw [List.cons_append, List.cons.injEq] at hbs
        exact hne bs hb (by rw [hbs.1])
  | case3 => cases h

/-- A line end is found where it is, in as many bytes as it needs. -/
theorem crlfAt_take {P : List UInt8} {i : Nat} (h : crlfAt P = some i) :
    crlfAt (P.take (i + 2)) = some i := by
  fun_induction crlfAt P generalizing i with
  | case1 bs =>
    cases h
    rfl
  | case2 b bs hne ih =>
    obtain ⟨j, hj, rfl⟩ := Option.map_eq_some_iff.mp h
    rw [List.take_succ_cons, crlfAt.eq_2 _ _ ?_, ih hj]
    · rfl
    · intro rest hb hbs
      cases bs with
      | nil => cases hj
      | cons b' bs =>
        rw [List.take_succ_cons, List.cons.injEq] at hbs
        exact hne bs hb (by rw [hbs.1])
  | case3 => cases h

/-- A line that is read goes up to the first line end. -/
theorem lineAt_ok {fin : Option HttpErr} {S rest : List UInt8} {line : Text}
    (h : lineAt fin S = .ok (line, rest)) :
    ∃ i, crlfAt S = some i ∧ line = fromUtf8Lossy (S.take i) ∧ rest = S.drop (i + 2) := by
  unfold lineAt at h
  split at h
  · rename_i i hi
    cases h
    exact ⟨i, hi, rfl, rfl⟩
  · split at h <;> cases h

/-- An empty line has its end in front. -/
theorem lineAt_nil {S : List UInt8} {i : Nat} (hi : crlfAt S = some i) (hnil : fromUtf8Lossy (S.take i) = []) :
    i = 0 := by
  have hle := crlfAt_le hi
  have htake := congrArg List.length (fromUtf8Lossy_eq_nil.mp hnil)
  rw [List.length_take, List.length_nil] at htake
  omega

/-- Counted bytes are as many as were counted. -/
theorem bytesAt_ok {n : Nat} {fin : Option HttpErr} {S bs rest : List UInt8}
    (h : bytesAt n fin S = .ok (bs, rest)) : bs.length = n ∧ rest = S.drop n := by
  unfold bytesAt at h
  split at h <;> cases h
  rename_i hle
  exact ⟨List.length_take_of_le hle, rfl⟩

/-- What a head says is what its own bytes say, so the way goes on behind it. -/
theorem headAt_ok [Httparse] {fin : Option HttpErr} {S : List UInt8} {head : Head}
    (h : headAt fin S = .ok head) :
    ∃ n resp, Httparse.response S = .complete n resp ∧ headOf n resp = .ok head ∧ head.len = n := by
  unfold headAt at h
  split at h
  · rename_i n resp hin
    exact ⟨n, resp, headIn_ok hin, h, headOf_len h⟩
  · cases h
  · split at h <;> cases h

/-! ### What the loops do next -/

/-- One turn of the trailer. -/
theorem trailersAt_turn (fin : Option HttpErr) (S : List UInt8) :
    trailersAt fin S = match lineAt fin S with
      | .error e          => .error e
      | .ok (line, rest) => if line = [] then .ok rest else trailersAt fin rest := by
  rw [trailersAt]
  split <;> rename_i h <;> rw [h]

/-- One turn of the chunks. -/
theorem chunksAt_turn (fin : Option HttpErr) (body S : List UInt8) :
    chunksAt fin body S = match lineAt fin S with
      | .error e          => .error e
      | .ok (line, rest) =>
        match chunkSize line with
        | .error e => .error e
        | .ok size =>
          if size = 0 then .ok (body, rest)
          else if maxResponseBytes < min (body.length + size) (2 ^ 64 - 1) then
            .error (pyErr "HTTPException" "chunked response is too large")
          else
            match bytesAt size fin rest with
            | .error e            => .error e
            | .ok (chunk, rest') =>
              match lineAt fin rest' with
              | .error e             => .error e
              | .ok (line, rest'') =>
                if line = [] then chunksAt fin (body ++ chunk) rest''
                else .error (pyErr "IncompleteRead" "chunk not followed by CRLF") := by
  rw [chunksAt]
  split <;> rename_i hline <;> rw [hline]
  dsimp only
  split
  · rfl
  · split_ifs
    · rfl
    · rfl
    · split <;> rename_i hdata <;> rw [hdata]
      dsimp only
      split <;> rename_i hend <;> rw [hend]

/-- One head of a response. -/
theorem responseAt_turn [Httparse] (fin : Option HttpErr) (S : List UInt8) :
    responseAt fin S = match headAt fin S with
      | .error e => .error e
      | .ok head =>
        if isInterim head.status then responseAt fin (S.drop head.len)
        else
          match bodyAt head.framing fin (S.drop head.len) with
          | .error e         => .error e
          | .ok (body, rest) => .ok (⟨head.status, head.reason, body⟩, rest) := by
  rw [responseAt]
  split <;> rename_i h <;> rw [h]

/-! ### Where a response ends -/

/-- What is read is at the front, and it is what is read whatever follows the front. -/
def Front {α : Type} (read : Option HttpErr → List UInt8 → Except HttpErr (α × List UInt8))
    (S : List UInt8) (a : α) (rest : List UInt8) : Prop :=
  ∃ front, S = front ++ rest ∧ ∀ fin T, read fin (front ++ T) = .ok (a, T)

section Front

variable {fin : Option HttpErr} {S rest : List UInt8}

/-- A line depends only on the bytes it takes. -/
theorem lineAt_front {line : Text} (h : lineAt fin S = .ok (line, rest)) :
    Front lineAt S line rest := by
  obtain ⟨i, hi, rfl, rfl⟩ := lineAt_ok h
  have hle := crlfAt_le hi
  refine ⟨S.take (i + 2), (List.take_append_drop _ _).symm, fun fin T => ?_⟩
  have hlen : (S.take (i + 2)).length = i + 2 := List.length_take_of_le hle
  unfold lineAt
  rw [crlfAt_stable _ _ _ (crlfAt_take hi)]
  dsimp only
  rw [List.drop_left' hlen, List.take_append_of_le_length (by omega), List.take_take]
  rw [Nat.min_eq_left (by omega)]

/-- Counted bytes depend only on themselves. -/
theorem bytesAt_front {n : Nat} {bs : List UInt8} (h : bytesAt n fin S = .ok (bs, rest)) :
    Front (bytesAt n) S bs rest := by
  unfold bytesAt at h
  split at h <;> cases h
  rename_i hle
  have hlen : (S.take n).length = n := List.length_take_of_le hle
  refine ⟨S.take n, (List.take_append_drop _ _).symm, fun fin T => ?_⟩
  unfold bytesAt
  rw [if_pos (by rw [List.length_append]; omega), List.take_left' hlen, List.drop_left' hlen]

/-- A trailer depends only on the bytes it takes. -/
private theorem trailersAt_front (h : trailersAt fin S = .ok rest) :
    ∃ front, S = front ++ rest ∧ ∀ fin T, trailersAt fin (front ++ T) = .ok T := by
  fun_induction trailersAt fin S with
  | case1 => cases h
  | case2 S rest' hline =>
    -- a blank line ends the trailers
    cases h
    obtain ⟨front, rfl, hfront⟩ := lineAt_front hline
    refine ⟨front, rfl, fun fin T => ?_⟩
    rw [trailersAt_turn, hfront]
    exact if_pos rfl
  | case3 S line rest' hline hne ih =>
    -- the line is one of a trailer
    obtain ⟨front, rfl, hfront⟩ := lineAt_front hline
    obtain ⟨front', rfl, hfront'⟩ := ih h
    refine ⟨front ++ front', (List.append_assoc _ _ _).symm, fun fin T => ?_⟩
    rw [List.append_assoc, trailersAt_turn, hfront]
    exact (if_neg hne).trans (hfront' fin T)

/-- Chunks depend only on the bytes they take. -/
private theorem chunksAt_front {body b : List UInt8} (h : chunksAt fin body S = .ok (b, rest)) :
    Front (fun fin => chunksAt fin body) S b rest := by
  fun_induction chunksAt fin body S with
  | case1 => cases h
  | case2 => cases h
  | case3 body S line rest' hline hsize =>
    -- an empty chunk, and the trailers
    cases h
    obtain ⟨front, rfl, hfront⟩ := lineAt_front hline
    refine ⟨front, rfl, fun fin T => ?_⟩
    show chunksAt fin b (front ++ T) = _
    rw [chunksAt_turn, hfront]
    dsimp only
    rw [hsize]
    exact if_pos rfl
  | case4 => cases h
  | case5 => cases h
  | case6 => cases h
  | case7 body S line rest' hline size hsize hzero hsmall chunk rest₂ hdata rest₃ hend ih =>
    -- a chunk with the line end behind it, and the others
    obtain ⟨front, rfl, hfront⟩ := lineAt_front hline
    obtain ⟨front₂, rfl, hfront₂⟩ := bytesAt_front hdata
    obtain ⟨front₃, rfl, hfront₃⟩ := lineAt_front hend
    obtain ⟨front₄, rfl, hfront₄⟩ := ih h
    refine ⟨front ++ (front₂ ++ (front₃ ++ front₄)), by simp only [List.append_assoc],
      fun fin T => ?_⟩
    simp only [List.append_assoc]
    rw [chunksAt_turn, hfront]
    dsimp only
    rw [hsize]
    dsimp only
    rw [if_neg hzero, if_neg hsmall, hfront₂]
    dsimp only
    rw [hfront₃]
    dsimp only
    rw [if_pos rfl]
    exact hfront₄ fin T
  | case8 => cases h

/-- A body that ends by itself depends only on the bytes it takes. -/
private theorem bodyAt_front {framing : Framing} {body : List UInt8}
    (hframing : framing ≠ .untilClose)
    (h : bodyAt framing fin S = .ok (body, rest)) : Front (bodyAt framing) S body rest := by
  cases framing with
  | none =>
    cases h
    exact ⟨[], rfl, fun fin T => rfl⟩
  | length n => exact bytesAt_front h
  | chunked =>
    dsimp only [bodyAt] at h
    cases hchunks : chunksAt fin [] S with
    | error e =>
      rw [hchunks] at h
      cases h
    | ok found =>
      obtain ⟨body', rest'⟩ := found
      rw [hchunks] at h
      dsimp only at h
      cases htrailers : trailersAt fin rest' with
      | error e =>
        rw [htrailers] at h
        cases h
      | ok rest'' =>
        rw [htrailers] at h
        cases h
        obtain ⟨front, rfl, hfront⟩ := chunksAt_front hchunks
        obtain ⟨front', rfl, hfront'⟩ := trailersAt_front htrailers
        refine ⟨front ++ front', (List.append_assoc _ _ _).symm, fun fin T => ?_⟩
        have hchunks' : chunksAt fin [] (front ++ (front' ++ T)) = .ok (body, front' ++ T) :=
          hfront fin _
        dsimp only [bodyAt]
        rw [List.append_assoc, hchunks']
        dsimp only
        rw [hfront']
        rfl
  | untilClose => exact absurd rfl hframing

end Front

section Heads

variable [Httparse]

/-- How the body of a response is framed. -/
def framingAt (S : List UInt8) : Option Framing :=
  match _h : headAt none S with
  | .error _ => none
  | .ok head => if isInterim head.status then framingAt (S.drop head.len) else some head.framing
termination_by S.length
decreasing_by exact length_headAt _h

variable {fin : Option HttpErr} {S rest : List UInt8}

/-- The framing is that of the first head that is not an interim one. -/
theorem framingAt_of_head {head : Head} (h : headAt none S = .ok head) :
    framingAt S =
      if isInterim head.status then framingAt (S.drop head.len) else some head.framing := by
  rw [framingAt]
  split <;> rename_i h' <;> rw [h] at h' <;> cases h'
  rfl

/-- A head depends only on the bytes it takes. -/
theorem headAt_front (hlaw : Httparse.Lawful) {head : Head} (h : headAt fin S = .ok head) :
    ∃ front, S = front ++ S.drop head.len ∧ front.length = head.len ∧
      ∀ fin T, headAt fin (front ++ T) = .ok head := by
  obtain ⟨n, resp, hresp, hof, rfl⟩ := headAt_ok h
  have hlen : (S.take head.len).length = head.len :=
    List.length_take_of_le (Httparse.complete_le hresp)
  refine ⟨S.take head.len, (List.take_append_drop _ _).symm, hlen, fun fin T => ?_⟩
  unfold headAt headIn
  rw [hlaw.more T (hlaw.head hresp)]
  exact hof

/-- **A response ends where it does.** -/
theorem responseAt_front (hlaw : Httparse.Lawful) {r : Response}
    (h : responseAt fin S = .ok (r, rest)) (hframing : framingAt S ≠ some .untilClose) :
    Front responseAt S r rest := by
  fun_induction responseAt fin S with
  | case1 => cases h
  | case2 S head hhead hinterim ih =>
    -- an interim head is passed over
    obtain ⟨front, hS, hlen, hfront⟩ := headAt_front hlaw hhead
    have hnone : headAt none S = .ok head := by
      rw [hS]
      exact hfront none _
    rw [framingAt_of_head hnone, if_pos hinterim] at hframing
    obtain ⟨front', hS', hfront'⟩ := ih h hframing
    rw [hS'] at hS
    refine ⟨front ++ front', by rw [hS, List.append_assoc], fun fin T => ?_⟩
    rw [List.append_assoc, responseAt_turn, hfront]
    dsimp only
    rw [if_pos hinterim, List.drop_left' hlen]
    exact hfront' fin T
  | case3 => cases h
  | case4 S head hhead hinterim body rest' hbody =>
    -- the head of the response, and its body
    cases h
    obtain ⟨front, hS, hlen, hfront⟩ := headAt_front hlaw hhead
    have hnone : headAt none S = .ok head := by
      rw [hS]
      exact hfront none _
    rw [framingAt_of_head hnone, if_neg hinterim] at hframing
    obtain ⟨front', hS', hfront'⟩ := bodyAt_front (fun hclose => hframing (by rw [hclose])) hbody
    rw [hS'] at hS
    refine ⟨front ++ front', by rw [hS, List.append_assoc], fun fin T => ?_⟩
    rw [List.append_assoc, responseAt_turn, hfront]
    dsimp only
    rw [if_neg hinterim, List.drop_left' hlen, hfront']

end Heads

/-- A parser that knows one head. -/
@[reducible] def Httparse.single (H : List UInt8) (hne : H ≠ []) (resp : ParsedHead) :
    Httparse where
  response P :=
    if H <+: P then .complete H.length resp
    else if P <+: H then .incomplete
    else .error "invalid token"
  complete_pos h := by
    split_ifs at h
    cases h
    exact List.length_pos_iff.mpr hne
  complete_le h := by
    split_ifs at h with hH
    cases h
    exact hH.length_le

section Single

variable {H P : List UInt8} {hne : H ≠ []} {resp : ParsedHead}

/-- A parser that knows one head. -/
theorem Httparse.single_eq :
    (Httparse.single H hne resp).response P =
      if H <+: P then .complete H.length resp
      else if P <+: H then .incomplete
      else .error "invalid token" := rfl

/-- The parser of one head gives the response of that head, and nothing else. -/
theorem Httparse.single_complete {n : Nat} {r : ParsedHead}
    (h : (Httparse.single H hne resp).response P = .complete n r) :
    H <+: P ∧ n = H.length ∧ r = resp := by
  rw [single_eq] at h
  split_ifs at h with hH
  cases h
  exact ⟨hH, rfl, rfl⟩

/-- The parser of one head obeys the laws. -/
theorem Httparse.single_lawful : @Httparse.Lawful (Httparse.single H hne resp) := by
  refine @Httparse.Lawful.mk (Httparse.single H hne resp) ?_ ?_ ?_ ?_
  · intro P n r h
    obtain ⟨⟨T, rfl⟩, rfl, rfl⟩ := single_complete h
    rw [single_eq, List.take_left, if_pos (List.prefix_refl _)]
  · intro P n r k h hk
    obtain ⟨⟨T, rfl⟩, rfl, rfl⟩ := single_complete h
    rw [single_eq, List.take_append_of_le_length hk.le, if_neg, if_pos (List.take_prefix _ _)]
    intro hprefix
    have := hprefix.length_le
    rw [List.length_take] at this
    omega
  · intro P n r T h
    obtain ⟨hH, rfl, rfl⟩ := single_complete h
    rw [single_eq, if_pos (hH.trans (List.prefix_append _ _))]
  · intro P why T h
    rw [single_eq] at h
    split_ifs at h with hH hP
    cases h
    have hH' : ¬ H <+: P ++ T := fun h => by
      rcases List.prefix_or_prefix_of_prefix h (List.prefix_append P T) with h | h
      · exact hH h
      · exact hP h
    have hP' : ¬ P ++ T <+: H := fun h => hP ((List.prefix_append P T).trans h)
    rw [single_eq, if_neg hH', if_neg hP']

end Single

end Omdrop.Send.Http
