import Omdrop.Cli.Arrivals
import Omdrop.Proto.AllOrNothing
import Omdrop.Proto.Ceilings
import Omdrop.Proto.NameLimits

namespace Omdrop.Cli

open Omdrop.Text Omdrop.Stream Omdrop.Proto Omdrop.Receiver

/-!
# Watching

What the watcher announces are regular files of the download directory (`cmdWatch_sound`).  After an
upload these are exactly the files it stored when no name has a separator of lines in it and none
has a beginning, up to a comma and a blank, that is a file as well (`cmdWatch_upload_iff`).
-/

/-! ### The watcher -/

/-- What the watcher announces, and what it ignores, when it reads lines of the log while the
    directory is as it is; with `once` the first files are the last. -/
def cmdWatch (once : Bool) : List (Text × (FileName → Option Entry)) → List Text × List Text
  | []                    => ([], [])
  | (line, entries) :: rest =>
    match arrivals line with
    | none   => cmdWatch once rest
    | some a =>
      let (found, missing) := resolveArrivals entries a
      if once ∧ found ≠ [] then (found, missing)
      else ((cmdWatch once rest).map (found ++ ·) (missing ++ ·))

variable {entries : FileName → Option Entry}

/-- A line without arrivals announces nothing. -/
theorem cmdWatch_none {once : Bool} {line : Text} (h : arrivals line = none)
    (rest : List (Text × (FileName → Option Entry))) :
    cmdWatch once ((line, entries) :: rest) = cmdWatch once rest := by
  rw [cmdWatch, h]

/-- A line with arrivals announces them. -/
theorem cmdWatch_false_some {line : Text} {a : ArrivalNames} (h : arrivals line = some a)
    (rest : List (Text × (FileName → Option Entry))) :
    cmdWatch false ((line, entries) :: rest) = (cmdWatch false rest).map
      ((resolveArrivals entries a).1 ++ ·) ((resolveArrivals entries a).2 ++ ·) := by
  rw [cmdWatch, h]
  exact if_neg (by simp)

/-- A name that is hit is a file that arrived. -/
private theorem arrived_of_firstHit {front x : Text} {ps rest : List Text}
    (h : firstHit entries front ps = some (x, rest)) : arrivedFile entries x = true := by
  induction ps generalizing front with
  | nil =>
    unfold firstHit at h
    split_ifs at h with harrived
    cases h
    exact harrived
  | cons p ps ih =>
    unfold firstHit at h
    split_ifs at h with harrived
    · cases h
      exact harrived
    · exact ih h

/-- Every name that is resolved is a file that arrived. -/
private theorem arrived_of_resolvePieces {ps : List Text} {x : Text}
    (h : x ∈ (resolvePieces entries ps).1) : arrivedFile entries x = true := by
  fun_induction resolvePieces entries ps with
  | case1 => cases h
  | case2 p ps y rest hit ih =>
    -- a file is named by the pieces from here on
    rcases List.mem_cons.mp h with rfl | h
    · exact arrived_of_firstHit hit
    · exact ih h
  | case3 p ps hit ih => exact ih h

/-- What is found is there. -/
private theorem arrived_of_resolveArrivals {a : ArrivalNames} {x : Text}
    (h : x ∈ (resolveArrivals entries a).1) : arrivedFile entries x = true := by
  cases a with
  | link name =>
    by_cases harrived : arrivedFile entries name = true
    · rw [resolveArrivals, if_pos harrived] at h
      rwa [List.mem_singleton.mp h]
    · rw [resolveArrivals, if_neg harrived] at h
      cases h
  | stored names => exact arrived_of_resolvePieces h

/-- A record of the log, read while the directory is as it is. -/
structure Event where
  clock : Clock
  record : LogRecord
  entries : FileName → Option Entry

/-- What the watcher sees of it. -/
def Event.seen (e : Event) : Text × (FileName → Option Entry) :=
  (logLine e.clock e.record.level e.record.text, e.entries)

/-- The record says that something was stored, and the name is among it and a file. -/
def Event.Tells (e : Event) (name : Text) : Prop :=
  ∃ a : ArrivalNames, a.IsOf e.record ∧ name ∈ (resolveArrivals e.entries a).1 ∧
    arrivedFile e.entries name = true

/-- **Only stored files are announced.**  Whatever senders make the receiver log, and however the
    directory changes meanwhile, every name that is announced is one in a message of the receiver's
    own that says what was stored, and the plain name of a regular file when it is read. -/
theorem cmdWatch_sound (once : Bool) (events : List Event) {name : Text}
    (h : name ∈ (cmdWatch once (events.map Event.seen)).1) : ∃ e ∈ events, e.Tells name := by
  induction events with
  | nil => cases h
  | cons e events ih =>
    have hlater : name ∈ (cmdWatch once (events.map Event.seen)).1 →
        ∃ e' ∈ e :: events, e'.Tells name := fun h =>
      (ih h).imp fun e' he' => ⟨List.mem_cons_of_mem e he'.1, he'.2⟩
    have hnow : ∀ {a : ArrivalNames}, arrivals e.seen.1 = some a →
        name ∈ (resolveArrivals e.entries a).1 → ∃ e' ∈ e :: events, e'.Tells name := fun ha h =>
      ⟨e, List.mem_cons_self, _, isOf_of_arrivals ha, h, arrived_of_resolveArrivals h⟩
    rw [List.map_cons, cmdWatch] at h
    cases ha : arrivals e.seen.1 with
    | none =>
      rw [ha] at h
      exact hlater h
    | some a =>
      rw [ha] at h
      dsimp only at h
      split at h
      · exact hnow ha h
      · exact (List.mem_append.mp h).elim (hnow ha) hlater

/-- A stored link is announced as one of the receiver's own. -/
theorem cmdWatch_sound_page :
    let entries : FileName → Option Entry := fun name =>
      if name = utf8 "a.url" then some (.file []) else none
    let clock : Clock := ⟨0, 98, some ⟨2026, 10, 10, 16, 14, 20, by decide⟩, by decide⟩
    ∃ e ∈ [Event.mk clock (.info (.linkStored "a.url" "http://a")) entries], e.Tells "a.url" := by
  intro entries clock
  exact cmdWatch_sound true _ (by decide +kernel)

/-! ### A name among the pieces -/

/-- Some pieces joined behind a text. -/
def joinTo (front : Text) (ps : List Text) : Text :=
  ps.foldl (fun t p => t ++ ", ".toList ++ p) front

/-- Pieces are joined one after the other. -/
theorem joinTo_cons (front p : Text) (ps : List Text) :
    joinTo front (p :: ps) = joinTo (front ++ ", ".toList ++ p) ps := rfl

/-- A separator stands before each piece but the first. -/
theorem joinTo_eq (front : Text) (ps : List Text) :
    joinTo front ps = front ++ ps.flatMap (", ".toList ++ ·) := by
  induction ps generalizing front with
  | nil => rw [List.flatMap_nil, List.append_nil]; rfl
  | cons p ps ih => rw [joinTo_cons, ih, List.flatMap_cons, List.append_assoc, List.append_assoc,
      List.append_assoc]

/-- Joining makes a longer text. -/
private theorem length_joinTo_lt (front : Text) {ps : List Text} (h : ps ≠ []) :
    front.length < (joinTo front ps).length := by
  obtain ⟨p, ps, rfl⟩ := List.exists_cons_of_ne_nil h
  rw [joinTo_eq, List.flatMap_cons]
  simp only [List.length_append]
  have hmark : ", ".toList.length = 2 := rfl
  omega

/-- Pieces may be joined in two goes. -/
theorem joinTo_append (front : Text) (as bs : List Text) :
    joinTo front (as ++ bs) = joinTo (joinTo front as) bs := List.foldl_append

/-- Joining the pieces is writing them with separators between. -/
theorem joinTo_intercalate (p : Text) (ps : List Text) :
    joinTo p ps = List.intercalate ", ".toList (p :: ps) := by
  rw [joinTo_eq]
  induction ps generalizing p with
  | nil => simp [List.intercalate]
  | cons q ps ih =>
    rw [List.intercalate_cons_cons, ← ih, List.flatMap_cons, List.append_assoc, List.append_assoc]

/-- A character of a list of names is one of a name, or of a separator. -/
theorem mem_intercalate {g : List Text} {c : Char} : c ∈ List.intercalate ", ".toList g ↔
    (∃ name ∈ g, c ∈ name) ∨ (1 < g.length ∧ c ∈ ", ".toList) := by
  induction g with
  | nil => simp [List.intercalate]
  | cons p ps ih =>
    cases ps with
    | nil => simp [List.intercalate]
    | cons q ps =>
      rw [List.intercalate_cons_cons, List.mem_append, List.mem_append, ih]
      simp only [List.mem_cons, List.length_cons]
      constructor
      · rintro ((hc | hc) | ⟨name, hname, hc⟩ | ⟨-, hc⟩)
        · exact .inl ⟨p, .inl rfl, hc⟩
        · exact .inr ⟨by omega, hc⟩
        · exact .inl ⟨name, .inr hname, hc⟩
        · exact .inr ⟨by omega, hc⟩
      · rintro (⟨name, rfl | hname, hc⟩ | ⟨-, hc⟩)
        · exact .inl (.inl hc)
        · exact .inr (.inl ⟨name, hname, hc⟩)
        · exact .inl (.inr hc)

/-- The pieces are what a text is joined from. -/
theorem joinTo_pieces {t p : Text} {ps : List Text} (h : pieces ',' ' ' t = p :: ps) :
    joinTo p ps = t := by
  have hjoin := intercalate_pieces (x := ',') (y := ' ') t
  rw [h] at hjoin
  exact (joinTo_intercalate p ps).trans hjoin

/-- No beginning of a name, up to a separator, is a file. -/
def IsWhole (entries : FileName → Option Entry) (name : Text) : Prop :=
  ∀ front rest, name = front ++ ", ".toList ++ rest → arrivedFile entries front = false

/-- A name is found whole when no beginning of its pieces is a file. -/
private theorem isWhole_iff {name p : Text} {ps : List Text} (h : pieces ',' ' ' name = p :: ps) :
    IsWhole entries name ↔
      ∀ as bs, ps = as ++ bs → bs ≠ [] → arrivedFile entries (joinTo p as) = false := by
  constructor
  · rintro hwhole as bs rfl hbs
    obtain ⟨b, bs, rfl⟩ := List.exists_cons_of_ne_nil hbs
    refine hwhole (joinTo p as) (joinTo b bs) ?_
    rw [← joinTo_pieces h, joinTo_append, joinTo_eq (joinTo p as), joinTo_eq b, List.flatMap_cons]
    simp
  · rintro hnone front rest rfl
    have hcut : pieces ',' ' ' (front ++ ", ".toList ++ rest) =
        pieces ',' ' ' front ++ pieces ',' ' ' rest := by
      rw [List.append_assoc]
      exact pieces_append (by decide) front rest
    obtain ⟨q, qs, hq⟩ := List.exists_cons_of_ne_nil (pieces_ne_nil (x := ',') (y := ' ') front)
    rw [hcut, hq, List.cons_append] at h
    obtain ⟨rfl, rfl⟩ := List.cons.inj h
    rw [← joinTo_pieces hq]
    exact hnone qs _ rfl (pieces_ne_nil rest)

/-- The first file is the name itself, or shorter when a beginning of it is a file. -/
private theorem firstHit_joinTo {front : Text} {ps : List Text} (more : List Text)
    (h : arrivedFile entries (joinTo front ps) = true) :
    ((∀ as bs, ps = as ++ bs → bs ≠ [] → arrivedFile entries (joinTo front as) = false) ∧
      firstHit entries front (ps ++ more) = some (joinTo front ps, more)) ∨
    (¬ (∀ as bs, ps = as ++ bs → bs ≠ [] → arrivedFile entries (joinTo front as) = false) ∧
      ∃ x rest, firstHit entries front (ps ++ more) = some (x, rest) ∧
        x.length < (joinTo front ps).length) := by
  induction ps generalizing front with
  | nil =>
    refine .inl ⟨fun as bs hps hbs => absurd (List.append_eq_nil_iff.mp hps.symm).2 hbs, ?_⟩
    have hfront : arrivedFile entries front = true := h
    cases more with
    | nil => exact if_pos hfront
    | cons p more => exact if_pos hfront
  | cons p ps ih =>
    by_cases hfront : arrivedFile entries front = true
    · refine .inr ⟨fun hnone => ?_, front, p :: (ps ++ more), if_pos hfront,
        length_joinTo_lt front (List.cons_ne_nil p ps)⟩
      have hno : arrivedFile entries front = false := hnone [] (p :: ps) rfl (List.cons_ne_nil _ _)
      rw [hfront] at hno
      cases hno
    · have hstep : firstHit entries front (p :: ps ++ more) =
          firstHit entries (front ++ ", ".toList ++ p) (ps ++ more) := if_neg hfront
      rw [hstep, joinTo_cons]
      have hbegin : (∀ as bs, p :: ps = as ++ bs → bs ≠ [] →
          arrivedFile entries (joinTo front as) = false) ↔ ∀ as bs, ps = as ++ bs → bs ≠ [] →
            arrivedFile entries (joinTo (front ++ ", ".toList ++ p) as) = false := by
        constructor
        · rintro hnone as bs rfl hbs
          exact hnone (p :: as) bs rfl hbs
        · intro hnone as bs hps hbs
          cases as with
          | nil => exact eq_false_of_ne_true hfront
          | cons q as =>
            obtain ⟨rfl, rfl⟩ := List.cons.inj hps
            exact hnone as bs rfl hbs
      rw [hbegin]
      exact ih h

/-- A name is read back, or a shorter one is found in its place. -/
theorem resolvePieces_name {name : Text} (more : List Text)
    (h : arrivedFile entries name = true) :
    (IsWhole entries name ∧ resolvePieces entries (pieces ',' ' ' name ++ more) =
      (resolvePieces entries more).map (name :: ·) id) ∨
    (¬ IsWhole entries name ∧ ∃ x found,
      (resolvePieces entries (pieces ',' ' ' name ++ more)).1 = x :: found ∧
        x.length < name.length) := by
  obtain ⟨p, ps, hps⟩ := List.exists_cons_of_ne_nil (pieces_ne_nil (x := ',') (y := ' ') name)
  have hjoin := joinTo_pieces hps
  have hhit := @firstHit_joinTo entries p ps more (by rwa [hjoin])
  rw [← isWhole_iff hps, hjoin] at hhit
  rw [hps, List.cons_append]
  refine hhit.imp ?_ ?_
  · rintro ⟨hwhole, hfirst⟩
    refine ⟨hwhole, ?_⟩
    rw [resolvePieces]
    split
    · rename_i x rest hx
      cases hfirst.symm.trans hx
      rfl
    · rename_i hx
      cases hfirst.symm.trans hx
  · rintro ⟨hwhole, x, rest, hfirst, hlen⟩
    refine ⟨hwhole, x, (resolvePieces entries rest).1, ?_, hlen⟩
    rw [resolvePieces]
    split
    · rename_i y rest' hy
      cases hfirst.symm.trans hy
      rfl
    · rename_i hx
      cases hfirst.symm.trans hx

/-- Names that are joined are read back when each of them is. -/
private theorem resolvePieces_names_iff {names : List Text} (more tail found : List Text)
    (h : ∀ name ∈ names, arrivedFile entries name = true) :
    (resolvePieces entries (names.flatMap (pieces ',' ' ') ++ more)).1 ++ tail = names ++ found ↔
      (∀ name ∈ names, IsWhole entries name) ∧ (resolvePieces entries more).1 ++ tail = found := by
  induction names with
  | nil => simp
  | cons name names ih =>
    rw [List.forall_mem_cons] at h
    rw [List.flatMap_cons, List.append_assoc, List.forall_mem_cons, and_assoc, ← ih h.2]
    rcases resolvePieces_name (names.flatMap (pieces ',' ' ') ++ more) h.1 with
      ⟨hwhole, hres⟩ | ⟨hwhole, x, rest, hres, hlen⟩
    · rw [hres]
      show name :: _ ++ tail = name :: (names ++ found) ↔ _
      rw [List.cons_append, List.cons.injEq]
      simp only [hwhole, true_and]
    · rw [hres]
      refine iff_of_false (fun heq => ?_) (fun hboth => hwhole hboth.1)
      have hname : x = name := (List.cons.inj heq).1
      rw [hname] at hlen
      exact Nat.lt_irrefl _ hlen

/-- Groups of names that arrived are resolved to themselves exactly when each name is found whole.
    -/
theorem resolvePieces_groups_iff {groups : List (List Text)}
    (h : ∀ g ∈ groups, ∀ name ∈ g, arrivedFile entries name = true) :
    (groups.flatMap fun g => (resolvePieces entries (g.flatMap (pieces ',' ' '))).1) =
        groups.flatten ↔ ∀ g ∈ groups, ∀ name ∈ g, IsWhole entries name := by
  induction groups with
  | nil => simp
  | cons g groups ih =>
    rw [List.forall_mem_cons] at h
    have hfirst := resolvePieces_names_iff []
      (groups.flatMap fun g => (resolvePieces entries (g.flatMap (pieces ',' ' '))).1)
      groups.flatten h.1
    rw [List.append_nil, resolvePieces, List.nil_append, ih h.2] at hfirst
    rw [List.flatMap_cons, List.flatten_cons, hfirst, List.forall_mem_cons]

/-- Whole names leave no piece over. -/
private theorem resolvePieces_whole {names : List Text}
    (h : ∀ name ∈ names, arrivedFile entries name = true ∧ IsWhole entries name) :
    (resolvePieces entries (names.flatMap (pieces ',' ' '))).2 = [] := by
  induction names with
  | nil => rw [List.flatMap_nil, resolvePieces]
  | cons name names ih =>
    rw [List.forall_mem_cons] at h
    rw [List.flatMap_cons]
    rcases resolvePieces_name (names.flatMap (pieces ',' ' ')) h.1.1 with ⟨-, hres⟩ | ⟨hno, -⟩
    · rw [hres]
      exact ih h.2
    · exact absurd h.1.2 hno

/-! ### The lines of an upload -/

/-- A name more is a separator and the name more. -/
theorem intercalate_concat {g : List Text} (h : g ≠ []) (name : Text) :
    List.intercalate ", ".toList (g ++ [name]) =
      List.intercalate ", ".toList g ++ ", ".toList ++ name := by
  obtain ⟨p, ps, rfl⟩ := List.exists_cons_of_ne_nil h
  rw [List.cons_append, ← joinTo_intercalate, ← joinTo_intercalate, joinTo_append]
  rfl

/-- The names are spread over lines, none of them too long. -/
private theorem storedLinesFrom_groups {names : List Text} (lines : List Text) {g : List Text}
    (hg : g ≠ []) (hline : List.intercalate ", ".toList g ≠ [])
    (hsize : (utf8 (List.intercalate ", ".toList g)).length ≤ maxStoredLineBytes)
    (hnames : ∀ name ∈ names, name ≠ [] ∧ (utf8 name).length ≤ maxStoredLineBytes) :
    ∃ groups : List (List Text),
      storedLinesFrom lines (List.intercalate ", ".toList g) names =
        lines ++ groups.map (List.intercalate ", ".toList) ∧
      groups.flatten = g ++ names ∧ (∀ g ∈ groups, g ≠ []) ∧
      ∀ g ∈ groups, (utf8 (List.intercalate ", ".toList g)).length ≤ maxStoredLineBytes := by
  induction names generalizing lines g with
  | nil =>
    refine ⟨[g], ?_, by simp, by simpa using hg, by simpa using hsize⟩
    rw [storedLinesFrom, if_pos (.inl hline)]
    rfl
  | cons name names ih =>
    rw [List.forall_mem_cons] at hnames
    rw [storedLinesFrom]
    -- a line that is full goes out, and the name begins another
    split_ifs with hfull
    · have hone : List.intercalate ", ".toList [name] = name := by simp [List.intercalate]
      obtain ⟨groups, hlines, hflat, hne, hsizes⟩ := @ih
        (lines ++ [List.intercalate ", ".toList g]) [name] (List.cons_ne_nil _ _)
        (by rw [hone]; exact hnames.1.1) (by rw [hone]; exact hnames.1.2) hnames.2
      rw [hone] at hlines
      refine ⟨g :: groups, ?_, ?_, List.forall_mem_cons.mpr ⟨hg, hne⟩,
        List.forall_mem_cons.mpr ⟨hsize, hsizes⟩⟩
      · rw [hlines, List.append_assoc]
        rfl
      · rw [List.flatten_cons, hflat]
        rfl
    · -- there is room for a separator and the name
      have hroom : (utf8 (List.intercalate ", ".toList g)).length + 2 + (utf8 name).length ≤
          maxStoredLineBytes := by
        by_contra hover
        exact hfull ⟨hline, by omega⟩
      have hlen : (utf8 (List.intercalate ", ".toList (g ++ [name]))).length ≤
          maxStoredLineBytes := by
        rw [intercalate_concat hg, utf8_append, utf8_append, List.length_append, List.length_append]
        exact hroom
      obtain ⟨groups, hlines, hflat, hrest⟩ := ih lines (g := g ++ [name])
        (by simp) (by rw [intercalate_concat hg]; simp) hlen hnames.2
      rw [intercalate_concat hg] at hlines
      exact ⟨groups, hlines, by rw [hflat, List.append_assoc]; rfl, hrest⟩

/-- The names are stored in lines of some names each, in their order. -/
private theorem storedLines_groups {names : List Text} (hne : names ≠ [])
    (hnames : ∀ name ∈ names, name ≠ [] ∧ (utf8 name).length ≤ maxStoredLineBytes) :
    ∃ groups : List (List Text),
      storedLines names = groups.map (List.intercalate ", ".toList) ∧
      groups.flatten = names ∧ (∀ g ∈ groups, g ≠ []) ∧
      ∀ g ∈ groups, (utf8 (List.intercalate ", ".toList g)).length ≤ maxStoredLineBytes := by
  obtain ⟨name, names, rfl⟩ := List.exists_cons_of_ne_nil hne
  rw [List.forall_mem_cons] at hnames
  have hone : List.intercalate ", ".toList [name] = name := by simp [List.intercalate]
  have hgroups := @storedLinesFrom_groups names [] [name] (List.cons_ne_nil _ _)
    (by rw [hone]; exact hnames.1.1) (by rw [hone]; exact hnames.1.2) hnames.2
  rw [hone] at hgroups
  have hfirst : storedLines (name :: names) = storedLinesFrom [] name names := by
    rw [storedLines, storedLinesFrom, if_neg (fun h => h.1 rfl), if_pos rfl]
  rw [hfirst]
  exact hgroups

/-! ### The names of an upload -/

/-- The name that a file is stored under is one of the candidates. -/
private theorem placeFirst_mem {faults : Faults} {path : FileName} {candidates : List Text}
    {d d' : Dest}
    {name : Text} (h : placeFirst faults path candidates d = (.ok (some name), d')) :
    name ∈ candidates := by
  fun_induction placeFirst faults path candidates d with
  | case1 => cases h
  | case2 =>
    cases h
    exact List.mem_cons_self
  | case3 _ _ _ _ _ _ _ ih => exact List.mem_cons_of_mem _ (ih h)
  | case4 => cases h

section Names

variable [Unicode]

/-- The names that an archive's files are tried under. -/
def IsCandidate (name : Text) : Prop := ∃ member, name ∈ candidateNames (safeName member "file")

/-- All files are stored under candidates of theirs. -/
private theorem placeAll_mem {faults : Faults} {pending : List Partial} {stored stored' : List Text}
    {d d' : Dest} {res : Except IoErr Unit}
    (hstored : ∀ name ∈ stored, IsCandidate name)
    (hpending : ∀ p ∈ pending, ∃ member, p.name = safeName member "file")
    (h : placeAll faults stored pending d = (res, stored', d')) :
    ∀ name ∈ stored', IsCandidate name := by
  fun_induction placeAll faults stored pending d with
  | case1 =>
    cases h
    exact hstored
  | case2 =>
    cases h
    exact hstored
  | case3 =>
    cases h
    exact hstored
  | case4 stored p pending d candidate d₁ hfirst ih =>
    -- the file got a candidate's name, and the others follow
    rw [List.forall_mem_cons] at hpending
    refine ih (fun name hname => ?_) hpending.2 h
    rcases List.mem_append.mp hname with hname | hname
    · exact hstored name hname
    · obtain ⟨member, hmember⟩ := hpending.1
      rw [List.mem_singleton.mp hname]
      exact ⟨member, hmember ▸ placeFirst_mem hfirst⟩

/-- Of a whole archive, each member is stored under a candidate. -/
private theorem storeMembers_mem {F : Flate2} {R : Type} [FiniteRead Bool Payload R]
    {faults : Faults}
    {limits : ExtractLimits} {members outputBytes : Nat} {pending pending' : List Partial}
    {s s' : Extraction F R} (hpending : ∀ p ∈ pending, ∃ member, p.name = safeName member "file")
    (h : storeMembers faults limits members outputBytes pending s = (.ok pending', s')) :
    ∀ p ∈ pending', ∃ member, p.name = safeName member "file" := by
  fun_induction storeMembers faults limits members outputBytes pending s with
  | case1 => cases h
  | case2 =>
    -- the archive ends, and its files get their names
    cases h
    exact hpending
  | case3 => cases h
  | case4 _ _ _ _ _ _ _ _ ih => exact ih hpending h
  | case5 => cases h
  | case6 _ _ pending s entry cpio _ _ p s₁ hstore ih =>
    -- a file is kept under its member's name
    refine ih (fun q hq => ?_) h
    rcases List.mem_append.mp hq with hq | hq
    · exact hpending q hq
    · refine ⟨entry.path, ?_⟩
      rw [List.mem_singleton.mp hq]
      simp only [storeMember] at hstore
      split at hstore
      · cases hstore
      · split at hstore
        · cases hstore
        · cases hstore
          rfl

/-- Every name that an extraction reports is a candidate. -/
private theorem extract_mem {F : Flate2} {R : Type} [FiniteRead Bool Payload R] {faults : Faults}
    {limits : ExtractLimits} {progress : ExtractProgress} {body : R} {dest dest' : Dest}
    {x : Extracted} {rest : DvzipDecoder F R}
    (h : extract faults limits F progress body dest = (.ok (x, rest), dest')) :
    ∀ name ∈ x.names, IsCandidate name := by
  unfold extract at h
  split at h
  · cases h
  · split at h
    · cases h
    · rename_i pending s hs
      dsimp only at h
      split at h
      · cases h
      · unfold place at h
        rcases hp : placeAll faults [] pending s.dest with ⟨placed, stored, d⟩
        rw [hp] at h
        cases placed with
        | error e => cases h
        | ok _ =>
          cases h
          exact placeAll_mem (by simp) (storeMembers_mem (by simp) hs) hp

/-- A candidate is a safe name. -/
theorem IsCandidate.isSafe {name : Text} (h : IsCandidate name) : IsSafe name := by
  obtain ⟨member, hmem⟩ := h
  exact isSafe_of_mem_candidateNames (isSafe_safeName member isFileName_file.toIsSafe) hmem

/-- A candidate fits into a line. -/
theorem IsCandidate.length_le {name : Text} (h : IsCandidate name) :
    (utf8 name).length ≤ maxStoredLineBytes := by
  obtain ⟨member, hmem⟩ := h
  obtain ⟨i, hi, rfl⟩ := mem_candidateNames.mp hmem
  have hfile := isFileName_safeName member isFileName_file
  generalize safeName member "file" = name at hfile
  have hfits : (utf8 name).length ≤ 255 := hfile.fits
  rw [maxStoredLineBytes]
  by_cases hzero : i = 0
  · rw [hzero, show candidateName name 0 = name from rfl]
    omega
  · have hext : (utf8 (splitExt name).2).length ≤ (utf8 name).length := by
      conv_rhs => rw [← splitExt_append name, utf8_append, List.length_append]
      omega
    have hnumber : (utf8 (numbered i)).length ≤ 5 := by
      have hdigits := length_decimal_le (n := i) (k := 4) (by decide) (by omega)
      rw [numbered, ← List.singleton_append, utf8_append, List.length_append,
        length_utf8_decimal]
      have hdash : (utf8 ['-']).length = 1 := by decide
      omega
    rw [candidateName_eq name hzero, List.append_assoc, utf8_append, List.length_append]
    have hsuffix : (utf8 (numbered i ++ (splitExt name).2)).length ≤ 260 := by
      rw [utf8_append, List.length_append]
      omega
    rcases fits_shorten (utf8 (numbered i ++ (splitExt name).2)).length (splitExt name).1 with
      hshort | hnil
    · have : maxFileNameBytes = 255 := rfl
      omega
    · rw [hnil, utf8_nil, List.length_nil]
      omega

end Names

/-- A name without separators of lines is shown as it is. -/
theorem isPlain_of_isSafe {name : Text} (h : IsSafe name) {c : Char} (hc : c ∈ name) :
    IsPlain c ↔ c.toNat ≠ 0x2028 ∧ c.toNat ≠ 0x2029 := by
  have hclean := h.clean c hc
  have hcontrol := not_control_of_clean hclean
  simp only [isUnsafeChar, inRanges, unsafeRanges, List.any_cons, List.any_nil, Bool.or_false,
    Bool.or_eq_false_iff, Bool.and_eq_false_iff, decide_eq_false_iff_not] at hclean
  rw [isPlain_iff]
  simp only [Text.isControl, inRanges, disguiseRanges, List.any_cons, List.any_nil, Bool.or_false,
    Bool.or_eq_false_iff, Bool.and_eq_false_iff, decide_eq_false_iff_not]
  omega

/-- A safe name of a file is found. -/
theorem arrived_of_isSafe {name : Text} (h : IsSafe name)
    (hfile : ∃ e, entries (utf8 name) = some e ∧ e.isFile = true) :
    arrivedFile entries name = true := by
  obtain ⟨e, he, hfile⟩ := hfile
  have hslash : '/' ∉ name := fun hmem => absurd (h.clean '/' hmem) (by decide)
  have hcontrol : name.any Text.isControl = false := by
    rw [List.any_eq_false]
    intro c hc
    have := not_control_of_clean (h.clean c hc)
    unfold Text.isControl
    simp only [Bool.or_eq_true, Bool.and_eq_true, decide_eq_true_eq]
    omega
  simp [arrivedFile, h.nonempty, h.visible, hslash, hcontrol, he, hfile]

/-! ### An upload -/

/-- A plain message of an upload is written as it is. -/
theorem escape_uploadText_of_plain (header : Text) {rest : Text} (hplain : ∀ c ∈ rest, IsPlain c)
    (h : (utf8 rest).length ≤ 32000) : escape (uploadText header rest) = uploadText header rest := by
  obtain ⟨hfront, hlen⟩ := plain_uploadFront header
  have hsize := congrArg List.length
    (utf8_append ("upload ".toList ++ transferLabel header ++ ": ".toList) rest)
  refine escape_of_plain (fun c hc => (List.mem_append.mp hc).elim (hfront c) (hplain c)) ?_
  rw [List.length_append] at hsize
  rw [maxMessageBytes]
  exact hsize.trans_le (by omega)

/-- A plain list of names that is not too long is read as it was written. -/
private theorem arrivals_uploadStored {clock : Clock} (hclock : IsShown clock) (header : Text)
    {names : Text} (hne : names ≠ []) (hplain : ∀ c ∈ names, IsPlain c)
    (hsize : (utf8 names).length ≤ maxStoredLineBytes) :
    arrivals (logLine clock .info (Info.uploadStored header names).text) =
      some (.stored names) := by
  have hmark : ∀ c ∈ "stored ".toList, IsPlain c := by decide
  have hmarkSize : (utf8 "stored ".toList).length = 7 := by decide
  have hescape : escape (uploadText header ("stored ".toList ++ names)) =
      uploadText header ("stored ".toList ++ names) :=
    escape_uploadText_of_plain header
      (fun c hc => (List.mem_append.mp hc).elim (hmark c) (hplain c))
      (by rw [maxStoredLineBytes] at hsize; rw [utf8_append, List.length_append]; omega)
  have hjoin : ": ".toList ++ ("stored ".toList ++ names) = ": stored ".toList ++ names := rfl
  have hcut : splitFirst ": stored " (transferLabel header ++ (": stored ".toList ++ names)) =
      some (transferLabel header, names) := by
    rw [← List.append_assoc]
    exact splitFirst_append (colon_not_mem (isTid_transferLabel header)) names
  unfold arrivals
  rw [receiverInfo_info hclock]
  show (some (escape (uploadText header ("stored ".toList ++ names)))).bind _ = _
  rw [hescape, uploadText_eq, hjoin, Option.bind_some, afterStart_append]
  dsimp only
  rw [hcut, Option.bind_some, if_pos ⟨isTid_transferLabel header, hne⟩]

/-- Lines that the watcher reads while the directory stays as it is. -/
def seen (entries : FileName → Option Entry) (text : Text) :
    List (Text × (FileName → Option Entry)) :=
  (linesOn (· == '\n') text).map fun line => (line, entries)

/-- The messages of an upload's names, when these are spread over lines. -/
def storedRecords (header : Text) (lines : List Text) : List LogRecord :=
  lines.map fun names => .info (.uploadStored header names)

/-- Lines whose names are all plain are resolved one by one. -/
private theorem cmdWatch_storedRecords {header : Text} {groups : List (List Text)}
    {log : List (Clock × LogRecord)} (hclock : ∀ y ∈ log, IsShown y.1)
    (hlog : log.map Prod.snd = storedRecords header (groups.map (List.intercalate ", ".toList)))
    (hne : ∀ g ∈ groups, g ≠ [] ∧ List.intercalate ", ".toList g ≠ [])
    (hplain : ∀ g ∈ groups, ∀ name ∈ g, ∀ c ∈ name, IsPlain c)
    (hsize : ∀ g ∈ groups,
      (utf8 (List.intercalate ", ".toList g)).length ≤ maxStoredLineBytes) :
    cmdWatch false (log.map fun y => (logLine y.1 y.2.level y.2.text, entries)) =
      (groups.flatMap fun g => (resolvePieces entries (g.flatMap (pieces ',' ' '))).1,
        groups.flatMap fun g => (resolvePieces entries (g.flatMap (pieces ',' ' '))).2) := by
  induction groups generalizing log with
  | nil =>
    have hnil : log = [] := by simpa [storedRecords] using hlog
    rw [hnil]
    rfl
  | cons g groups ih =>
    cases log with
    | nil => simp [storedRecords] at hlog
    | cons y log =>
      rw [List.map_cons, storedRecords, List.map_cons, List.map_cons, List.cons.injEq] at hlog
      rw [List.forall_mem_cons] at hclock hne hplain hsize
      obtain ⟨clock, r⟩ := y
      obtain ⟨rfl, hlog⟩ := hlog
      have hchars : ∀ c ∈ List.intercalate ", ".toList g, IsPlain c := by
        intro c hc
        have hmark : ∀ c ∈ ", ".toList, IsPlain c := by decide
        rcases mem_intercalate.mp hc with ⟨p, hp, hc⟩ | ⟨-, hc⟩
        · exact hplain.1 p hp c hc
        · exact hmark c hc
      have harrivals := arrivals_uploadStored hclock.1 header hne.1.2 hchars hsize.1
      have hpieces : pieces ',' ' ' (List.intercalate ", ".toList g) = g.flatMap (pieces ',' ' ') :=
        pieces_intercalate (by decide) hne.1.1
      have hresolve : resolveArrivals entries (.stored (List.intercalate ", ".toList g)) =
          resolvePieces entries (g.flatMap (pieces ',' ' ')) := by
        rw [resolveArrivals, hpieces]
      have hstep := @cmdWatch_false_some entries _ _ harrivals
        (log.map fun y => (logLine y.1 y.2.level y.2.text, entries))
      rw [hresolve, ih hclock.2 hlog hne.2 hplain.2 hsize.2] at hstep
      exact hstep

/-- What is found among plain pieces is plain. -/
private theorem plain_of_resolvePieces {ps : List Text} (h : ∀ p ∈ ps, ∀ c ∈ p, IsPlain c)
    {x : Text}
    (hx : x ∈ (resolvePieces entries ps).1) : ∀ c ∈ x, IsPlain c := by
  have hhit : ∀ {front y : Text} {ps rest : List Text}, (∀ c ∈ front, IsPlain c) →
      (∀ p ∈ ps, ∀ c ∈ p, IsPlain c) → firstHit entries front ps = some (y, rest) →
      (∀ c ∈ y, IsPlain c) ∧ ∀ p ∈ rest, ∀ c ∈ p, IsPlain c := by
    intro front y ps rest hfront hps hfirst
    induction ps generalizing front with
    | nil =>
      unfold firstHit at hfirst
      split_ifs at hfirst
      cases hfirst
      exact ⟨hfront, hps⟩
    | cons p ps ih =>
      unfold firstHit at hfirst
      split_ifs at hfirst
      · cases hfirst
        exact ⟨hfront, hps⟩
      · rw [List.forall_mem_cons] at hps
        refine ih (fun c hc => ?_) hps.2 hfirst
        have hmark : ∀ c ∈ ", ".toList, IsPlain c := by decide
        rcases List.mem_append.mp hc with hc | hc
        · exact (List.mem_append.mp hc).elim (hfront c) (hmark c)
        · exact hps.1 c hc
  fun_induction resolvePieces entries ps with
  | case1 => cases hx
  | case2 p ps y rest hit ih =>
    rw [List.forall_mem_cons] at h
    obtain ⟨hy, hrest⟩ := hhit h.1 h.2 hit
    rcases List.mem_cons.mp hx with rfl | hx
    · exact hy
    · exact ih hrest hx
  | case3 p ps hit ih =>
    rw [List.forall_mem_cons] at h
    exact ih h.2 hx

/-- What the watcher announces is plain. -/
private theorem plain_of_cmdWatch {log : List (Clock × LogRecord)} {x : Text}
    (hx : x ∈ (cmdWatch false (log.map fun y => (logLine y.1 y.2.level y.2.text, entries))).1) :
    ∀ c ∈ x, IsPlain c := by
  -- what is read off a line was escaped when it was logged
  have hescape : ∀ {y : Clock × LogRecord} {front n back : Text},
      receiverInfo (logLine y.1 y.2.level y.2.text) = some (front ++ (n ++ back)) →
        ∀ c ∈ n, IsPlain c := by
    intro y front n back hinfo c hc
    have hmem : c ∈ escape y.2.text := by
      rw [← (receiverInfo_logLine hinfo).2.2]
      exact List.mem_append_right _ (List.mem_append_left _ hc)
    exact isPlain_of_mem_escape hmem
  induction log with
  | nil => cases hx
  | cons y log ih =>
    rw [List.map_cons] at hx
    cases ha : arrivals (logLine y.1 y.2.level y.2.text) with
    | none =>
      rw [cmdWatch_none ha] at hx
      exact ih hx
    | some a =>
      rw [cmdWatch_false_some ha] at hx
      refine (List.mem_append.mp hx).elim (fun hx => ?_) ih
      cases a with
      | stored n =>
        obtain ⟨tid, hinfo, -, -⟩ := arrivals_stored ha
        have hassoc : tid ++ ": stored ".toList ++ n = (tid ++ ": stored ".toList) ++ (n ++ []) := by
          rw [List.append_nil]
        rw [hassoc, ← List.append_assoc] at hinfo
        refine plain_of_resolvePieces (fun p hp c hc => hescape hinfo c ?_) hx
        have hjoin : List.intercalate ", ".toList (pieces ',' ' ' n) = n := intercalate_pieces n
        rw [← hjoin]
        exact mem_intercalate.mpr (.inl ⟨p, hp, hc⟩)
      | link n =>
        obtain ⟨rest, hinfo, -, -⟩ := arrivals_link ha
        rw [List.append_assoc] at hinfo
        by_cases harrived : arrivedFile entries n = true
        · rw [resolveArrivals, if_pos harrived] at hx
          rw [List.mem_singleton.mp hx]
          exact hescape hinfo
        · rw [resolveArrivals, if_neg harrived] at hx
          cases hx

/-- What the lines of a log are read as. -/
theorem seen_logText (log : List (Clock × LogRecord)) :
    seen entries (logText log) = log.map fun y => (logLine y.1 y.2.level y.2.text, entries) := by
  rw [seen, linesOn_logText, List.map_map]
  rfl

/-- An upload of nothing is not read at all. -/
private theorem cmdWatch_nothing {header : Text} {log : List (Clock × LogRecord)}
    (hlog : log.map Prod.snd = storedRecords header [[]]) :
    cmdWatch false (log.map fun y => (logLine y.1 y.2.level y.2.text, entries)) = ([], []) := by
  obtain ⟨y, rfl, hy⟩ : ∃ y, log = [y] ∧ y.2 = .info (.uploadStored header []) := by
    cases log with
    | nil => simp [storedRecords] at hlog
    | cons y log =>
      simp only [storedRecords, List.map_cons, List.map_nil, List.cons.injEq,
        List.map_eq_nil_iff] at hlog
      exact ⟨y, by rw [hlog.2], hlog.1⟩
  have hnone : arrivals (logLine y.1 y.2.level y.2.text) = none := by
    rw [Option.eq_none_iff_forall_not_mem]
    intro a ha
    have hof := isOf_of_arrivals ha
    rw [hy] at hof
    cases a with
    | stored n =>
      obtain ⟨tid, -, -, hne⟩ := arrivals_stored ha
      obtain ⟨header', names, heq, -, hsame⟩ := hof
      obtain ⟨rfl, rfl⟩ : header = header' ∧ [] = names := by simpa using heq
      exact hne (hsame (escape_uploadText_of_plain header (by decide) (by decide)))
    | link n =>
      obtain ⟨stored, url, heq, -⟩ := hof
      simp at heq
  rw [List.map_singleton, cmdWatch_none hnone]
  rfl

/-- **The watcher finds what was stored.**  After an upload the watcher announces exactly the files
    that were stored, in their order, and ignores none, when no name has a separator of lines or
    paragraphs in it and none begins, up to a comma and a blank, as a file of the directory is
    called; and only then. -/
theorem cmdWatch_upload_iff [Unicode] {F : Flate2} {R : Type} [FiniteRead Bool Payload R]
    {faults : Faults} {limits : ExtractLimits} {progress : ExtractProgress} {body : R}
    {dest dest' : Dest} {x : Extracted} {rest : DvzipDecoder F R}
    (h : extract faults limits F progress body dest = (.ok (x, rest), dest')) {header : Text}
    {log : List (Clock × LogRecord)} (hclock : ∀ y ∈ log, IsShown y.1)
    (hlog : log.map Prod.snd = storedRecords header (storedLines x.names)) :
    cmdWatch false (seen dest'.entries (logText log)) = (x.names, []) ↔
      ∀ name ∈ x.names, (∀ c ∈ name, c.toNat ≠ 0x2028 ∧ c.toNat ≠ 0x2029) ∧
        IsWhole dest'.entries name := by
  -- every name is a candidate's, so it is safe, short and free of control characters
  have hcandidate := extract_mem h
  have hadded : ∀ name ∈ x.names, arrivedFile dest'.entries name = true := by
    have hall := extract_allOrNothing F faults limits progress body dest
    rw [h] at hall
    intro name hname
    exact arrived_of_isSafe (hcandidate name hname).isSafe
      (hall.1.added (utf8 name) (List.mem_map_of_mem hname))
  rw [seen_logText]
  -- an upload of nothing writes no line
  by_cases hne : x.names = []
  · rw [hne] at hlog
    rw [cmdWatch_nothing hlog, hne]
    simp
  · obtain ⟨groups, hlines, hflat, hgroups, hsizes⟩ := storedLines_groups hne fun name hname =>
      ⟨(hcandidate name hname).isSafe.nonempty, (hcandidate name hname).length_le⟩
    have hmem : ∀ g ∈ groups, ∀ name ∈ g, name ∈ x.names := fun g hg name hname => by
      rw [← hflat]
      exact List.mem_flatten.mpr ⟨g, hg, hname⟩
    have harrived : ∀ g ∈ groups, ∀ name ∈ g, arrivedFile dest'.entries name = true :=
      fun g hg name hname => hadded name (hmem g hg name hname)
    have hnonempty : ∀ g ∈ groups, g ≠ [] ∧ List.intercalate ", ".toList g ≠ [] := by
      intro g hg
      refine ⟨hgroups g hg, fun hnil => ?_⟩
      obtain ⟨p, ps, rfl⟩ := List.exists_cons_of_ne_nil (hgroups g hg)
      rw [← joinTo_intercalate, joinTo_eq, List.append_eq_nil_iff] at hnil
      exact (hcandidate p (hmem _ hg p List.mem_cons_self)).isSafe.nonempty hnil.1
    -- what `watch` reads off the lines, where no separator of Unicode divides them
    have hread : (∀ name ∈ x.names, ∀ c ∈ name, IsPlain c) →
        cmdWatch false (log.map fun y => (logLine y.1 y.2.level y.2.text, dest'.entries)) =
          (groups.flatMap fun g => (resolvePieces dest'.entries (g.flatMap (pieces ',' ' '))).1,
            groups.flatMap fun g => (resolvePieces dest'.entries (g.flatMap (pieces ',' ' '))).2) :=
      fun hplain => cmdWatch_storedRecords hclock (by rw [hlog, hlines]) hnonempty
        (fun g hg name hname => hplain name (hmem g hg name hname)) hsizes
    -- the two separators are all that a safe name can hold beside plain characters
    have hseparator : (∀ name ∈ x.names, ∀ c ∈ name, IsPlain c) ↔
        ∀ name ∈ x.names, ∀ c ∈ name, c.toNat ≠ 0x2028 ∧ c.toNat ≠ 0x2029 :=
      forall₂_congr fun name hname => forall₂_congr fun c hc =>
        isPlain_of_isSafe (hcandidate name hname).isSafe hc
    constructor
    · -- what is announced passed through a line, and the pieces were put together again
      intro heq
      have hplain : ∀ name ∈ x.names, ∀ c ∈ name, IsPlain c := by
        intro name hname
        have hmem : name ∈ (cmdWatch false
            (log.map fun y => (logLine y.1 y.2.level y.2.text, dest'.entries))).1 := by
          rw [heq]
          exact hname
        exact plain_of_cmdWatch hmem
      have hfound : groups.flatMap (fun g =>
          (resolvePieces dest'.entries (g.flatMap (pieces ',' ' '))).1) = groups.flatten := by
        rw [hflat]
        exact congrArg Prod.fst ((hread hplain).symm.trans heq)
      have hwhole := (resolvePieces_groups_iff harrived).mp hfound
      intro name hname
      obtain ⟨g, hg, hin⟩ := List.mem_flatten.mp (hflat ▸ hname)
      exact ⟨hseparator.mp hplain name hname, hwhole g hg name hin⟩
    · -- nothing divides the line, and no beginning of a name is mistaken for one
      intro hboth
      have hplain := hseparator.mpr fun name hname => (hboth name hname).1
      have hwhole : ∀ g ∈ groups, ∀ name ∈ g, IsWhole dest'.entries name :=
        fun g hg name hname => (hboth name (hmem g hg name hname)).2
      have hmissing : groups.flatMap (fun g =>
          (resolvePieces dest'.entries (g.flatMap (pieces ',' ' '))).2) = [] :=
        List.flatMap_eq_nil_iff.mpr fun g hg =>
          resolvePieces_whole fun name hname => ⟨harrived g hg name hname, hwhole g hg name hname⟩
      rw [hread hplain, hmissing, (resolvePieces_groups_iff harrived).mpr hwhole, hflat]

/-- An archive of a file whose name has a comma in it. -/
def commaArchive : List UInt8 :=
  odcHeader 0 1 0o100644 0 0 1 0 0 5 3 ++ utf8 "a, b" ++ [0, 1, 2, 3] ++
    odcHeader 0 0 0 0 0 1 0 0 (trailer.length + 1) 0 ++ asciiBytes trailer ++ [0]

/-- The name is not read back when its beginning is a file's. -/
theorem cmdWatch_upload_comma :
    letI := Unicode.ascii
    let body := BodyReader.new (BufReader.withCapacity 64
      (Socket.once ([128, 0, 0, 171] ++ commaArchive) : Socket Payload)) (.length 175) 1000
      (.new fun _ => 0)
    let upload := extract (Faults.none (fun _ => "x") (2 ^ 40)) ⟨1000, 8, 0⟩ markingFlate2 .new body
      ⟨fun name => if name = utf8 "a" then some (.file []) else none, [], [], 0⟩
    let clock : Clock := ⟨0, 98, some ⟨2026, 10, 10, 16, 14, 20, by decide⟩, by decide⟩
    upload.1.toOption.map (·.1.names) = some ["a, b".toList] ∧
      cmdWatch false (seen upload.2.entries
        (logText [(clock, .info (.uploadStored "X" "a, b"))])) ≠ (["a, b".toList], []) := by
  let _ := Unicode.ascii
  intro body upload clock
  have hnames : upload.1.toOption.map (·.1.names) = some ["a, b".toList] := by decide +kernel
  refine ⟨hnames, ?_⟩
  cases hupload : upload with
  | mk res dest =>
    cases res with
    | error e =>
      rw [hupload] at hnames
      cases hnames
    | ok x =>
      obtain ⟨x, rest⟩ := x
      rw [hupload] at hnames
      have hx : x.names = ["a, b".toList] := Option.some.inj hnames
      have hlog : [(clock, LogRecord.info (.uploadStored "X" "a, b"))].map Prod.snd =
          storedRecords "X" (storedLines x.names) := by
        rw [hx]
        simp [storedRecords, storedLines, storedLinesFrom]
      have hiff := cmdWatch_upload_iff hupload (by simpa using ⟨_, rfl, by decide, by decide⟩) hlog
      have hfile : arrivedFile upload.2.entries "a" = true := by decide +kernel
      rw [hupload] at hfile
      rw [hx] at hiff
      intro heq
      have hwhole := (hiff.mp heq _ List.mem_cons_self).2 "a" "b" rfl
      rw [hfile] at hwhole
      cases hwhole

end Omdrop.Cli
