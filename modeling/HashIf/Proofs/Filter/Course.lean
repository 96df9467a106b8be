import HashIf.Proofs.Filter.Run
import Mathlib.Data.List.Forall2

/-! Courses: passes with the places of what they keep. Passes one after another go over the stream
once. They keep tokens that are no markers, in their order and none of them twice. -/

namespace HashIf

/-! ## Steps -/

theorem Cursor.marked_cons {c : Cursor} (h : c.unread = t :: ts) :
    c.marked = (t, c.marker?) :: c.tail.marked := by
  obtain ⟨l, us⟩ := c
  cases h
  rfl

theorem Cursor.condition_le (c : Cursor) (directive : Token) :
    (c.condition directive).2 ≤ c.unread.length :=
  Nat.le_trans (Nat.sub_le _ _) (prefix_headerTokens c.lastLine c.unread).length_le

namespace FilterStep

/-- A step in front of the next token of a cursor that keeps no marker and reads no token beyond
the stream. -/
inductive Sound (c : Cursor) : FilterStep → Prop
  | keep (h : c.marker? = none) : Sound c .keep
  | drop (h : skipped ≤ c.tail.unread.length) : Sound c (.drop skipped blocks)
  | fail {read : Nat} (h : read ≤ c.tail.unread.length + 1) : Sound c (.fail f read)

section

variable (env : Environment) (t : Token) (c : Cursor)

theorem sound_byCondition (after : Bool → List Block) :
    Sound c (byCondition env t c.tail after) := by
  have hle := c.tail.condition_le t
  unfold byCondition
  generalize c.tail.condition t = r at hle
  obtain ⟨result, read⟩ := r
  have hfail : 1 + read ≤ c.tail.unread.length + 1 := by
    rwa [Nat.add_comm, Nat.add_le_add_iff_right]
  cases result with
  | error f => exact .fail hfail
  | ok cond =>
    dsimp only
    split
    · exact .fail hfail
    · exact .drop hle

theorem sound_branch (m : Marker) (b : Block) (outer : List Block) :
    Sound c (branch env m t c.tail b outer) := by
  cases m with
  | ifMarker | endMarker => exact .drop (Nat.zero_le _)
  | elseMarker =>
    rw [branch]
    split
    · exact .fail (Nat.le_add_left 1 _)
    · exact .drop (Nat.zero_le _)
  | elifMarker =>
    rw [branch]
    split
    · exact .fail (Nat.le_add_left 1 _)
    split
    · exact .drop (Nat.zero_le _)
    · exact sound_byCondition env t c _

theorem sound_next (blocks : List Block) : Sound c (next env t c blocks) := by
  cases blocks with
  | nil =>
    rw [next]
    cases hm : c.marker? with
    | none => exact .keep hm
    | some m =>
      cases m with
      | ifMarker => exact sound_byCondition env t c _
      | elifMarker | elseMarker | endMarker => exact .fail (Nat.le_add_left 1 _)
  | cons b outer =>
    rw [next]
    split
    · exact .fail (Nat.zero_le _)
    split
    · cases hm : c.marker? with
      | none => exact .keep hm
      | some m =>
        cases m with
        | ifMarker => exact sound_byCondition env t c _
        | elifMarker => exact sound_branch env t c .elifMarker b outer
        | elseMarker => exact sound_branch env t c .elseMarker b outer
        | endMarker => exact sound_branch env t c .endMarker b outer
    · next depth _ =>
      unfold inDropped
      split
      · exact .drop (Nat.zero_le _)
      · exact sound_branch env t c _ b outer
      · exact .drop (Nat.zero_le _)
      · exact .drop (Nat.zero_le _)

end

end FilterStep

/-! ## Courses -/

/-- A token that a pass keeps, the number of tokens of the stream before it, and the cursor where
the pass stands when it hands the token over. -/
structure Emission where
  index : Nat
  token : Token
  waiting : Cursor

/-- A pass with the places of what it keeps, in order, the fault that ended it if one did, and
the number of tokens of the stream before the cursor where it ended. -/
structure Course where
  emissions : List Emission
  failure : Option Failure
  read : Nat
  cursor : Cursor

namespace Course

/-- The course with a token kept before. -/
def after (e : Emission) (r : Course) : Course := { r with emissions := e :: r.emissions }

/-- What the pass has brought. -/
def filtered (r : Course) : Filtered := ⟨r.emissions.map (·.token), r.failure, r.cursor⟩

end Course

/-- The course of a pass from a cursor on in open blocks, with `index` tokens of the stream before
the cursor. -/
def courseFrom (env : Environment) (index : Nat) (c : Cursor) (blocks : List Block) : Course :=
  match _h : c.unread with
  | [] => ⟨[], blocks.head?.map FilterStep.openAtEnd, index, c⟩
  | t :: _ =>
    match FilterStep.next env t c blocks with
    | .keep => (courseFrom env (index + 1) c.tail blocks).after ⟨index, t, c.tail⟩
    | .drop skipped blocks => courseFrom env (index + 1 + skipped) (c.tail.drop skipped) blocks
    | .fail f read => ⟨[], some f, index + read, c.drop read⟩
  termination_by c.unread.length
  decreasing_by all_goals
    simp only [Cursor.unread_drop, Cursor.unread_tail, _h, List.tail_cons, List.length_drop,
      List.length_cons]
    omega

/-- The courses of passes one after another, each from where the one before ended. -/
def coursesFrom (env : Environment) (index : Nat) (c : Cursor) : Nat → List Course
  | 0 => []
  | n + 1 =>
    let r := courseFrom env index c []
    r :: coursesFrom env r.read r.cursor n

/-- The courses of the first `n` passes over a stream. -/
def courses (env : Environment) (ts : List Token) (n : Nat) : List Course :=
  coursesFrom env 0 (.start ts) n

section

variable (env : Environment)

theorem courseFrom_nil {c : Cursor} {blocks : List Block} (h : c.unread = []) :
    courseFrom env i c blocks = ⟨[], blocks.head?.map FilterStep.openAtEnd, i, c⟩ := by
  rw [courseFrom]
  split
  · rfl
  · next h' => rw [h] at h'; cases h'

theorem courseFrom_cons {c : Cursor} {blocks : List Block} (h : c.unread = t :: ts) :
    courseFrom env i c blocks =
      match FilterStep.next env t c blocks with
      | .keep => (courseFrom env (i + 1) c.tail blocks).after ⟨i, t, c.tail⟩
      | .drop skipped blocks => courseFrom env (i + 1 + skipped) (c.tail.drop skipped) blocks
      | .fail f read => ⟨[], some f, i + read, c.drop read⟩ := by
  rw [courseFrom]
  split
  · next h' => rw [h] at h'; cases h'
  · next h' => rw [h] at h'; cases h'; rfl

theorem filterFrom_eq_courseFrom (kept : Array Token) (i : Nat) (c : Cursor) (blocks : List Block) :
    filterFrom env kept c blocks =
      ⟨kept.toList ++ (courseFrom env i c blocks).emissions.map (·.token),
        (courseFrom env i c blocks).failure, (courseFrom env i c blocks).cursor⟩ := by
  induction c using Cursor.forward generalizing kept i blocks with
  | nil c hu =>
    rw [filterFrom_nil hu, courseFrom_nil env hu, List.map_nil, List.append_nil]
  | cons c t ts hu ih =>
    rw [filterFrom_cons hu, courseFrom_cons env hu]
    cases FilterStep.next env t c blocks with
    | keep =>
      have ih := ih 0 (kept.push t) (i + 1) blocks
      rw [Cursor.drop_zero, Array.toList_push, List.append_assoc] at ih
      exact ih
    | drop skipped blocks => exact ih skipped kept (i + 1 + skipped) blocks
    | fail f read => simp

/-- Passes bring what their courses say. -/
theorem filterPasses_eq_courses (i : Nat) (c : Cursor) (n : Nat) :
    filterPasses env c n = (coursesFrom env i c n).map Course.filtered := by
  induction n generalizing i c with
  | zero => rfl
  | succ n ih =>
    have hp : filterPass env c = (courseFrom env i c []).filtered :=
      filterFrom_eq_courseFrom env #[] i c []
    rw [filterPasses, coursesFrom, List.map_cons, ← hp, ih, hp]
    rfl

/-! ## Places -/

/-- What is kept is no marker, and the pass waits behind it. -/
structure Emission.Of (o : Cursor) (e : Emission) : Prop where
  marked : o.marked[e.index]? = some (e.token, none)
  waiting : e.waiting = o.drop (e.index + 1)

theorem Emission.Of.getElem?_eq {o : Cursor} {e : Emission} (h : e.Of o) :
    o.unread[e.index]? = some e.token := by
  rw [← o.map_fst_marked, List.getElem?_map, h.marked]
  rfl

/-- The course of a pass that begins behind the first `i` tokens of a stream, of which `o` is the
start. -/
structure Course.Within (o : Cursor) (i : Nat) (r : Course) : Prop where
  emitted : ∀ e ∈ r.emissions, e.Of o
  placed : ∀ e ∈ r.emissions, i ≤ e.index ∧ e.index < r.read
  ordered : r.emissions.Pairwise (·.index < ·.index)
  le : i ≤ r.read
  read_le : r.read ≤ o.unread.length
  cursor : r.cursor = o.drop r.read

namespace Course.Within

variable {o : Cursor} {r : Course}

theorem stop (hj : i ≤ j) (hle : j ≤ o.unread.length) : Within o i ⟨[], f, j, o.drop j⟩ where
  emitted := List.forall_mem_nil _
  placed := List.forall_mem_nil _
  ordered := .nil
  le := hj
  read_le := hle
  cursor := rfl

theorem mono (h : r.Within o j) (hi : i ≤ j) : r.Within o i :=
  ⟨h.emitted, fun e he => ⟨Nat.le_trans hi (h.placed e he).1, (h.placed e he).2⟩, h.ordered,
    Nat.le_trans hi h.le, h.read_le, h.cursor⟩

theorem after {e : Emission} (h : r.Within o (e.index + 1)) (he : e.Of o) :
    (r.after e).Within o e.index where
  emitted := List.forall_mem_cons.mpr ⟨he, h.emitted⟩
  placed := List.forall_mem_cons.mpr ⟨⟨Nat.le_refl _, h.le⟩, (h.mono (Nat.le_succ _)).placed⟩
  ordered := .cons (fun e' he' => (h.placed e' he').1) h.ordered
  le := Nat.le_of_succ_le h.le
  read_le := h.read_le
  cursor := h.cursor

end Course.Within

theorem Cursor.drop_tail_drop (o : Cursor) (i k : Nat) :
    (o.drop i).tail.drop k = o.drop (i + 1 + k) := by
  rw [Nat.add_assoc, drop_add, Nat.add_comm, drop_succ]

theorem Cursor.length_tail_drop {o : Cursor} (h : (o.drop i).unread = t :: ts) :
    i + 1 + (o.drop i).tail.unread.length = o.unread.length := by
  have hl := congrArg List.length h
  rw [unread_drop, List.length_drop, List.length_cons] at hl
  rw [unread_tail, h, List.tail_cons]
  omega

theorem courseFrom_within {o c : Cursor} (hc : c = o.drop i) (hi : i ≤ o.unread.length)
    (blocks : List Block) : (courseFrom env i c blocks).Within o i := by
  induction c using Cursor.forward generalizing i blocks with
  | nil c hu =>
    rw [courseFrom_nil env hu, hc]
    exact .stop (Nat.le_refl i) hi
  | cons c t ts hu ih =>
    have hdrop (k : Nat) : c.tail.drop k = o.drop (i + 1 + k) := hc ▸ o.drop_tail_drop i k
    have hlen : i + 1 + c.tail.unread.length = o.unread.length := by
      subst hc
      exact Cursor.length_tail_drop hu
    rw [courseFrom_cons env hu]
    have hs := FilterStep.sound_next env t c blocks
    generalize FilterStep.next env t c blocks = step at hs
    cases hs with
    | keep hm =>
      refine .after (e := ⟨i, t, c.tail⟩) (ih 0 (hdrop 0) (by omega) blocks) ⟨?_, hdrop 0⟩
      have hmarked := Cursor.marked_cons hu
      rw [hm, hc, Cursor.marked_drop] at hmarked
      rw [← List.head?_drop, hmarked]
      rfl
    | drop h => exact (ih _ (hdrop _) (by omega) _).mono (by omega)
    | fail h =>
      dsimp only
      rw [hc, ← Cursor.drop_add]
      exact .stop (Nat.le_add_right i _) (by omega)

/-- Passes one after another keep tokens in their order, and none twice. -/
theorem coursesFrom_emissions {o : Cursor} (hi : i ≤ o.unread.length) (n : Nat) :
    (∀ e ∈ (coursesFrom env i (o.drop i) n).flatMap (·.emissions), e.Of o ∧ i ≤ e.index) ∧
      ((coursesFrom env i (o.drop i) n).flatMap (·.emissions)).Pairwise (·.index < ·.index) := by
  induction n generalizing i with
  | zero =>
    refine ⟨fun e he => ?_, .nil⟩
    cases he
  | succ n ih =>
    have hr := courseFrom_within env rfl hi []
    obtain ⟨hof, hordered⟩ := ih hr.read_le
    rw [coursesFrom, hr.cursor, List.flatMap_cons]
    constructor
    · intro e he
      rcases List.mem_append.mp he with he | he
      · exact ⟨hr.emitted e he, (hr.placed e he).1⟩
      · exact ⟨(hof e he).1, Nat.le_trans hr.le (hof e he).2⟩
    · refine List.pairwise_append.mpr ⟨hr.ordered, hordered, fun e he e' he' => ?_⟩
      exact Nat.lt_of_lt_of_le (hr.placed e he).2 (hof e' he').2

/-! ## Selection -/

theorem passOutcome_unmarked {c : Cursor} (h : ∀ x ∈ c.marked, x.2 = none) :
    passOutcome env c [] = ⟨c.unread, none⟩ := by
  induction c using Cursor.forward with
  | nil c hu =>
    rw [passOutcome_nil hu, hu]
    rfl
  | cons c t ts hu ih =>
    have hc := Cursor.marked_cons hu
    rw [hc] at h
    obtain ⟨hm, hts⟩ := List.forall_mem_cons.mp h
    have htail : passOutcome env c.tail [] = ⟨c.tail.unread, none⟩ := ih 0 hts
    rw [show c.marker? = none from hm] at hc
    have hk : Keeping [] := by rintro _ ⟨⟩
    rw [passOutcome_token hc hk (.inl rfl), htail, Cursor.unread_tail, hu]
    rfl

/-- Passes one after another select: what they keep are tokens of the stream that are no markers, at
places one behind the other. A pass over a stream without markers keeps all of it. -/
theorem filterPasses_select (ts : List Token) :
    (∀ n, ∃ places : List Nat, places.Pairwise (· < ·) ∧
      List.Forall₂ (fun i t => ts[i]? = some t ∧ (classify ts)[i]? = some (t, none)) places
        ((filterPasses env (.start ts) n).flatMap (·.tokens))) ∧
    ((∀ x ∈ classify ts, x.2 = none) → filterTokens env ts = .ok ts) := by
  constructor
  · intro n
    obtain ⟨hof, hordered⟩ := coursesFrom_emissions env (o := .start ts) (Nat.zero_le _) n
    have htokens : (filterPasses env (.start ts) n).flatMap (·.tokens) =
        ((courses env ts n).flatMap (·.emissions)).map (·.token) := by
      rw [filterPasses_eq_courses env 0, List.flatMap_map, List.map_flatMap]
      rfl
    refine ⟨((courses env ts n).flatMap (·.emissions)).map (·.index),
      List.pairwise_map.mpr hordered, ?_⟩
    rw [htokens, List.forall₂_map_left_iff, List.forall₂_map_right_iff, List.forall₂_same]
    exact fun e he => ⟨(hof e he).1.getElem?_eq, (hof e he).1.marked⟩
  · intro h
    have hp := passOutcome_unmarked env (c := .start ts) h
    rw [filterTokens_eq, hp]
    rfl

end

/-- A directive word that does not begin its line is kept like any other token. -/
theorem filterPasses_select_word :
    let ts := [Token.onLine 1 .identifier "a", .onLine 1 .hashWord "#if"]
    (∀ x ∈ classify ts, x.2 = none) ∧ filterTokens .empty ts = .ok ts := by
  intro ts
  have h : ∀ x ∈ classify ts, x.2 = none := by decide
  exact ⟨h, (filterPasses_select .empty ts).2 h⟩

end HashIf
