import HashIf.Proofs.Condition.Locality
import HashIf.Proofs.Filter.Course
import HashIf.Proofs.Source.Reader
import Mathlib

/-! Causality: a pass hands a token over as soon as it has seen the token behind it, and nothing it
does depends on tokens further down. On streams that begin alike passes do the same as long as they
read no more than what the streams have in common. -/

namespace HashIf

/-! ## Headers of streams that begin alike -/

section

variable {l : Int} {xs : List Token}

theorem headerTokens_append_of_ne (h : headerTokens l xs ≠ xs) (ys : List Token) :
    headerTokens l (xs ++ ys) = headerTokens l xs := by
  induction xs generalizing l with
  | nil => exact absurd rfl h
  | cons x xs ih =>
    rw [List.cons_append]
    unfold headerTokens at h ⊢
    split
    · rfl
    · next hx =>
      rw [if_neg hx] at h
      rw [ih fun he => h (congrArg (x :: ·) he)]

theorem headerTokens_append_of_eq (h : headerTokens l xs = xs) (ys : List Token) :
    headerTokens l (xs ++ ys) = xs ++ headerTokens (lineBehind l xs) ys := by
  induction xs generalizing l with
  | nil => rfl
  | cons x xs ih =>
    rw [List.cons_append]
    unfold headerTokens at h
    split at h
    · cases h
    · next hx =>
      rw [headerTokens, if_neg hx, ih (List.cons.inj h).2]
      rfl

theorem length_headerTokens_lt (h : headerTokens l xs ≠ xs) :
    (headerTokens l xs).length < xs.length := by
  have hp := prefix_headerTokens l xs
  exact Nat.lt_of_le_of_ne hp.length_le fun he => h (hp.eq_of_length he)

/-- A header that ends within tokens is there whatever follows them. -/
theorem Header.ofCursor_of_ne (directive : Token) (h : headerTokens l xs ≠ xs) (ys : List Token) :
    Header.ofCursor directive ⟨l, xs ++ ys⟩ = Header.ofCursor directive ⟨l, xs⟩ := by
  have hlt := length_headerTokens_lt h
  have hne : xs.drop (headerTokens l xs).length ≠ [] := by
    rw [ne_eq, List.drop_eq_nil_iff]
    exact Nat.not_le_of_lt hlt
  simp only [Header.ofCursor, headerTokens_append_of_ne h,
    List.drop_append_of_le_length (Nat.le_of_lt hlt)]
  congr 1
  cases hd : xs.drop (headerTokens l xs).length with
  | nil => exact absurd hd hne
  | cons z zs => rfl

theorem Cursor.condition_of_header {c : Cursor} {tokens : List Token}
    (h : Header.ofCursor directive c = ⟨tokens, stop⟩) :
    c.condition directive = ((Header.parse stop directive tokens).result,
      tokens.length - (Header.parse stop directive tokens).rest.length) := by
  rw [condition, parseWith, h]

/-- A condition is read alike, up to a token that both streams have, or all that they have in
common is read. -/
theorem Cursor.condition_alike (directive : Token) (l : Int) (xs ys ys' : List Token) :
    Cursor.condition ⟨l, xs ++ ys⟩ directive = Cursor.condition ⟨l, xs ++ ys'⟩ directive ∨
      xs.length ≤ (Cursor.condition ⟨l, xs ++ ys⟩ directive).2 ∧
        xs.length ≤ (Cursor.condition ⟨l, xs ++ ys'⟩ directive).2 := by
  by_cases h : headerTokens l xs = xs
  · have header (zs : List Token) : ∃ stop, Header.ofCursor directive ⟨l, xs ++ zs⟩ =
        ⟨xs ++ headerTokens (lineBehind l xs) zs, stop⟩ := by
      rw [Header.ofCursor, headerTokens_append_of_eq h]
      exact ⟨_, rfl⟩
    obtain ⟨stop, hs⟩ := header ys
    obtain ⟨stop', hs'⟩ := header ys'
    have hm : Parsed.Meets xs
        (Header.parse stop directive (xs ++ headerTokens (lineBehind l xs) ys))
        (Header.parse stop' directive (xs ++ headerTokens (lineBehind l xs) ys')) :=
      Header.parse_meets xs
    rw [condition_of_header hs, condition_of_header hs']
    generalize Header.parse stop directive (xs ++ headerTokens (lineBehind l xs) ys) = p at hm
    generalize Header.parse stop' directive (xs ++ headerTokens (lineBehind l xs) ys') = q at hm
    cases hm with
    | within hz =>
      left
      simp only [List.length_append, Nat.add_sub_add_right]
    | beyond hp hq =>
      right
      have hp := hp.length_le
      have hq := hq.length_le
      simp only [List.length_append]
      omega
  · have header (zs : List Token) : Cursor.condition ⟨l, xs ++ zs⟩ directive =
        Cursor.condition ⟨l, xs⟩ directive :=
      condition_of_header (Header.ofCursor_of_ne directive h zs)
    exact .inl ((header ys).trans (header ys').symm)

end

/-! ## Steps on streams that begin alike -/

namespace FilterStep

/-- The number of tokens that a step reads and does not keep. -/
def passed : FilterStep → Nat
  | keep => 0
  | drop skipped _ => 1 + skipped
  | fail _ read => read

theorem passed_byCondition (env : Environment) (t : Token) (c : Cursor)
    (after : Bool → List Block) : (byCondition env t c after).passed = 1 + (c.condition t).2 := by
  unfold byCondition
  obtain ⟨result, read⟩ := c.condition t
  cases result with
  | error f => rfl
  | ok cond =>
    dsimp only
    split <;> rfl

theorem byCondition_of_eq {env : Environment} {t : Token} {c c' : Cursor}
    (h : c.condition t = c'.condition t) (after : Bool → List Block) :
    byCondition env t c after = byCondition env t c' after := by
  rw [byCondition, byCondition, h]

/-- A pass takes the same step on both streams, or one that goes past all they have in common. -/
theorem next_alike (env : Environment) (t : Token) (l : Int) (xs ys ys' : List Token)
    (blocks : List Block) :
    next env t ⟨l, t :: (xs ++ ys)⟩ blocks = next env t ⟨l, t :: (xs ++ ys')⟩ blocks ∨
      xs.length < (next env t ⟨l, t :: (xs ++ ys)⟩ blocks).passed ∧
        xs.length < (next env t ⟨l, t :: (xs ++ ys')⟩ blocks).passed := by
  cases stepCases t (Cursor.marker? ⟨l, t :: (xs ++ ys)⟩) blocks with
  | fixed step _ hn =>
    have hs := hn env ⟨l, t :: (xs ++ ys)⟩ rfl
    have hs' := hn env ⟨l, t :: (xs ++ ys')⟩ rfl
    exact .inl (hs.trans hs'.symm)
  | reads after _ hn =>
    rw [hn env _ rfl, hn env ⟨l, t :: (xs ++ ys')⟩ rfl, passed_byCondition, passed_byCondition]
    rcases Cursor.condition_alike t t.lastLine xs ys ys' with h | ⟨h, h'⟩
    · exact .inl (byCondition_of_eq h after)
    · right
      simp only [Cursor.tail]
      omega

end FilterStep

/-! ## Courses of streams that begin alike -/

namespace Course

/-- What a pass does before the token with the number `k`: the tokens before it that are kept, with
their numbers, and the fault that ended the pass, with the number of tokens read, if that was less
than `k`. -/
def before (k : Nat) (r : Course) : List (Nat × Token) × Option (Failure × Nat) :=
  ((r.emissions.filter (·.index < k)).map fun e => (e.index, e.token),
    if r.read < k then r.failure.map (·, r.read) else none)

/-- Two passes that do the same before the token with the number `k`, and end at the same place
if either ends before it. -/
structure AlikeBefore (k : Nat) (r r' : Course) : Prop where
  before : r.before k = r'.before k
  read : r.read = r'.read ∧ r.read ≤ k ∨ k ≤ r.read ∧ k ≤ r'.read

variable {o o' : Cursor} {r r' : Course}

theorem before_after (k : Nat) (e : Emission) (r : Course) : (r.after e).before k =
    (if e.index < k then (e.index, e.token) :: (r.before k).1 else (r.before k).1,
      (r.before k).2) := by
  refine Prod.ext ?_ rfl
  simp only [before, after, List.filter_cons, decide_eq_true_eq]
  split
  · exact List.map_cons
  · rfl

/-- A pass that begins further down does nothing before. -/
theorem Within.before_eq (h : r.Within o i) (hk : k ≤ i) : r.before k = ([], none) := by
  have hnone : r.emissions.filter (·.index < k) = [] := by
    refine List.filter_eq_nil_iff.mpr fun e he hlt => ?_
    exact Nat.not_lt.mpr (Nat.le_trans hk (h.placed e he).1) (of_decide_eq_true hlt)
  rw [before, hnone, if_neg (Nat.not_lt.mpr (Nat.le_trans hk h.le)), List.map_nil]

namespace AlikeBefore

theorem of_within (h : r.Within o i) (h' : r'.Within o' i') (hk : k ≤ i) (hk' : k ≤ i') :
    AlikeBefore k r r' :=
  ⟨by rw [h.before_eq hk, h'.before_eq hk'],
    .inr ⟨Nat.le_trans hk h.le, Nat.le_trans hk' h'.le⟩⟩

theorem stop (f : Failure) (j k : Nat) (c c' : Cursor) :
    AlikeBefore k ⟨[], some f, j, c⟩ ⟨[], some f, j, c'⟩ := by
  refine ⟨rfl, ?_⟩
  rcases Nat.le_total j k with h | h
  · exact .inl ⟨rfl, h⟩
  · exact .inr ⟨h, h⟩

theorem after (h : AlikeBefore k r r') (i : Nat) (t : Token) (c c' : Cursor) :
    AlikeBefore k (r.after ⟨i, t, c⟩) (r'.after ⟨i, t, c'⟩) :=
  ⟨by rw [before_after, before_after, h.before], h.read⟩

end AlikeBefore

end Course

section

variable (env : Environment) (l : Int) (xs ys ys' : List Token)

/-- A pass whose next step goes past more than `n` tokens keeps none of them. -/
theorem courseFrom_within_of_passed {o : Cursor} {blocks : List Block}
    (hu : (o.drop i).unread = t :: ts) (h : n < (FilterStep.next env t (o.drop i) blocks).passed) :
    (courseFrom env i (o.drop i) blocks).Within o (i + 1 + n) := by
  have hlen := Cursor.length_tail_drop hu
  have hs := FilterStep.sound_next env t (o.drop i) blocks
  rw [courseFrom_cons env hu]
  generalize FilterStep.next env t (o.drop i) blocks = step at hs h
  cases hs with
  | keep => cases h
  | @drop skipped bs hle =>
    have hn : n < 1 + skipped := h
    exact (courseFrom_within env (o.drop_tail_drop i skipped) (by omega) bs).mono (by omega)
  | @fail f read hle =>
    have hn : n < read := h
    dsimp only
    rw [← Cursor.drop_add]
    exact .stop (by omega) (by omega)

/-- Passes over two streams that have their first tokens in common do the same before the others. -/
theorem courseFrom_alike (hi : i ≤ xs.length) (blocks : List Block) :
    Course.AlikeBefore xs.length (courseFrom env i (Cursor.drop ⟨l, xs ++ ys⟩ i) blocks)
      (courseFrom env i (Cursor.drop ⟨l, xs ++ ys'⟩ i) blocks) := by
  have within {j : Nat} (zs : List Token) (hj : j ≤ (Cursor.mk l (xs ++ zs)).unread.length)
      (bs : List Block) :
      (courseFrom env j (Cursor.drop ⟨l, xs ++ zs⟩ j) bs).Within ⟨l, xs ++ zs⟩ j :=
    courseFrom_within env rfl hj bs
  have hle (zs : List Token) : xs.length ≤ (Cursor.mk l (xs ++ zs)).unread.length :=
    (List.prefix_append xs zs).length_le
  induction hn : xs.length - i using Nat.strongRecOn generalizing i blocks with
  | ind n ih =>
    rcases Nat.lt_or_eq_of_le hi with hlt | rfl
    case inr =>
      exact .of_within (within ys (hle ys) _) (within ys' (hle ys') _) (Nat.le_refl _)
        (Nat.le_refl _)
    have hcursor (zs : List Token) : Cursor.drop ⟨l, xs ++ zs⟩ i =
        ⟨lineBehind l (xs.take i), xs[i] :: (xs.drop (i + 1) ++ zs)⟩ := by
      rw [Cursor.drop_append_le hi, List.drop_eq_getElem_cons hlt]
      rfl
    have hu (zs : List Token) :
        (Cursor.drop ⟨l, xs ++ zs⟩ i).unread = xs[i] :: (xs.drop (i + 1) ++ zs) := by
      rw [hcursor]
    have hstep := FilterStep.next_alike env xs[i] (lineBehind l (xs.take i)) (xs.drop (i + 1))
      ys ys' blocks
    rw [← hcursor, ← hcursor, List.length_drop] at hstep
    rcases hstep with heq | ⟨h, h'⟩
    case inr =>
      refine .of_within (courseFrom_within_of_passed env (hu ys) h)
        (courseFrom_within_of_passed env (hu ys') h') ?_ ?_ <;> omega
    have hs := FilterStep.sound_next env xs[i] (Cursor.drop ⟨l, xs ++ ys⟩ i) blocks
    have hs' := FilterStep.sound_next env xs[i] (Cursor.drop ⟨l, xs ++ ys'⟩ i) blocks
    rw [courseFrom_cons env (hu ys), courseFrom_cons env (hu ys'), ← heq]
    rw [← heq] at hs'
    generalize FilterStep.next env xs[i] (Cursor.drop ⟨l, xs ++ ys⟩ i) blocks = step at hs hs'
    cases step with
    | keep =>
      have htail (zs : List Token) : (Cursor.drop ⟨l, xs ++ zs⟩ i).tail =
          Cursor.drop ⟨l, xs ++ zs⟩ (i + 1) := Cursor.drop_tail_drop _ i 0
      dsimp only
      rw [htail, htail]
      exact (ih _ (by omega) hlt blocks rfl).after i xs[i] _ _
    | fail f read => exact .stop f (i + read) _ _ _
    | drop skipped bs =>
      dsimp only
      rw [Cursor.drop_tail_drop, Cursor.drop_tail_drop]
      by_cases hk : i + 1 + skipped ≤ xs.length
      · exact ih _ (by omega) hk bs rfl
      · have hlen := Cursor.length_tail_drop (hu ys)
        have hlen' := Cursor.length_tail_drop (hu ys')
        cases hs with
        | drop hs =>
          cases hs' with
          | drop hs' =>
            refine .of_within (within ys ?_ bs) (within ys' ?_ bs) ?_ ?_ <;> omega

/-- So do any number of passes, as long as each begins at the same place or behind all that the
streams have in common. -/
theorem coursesFrom_alike (n : Nat) (h : i = i' ∧ i ≤ xs.length ∨ xs.length ≤ i ∧ xs.length ≤ i')
    (hi : i ≤ (xs ++ ys).length) (hi' : i' ≤ (xs ++ ys').length) :
    (coursesFrom env i (Cursor.drop ⟨l, xs ++ ys⟩ i) n).map (·.before xs.length) =
      (coursesFrom env i' (Cursor.drop ⟨l, xs ++ ys'⟩ i') n).map (·.before xs.length) := by
  induction n generalizing i i' with
  | zero => rfl
  | succ n ih =>
    have hr : (courseFrom env i (Cursor.drop ⟨l, xs ++ ys⟩ i) []).Within ⟨l, xs ++ ys⟩ i :=
      courseFrom_within env rfl hi []
    have hr' : (courseFrom env i' (Cursor.drop ⟨l, xs ++ ys'⟩ i') []).Within ⟨l, xs ++ ys'⟩ i' :=
      courseFrom_within env rfl hi' []
    have halike : Course.AlikeBefore xs.length (courseFrom env i (Cursor.drop ⟨l, xs ++ ys⟩ i) [])
        (courseFrom env i' (Cursor.drop ⟨l, xs ++ ys'⟩ i') []) := by
      rcases h with ⟨rfl, hk⟩ | ⟨hk, hk'⟩
      · exact courseFrom_alike env l xs ys ys' hk []
      · exact .of_within hr hr' hk hk'
    rw [coursesFrom, coursesFrom, List.map_cons, List.map_cons, halike.before, hr.cursor,
      hr'.cursor, ih halike.read hr.read_le hr'.read_le]

end

/-- Streams with the same first `k` tokens are the same, if they have no more, or they have those
tokens in common. -/
theorem eq_or_append_of_take {ts ts' : List Token} (h : ts.take k = ts'.take k) :
    ts = ts' ∨ ∃ xs ys ys', xs.length = k ∧ ts = xs ++ ys ∧ ts' = xs ++ ys' := by
  rcases Nat.lt_or_ge ts.length k with hk | hk
  · left
    have hlen := congrArg List.length h
    rw [List.length_take, List.length_take] at hlen
    rwa [List.take_of_length_le (by omega), List.take_of_length_le (by omega)] at h
  · exact .inr ⟨ts.take k, ts.drop k, ts'.drop k, List.length_take_of_le hk,
      (List.take_append_drop k ts).symm, h ▸ (List.take_append_drop k ts').symm⟩

/-- A pass over a stream, as it reads through a buffer: when a token is handed over, and when the
pass ends. Every reader that stands where the pass waits has taken the same number of tokens. -/
structure Course.Paced (ts : List Token) (r : Course) : Prop where
  token : ∀ e ∈ r.emissions, ts[e.index]? = some e.token
  waiting : ∀ e ∈ r.emissions,
    ((Reader.start ts).advance (e.index + 1)).Shows ts.length e.waiting
  taken : ∀ e ∈ r.emissions, ∀ reader : Reader, reader.Shows ts.length e.waiting →
    reader.taken = min (e.index + 2) ts.length
  ending : ((Reader.start ts).advance r.read).Shows ts.length r.cursor

theorem coursesFrom_paced (env : Environment) (ts : List Token) (hi : i ≤ ts.length) (n : Nat) :
    ∀ r ∈ coursesFrom env i ((Cursor.start ts).drop i) n, r.Paced ts := by
  induction n generalizing i with
  | zero =>
    intro r hr
    cases hr
  | succ n ih =>
    have hr : (courseFrom env i ((Cursor.start ts).drop i) []).Within (.start ts) i :=
      courseFrom_within env rfl hi []
    rw [coursesFrom]
    refine List.forall_mem_cons.mpr ⟨?_, hr.cursor ▸ ih hr.read_le⟩
    have shows (m : Nat) :
        ((Reader.start ts).advance m).Shows ts.length ((Cursor.start ts).drop m) :=
      (Reader.shows_start ts).advance m
    constructor
    case token => exact fun e he => (hr.emitted e he).getElem?_eq
    case waiting =>
      intro e he
      rw [(hr.emitted e he).waiting]
      exact shows _
    case taken =>
      intro e he reader h
      rw [(hr.emitted e he).waiting] at h
      exact h.taken_drop
    case ending =>
      rw [hr.cursor]
      exact shows _

/-- Passes one after another are causal. When they hand over the token with the number `j`, they
have taken `j + 2` tokens from the stream, or all of them. And on streams that have their first `k`
tokens in common they keep the same of these, and fail alike and at the same place if they fail
with less than `k` tokens read. -/
theorem filterPasses_causal (env : Environment) (ts : List Token) (n : Nat) :
    filterPasses env (.start ts) n = (courses env ts n).map Course.filtered ∧
      (∀ r ∈ courses env ts n, r.Paced ts) ∧
      ∀ ts' k, ts.take k = ts'.take k →
        (courses env ts n).map (·.before k) = (courses env ts' n).map (·.before k) := by
  refine ⟨filterPasses_eq_courses env 0 _ n, coursesFrom_paced env ts (Nat.zero_le _) n, ?_⟩
  intro ts' k h
  rcases eq_or_append_of_take h with rfl | ⟨xs, ys, ys', rfl, rfl, rfl⟩
  · rfl
  · exact coursesFrom_alike env 0 xs ys ys' n (.inl ⟨rfl, Nat.zero_le _⟩) (Nat.zero_le _)
      (Nat.zero_le _)

/-- A pass over either stream keeps the first token and fails at the second, whatever follows the
third. -/
theorem filterPasses_causal_stray :
    let ts := [Token.onLine 1 .identifier "a", .onLine 2 .hashWord "#else",
      .onLine 2 .identifier "b"]
    let ts' := ts ++ [.onLine 3 .hashWord "#end"]
    ts.take 3 = ts'.take 3 ∧
      (courses .empty ts 2).map (·.before 3) = (courses .empty ts' 2).map (·.before 3) ∧
      (courses .empty ts 2).map (·.before 3) =
        [([(0, .onLine 1 .identifier "a")], some (.diagnostic (.structural
          (Token.onLine 2 .hashWord "#else").loc (.unmatched .elseMarker)), 2)),
          ([(2, .onLine 2 .identifier "b")], none)] := by
  intro ts ts'
  have h : ts.take 3 = ts'.take 3 := rfl
  exact ⟨h, (filterPasses_causal .empty ts 2).2.2 ts' 3 h, by cbv⟩

end HashIf
