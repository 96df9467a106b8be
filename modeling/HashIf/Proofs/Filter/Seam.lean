import HashIf.Proofs.Condition.Reading
import HashIf.Proofs.Condition.Shift
import HashIf.Proofs.Filter.Run

/-! Passes over two streams one behind the other. A pass that ends well over the first stream has no
block open there, so it goes on over the second one as if it began there; and over a stream that
is moved a pass brings what it brings where the stream was, moved along. -/

namespace HashIf

/-! ## Moved streams -/

def Block.shift (s : Shift) (b : Block) : Block := { b with opener := b.opener.shift s }

theorem Block.enter_shift (s : Shift) (b : Block) (holds : Bool) :
    (b.shift s).enter holds = (b.enter holds).shift s := by
  have taken : (b.shift s).taken = b.taken := rfl
  rw [enter, enter, taken]
  split <;> rfl

def FilterStep.shift (s : Shift) : FilterStep → FilterStep
  | keep => keep
  | drop skipped blocks => drop skipped (blocks.map (Block.shift s))
  | fail f read => fail (f.shift s) read

def Outcome.shift (s : Shift) (o : Outcome) : Outcome :=
  ⟨o.tokens.map (Token.shift s), o.failure.map (Failure.shift s)⟩

section

variable {s : Shift} {env : Environment} {c : Cursor} {t : Token}

theorem Cursor.marker?_shift : (c.shift s).marker? = c.marker? := by
  obtain ⟨l, ts⟩ := c
  cases ts with
  | nil => rfl
  | cons t ts =>
    have hl : l + s.line < (t.shift s).loc.line ↔ l < t.loc.line := by
      simp only [Token.loc_shift, Location.shift]
      omega
    simp only [shift, marker?, List.map_cons, hl]
    rfl

theorem Cursor.tail_shift : (c.shift s).tail = c.tail.shift s := by
  obtain ⟨l, ts⟩ := c
  cases ts with
  | nil => rfl
  | cons t ts =>
    simp only [shift, tail, List.map_cons, Token.lastLine_shift]

theorem Cursor.drop_shift (n : Nat) : (c.shift s).drop n = (c.drop n).shift s := by
  induction n generalizing c with
  | zero => rfl
  | succ n ih => rw [Cursor.drop, Cursor.drop, tail_shift, ih]

namespace FilterStep

theorem byCondition_shift {after after' : Bool → List Block}
    (h : ∀ holds, after' holds = (after holds).map (Block.shift s)) :
    byCondition env (t.shift s) (c.shift s) after' = (byCondition env t c after).shift s := by
  unfold byCondition
  rw [Cursor.condition_shift]
  obtain ⟨result, read⟩ := c.condition t
  cases result with
  | error f => rfl
  | ok cond =>
    simp only [moved, Condition.evaluate_shift]
    cases cond.evaluate env with
    | error f => rfl
    | ok holds => simp only [id, h, shift]

theorem openBlock_shift (outer : List Block) :
    openBlock env (t.shift s) (c.shift s) (outer.map (Block.shift s)) =
      (openBlock env t c outer).shift s := by
  refine byCondition_shift fun holds => ?_
  rw [List.map_cons, ← Block.enter_shift]
  rfl

theorem branch_shift (m : Marker) (b : Block) (outer : List Block) :
    branch env m (t.shift s) (c.shift s) (b.shift s) (outer.map (Block.shift s)) =
      (branch env m t c b outer).shift s := by
  have elseMet : (b.shift s).elseMet = b.elseMet := rfl
  have taken : (b.shift s).taken = b.taken := rfl
  cases m with
  | ifMarker | endMarker => rfl
  | elseMarker =>
    rw [branch, branch, elseMet]
    split
    · rfl
    · exact congrArg (fun b => drop 0 (b :: outer.map (Block.shift s)))
        (Block.enter_shift s { b with elseMet := true } true)
  | elifMarker =>
    rw [branch, branch, elseMet, taken]
    split
    · rfl
    split
    · rfl
    · exact byCondition_shift fun holds => by rw [List.map_cons, ← Block.enter_shift]

/-- A pass goes on in the same way further down. -/
theorem next_shift (blocks : List Block) :
    next env (t.shift s) (c.shift s) (blocks.map (Block.shift s)) =
      (next env t c blocks).shift s := by
  cases blocks with
  | nil =>
    rw [List.map_nil, next, next, Cursor.marker?_shift, Cursor.tail_shift]
    cases c.marker? with
    | none => rfl
    | some m =>
      cases m with
      | ifMarker => exact openBlock_shift []
      | elifMarker | elseMarker | endMarker => rfl
  | cons b outer =>
    rw [List.map_cons, next, next, Cursor.marker?_shift, Cursor.tail_shift]
    by_cases ht : t.kind = .eof
    · rw [if_pos ht, if_pos (show (t.shift s).kind = .eof from ht)]
      rfl
    rw [if_neg ht, if_neg (show (t.shift s).kind ≠ .eof from ht),
      show (b.shift s).dropping = b.dropping from rfl]
    have branches (m : Marker) :
        branch env m (t.shift s) (c.tail.shift s) (b.shift s) (outer.map (Block.shift s)) =
          (branch env m t c.tail b outer).shift s := branch_shift m b outer
    cases b.dropping with
    | none =>
      cases c.marker? with
      | none => rfl
      | some m =>
        cases m with
        | ifMarker => exact openBlock_shift (b :: outer)
        | elifMarker => exact branches .elifMarker
        | elseMarker => exact branches .elseMarker
        | endMarker => exact branches .endMarker
    | some depth =>
      cases c.marker? with
      | none => rfl
      | some m =>
        cases depth with
        | zero =>
          cases m with
          | ifMarker => rfl
          | elifMarker => exact branches .elifMarker
          | elseMarker => exact branches .elseMarker
          | endMarker => exact branches .endMarker
        | succ depth => cases m <;> rfl

end FilterStep

theorem Outcome.shift_keep (t : Token) (o : Outcome) :
    (((Event.keep t).outcome env).andThen o).shift s =
      ((Event.keep (t.shift s)).outcome env).andThen (o.shift s) := rfl

/-- A pass over a moved stream brings the same, moved along. -/
theorem passOutcome_shift (c : Cursor) (blocks : List Block) :
    passOutcome env (c.shift s) (blocks.map (Block.shift s)) =
      (passOutcome env c blocks).shift s := by
  induction c using Cursor.forward generalizing blocks with
  | nil c hu =>
    have hu' : (c.shift s).unread = [] := by rw [Cursor.shift, hu]; rfl
    rw [passOutcome_nil hu, passOutcome_nil hu', Outcome.shift]
    cases blocks <;> rfl
  | cons c t ts hu ih =>
    have hu' : (c.shift s).unread = t.shift s :: ts.map (Token.shift s) := by
      rw [Cursor.shift, hu]
      rfl
    rw [passOutcome_cons hu, passOutcome_cons hu', FilterStep.next_shift, Cursor.tail_shift]
    cases FilterStep.next env t c blocks with
    | keep => exact (congrArg _ (ih 0 blocks)).trans (Outcome.shift_keep t _).symm
    | drop skipped blocks =>
      rw [FilterStep.shift, FilterStep.outcome, FilterStep.outcome, Cursor.drop_shift]
      exact ih skipped blocks
    | fail f read => rfl

/-! ## Two streams -/

/-- Of the line before, a pass only sees whether the next token begins another one. -/
theorem passOutcome_line {l l' : Int} {ts : List Token}
    (h : ∀ t ∈ ts.head?, (l < t.loc.line ↔ l' < t.loc.line)) (blocks : List Block) :
    passOutcome env ⟨l, ts⟩ blocks = passOutcome env ⟨l', ts⟩ blocks := by
  cases ts with
  | nil => rw [passOutcome_nil rfl, passOutcome_nil rfl]
  | cons t ts =>
    have hm : (Cursor.mk l (t :: ts)).marker? = (Cursor.mk l' (t :: ts)).marker? := by
      simp only [Cursor.marker?, h t rfl]
    have hn : FilterStep.next env t ⟨l, t :: ts⟩ blocks =
        FilterStep.next env t ⟨l', t :: ts⟩ blocks := by
      cases stepCases t (Cursor.mk l' (t :: ts)).marker? blocks with
      | fixed step _ hn => rw [hn env _ hm, hn env _ rfl]
      | reads after _ hn => rw [hn env _ hm, hn env _ rfl]; rfl
    rw [passOutcome_cons rfl, passOutcome_cons rfl, hn]
    rfl

variable {e y : Token} {xs ys : List Token} {l : Int}

theorem headerTokens_eof (he : e.kind = .eof) : headerTokens l (xs ++ [e]) = headerTokens l xs := by
  induction xs generalizing l with
  | nil => exact if_pos (.inl he)
  | cons x xs ih => rw [List.cons_append, headerTokens, headerTokens, ih]

theorem Cursor.marker?_eof (he : e.kind = .eof) (ts : List Token) :
    (Cursor.mk l (e :: ts)).marker? = none := by
  cases hm : (Cursor.mk l (e :: ts)).marker? with
  | none => rfl
  | some m => cases he.symm.trans (Cursor.of_marker rfl hm).2

theorem FilterStep.byCondition_ne_keep {after : Bool → List Block} :
    byCondition env t c after ≠ .keep := by
  unfold byCondition
  split
  · exact nofun
  · split <;> exact nofun

section

variable (he : e.kind = .eof) (hy : lineBehind l xs < y.loc.line)

include he hy

/-- A condition that is read in front of the end of the source is read in front of a token that
begins a line. -/
theorem Cursor.condition_seam {directive : Token} {cond : Condition} {n : Nat}
    (h : (Cursor.mk l (xs ++ [e])).condition directive = (.ok cond, n)) :
    (Cursor.mk l (xs ++ y :: ys)).condition directive = (.ok cond, n) ∧ n ≤ xs.length := by
  obtain ⟨stop, hh⟩ : ∃ stop, Header.ofCursor directive ⟨l, xs ++ [e]⟩ =
      ⟨headerTokens l xs, stop⟩ := by
    simp only [Header.ofCursor, headerTokens_eof he]
    exact ⟨_, rfl⟩
  obtain ⟨stop', hh'⟩ : ∃ stop, Header.ofCursor directive ⟨l, xs ++ y :: ys⟩ =
      ⟨headerTokens l xs, stop⟩ := by
    simp only [Header.ofCursor, headerTokens_append hy]
    exact ⟨_, rfl⟩
  have ha : Parsed.Agree (Header.parse stop directive (headerTokens l xs))
      (Header.parse stop' directive (headerTokens l xs)) := Header.parse_agree
  have hle := (prefix_headerTokens l xs).length_le
  rw [condition, parseWith, hh] at h
  obtain ⟨hr, hn⟩ := Prod.mk.inj h
  obtain ⟨hr', hrest⟩ := ha.of_ok hr
  dsimp only at hn
  refine ⟨?_, by omega⟩
  rw [condition, parseWith, hh']
  dsimp only
  rw [hr', hrest, hn]

theorem FilterStep.byCondition_seam {after : Bool → List Block} {n : Nat} {bs : List Block}
    (h : byCondition env t ⟨l, xs ++ [e]⟩ after = .drop n bs) :
    byCondition env t ⟨l, xs ++ y :: ys⟩ after = .drop n bs ∧ n ≤ xs.length := by
  unfold byCondition at h
  split at h
  · cases h
  · next cond read hc =>
    split at h
    · cases h
    · next holds hh =>
      cases h
      have hseam : (Cursor.mk l (xs ++ y :: ys)).condition t = (.ok cond, n) ∧ n ≤ xs.length :=
        Cursor.condition_seam he hy hc
      refine ⟨?_, hseam.2⟩
      unfold byCondition
      rw [hseam.1]
      simp only [hh]

end

/-- A step that does not fail in front of the end of the source is the same one in front of a token
that begins a line, and it drops no token beyond the seam. -/
theorem FilterStep.next_seam {x : Token} {step : FilterStep} {blocks : List Block}
    (he : e.kind = .eof) (hy : lineBehind x.lastLine xs < y.loc.line)
    (h : next env x ⟨l, x :: (xs ++ [e])⟩ blocks = step) (hf : ∀ f k, step ≠ .fail f k) :
    next env x ⟨l, x :: (xs ++ y :: ys)⟩ blocks = step ∧
      ∀ k bs, step = .drop k bs → k ≤ xs.length := by
  cases stepCases x (Cursor.mk l (x :: (xs ++ [e]))).marker? blocks with
  | fixed step' hs hn =>
    obtain rfl : step' = step := (hn env _ rfl).symm.trans h
    exact ⟨hn env _ rfl, fun k bs hk => (hs k bs hk).trans_le (Nat.zero_le _)⟩
  | reads after hm hn =>
    have hb : byCondition env x ⟨x.lastLine, xs ++ [e]⟩ after = step := (hn env _ rfl).symm.trans h
    have hn' : next env x ⟨l, x :: (xs ++ y :: ys)⟩ blocks =
        byCondition env x ⟨x.lastLine, xs ++ y :: ys⟩ after := hn env _ rfl
    cases step with
    | keep => exact (byCondition_ne_keep hb).elim
    | fail f k => exact (hf f k rfl).elim
    | drop k bs =>
      obtain ⟨hs, hle⟩ : byCondition env x ⟨x.lastLine, xs ++ y :: ys⟩ after = .drop k bs ∧
          k ≤ xs.length := byCondition_seam he hy hb
      refine ⟨hn'.trans hs, fun k' bs' hk => ?_⟩
      cases hk
      exact hle

/-- If a pass over a stream with its end ends well, it keeps the end; and with another stream in
place of the end, it brings the same but for the end and goes on in no block. -/
theorem passOutcome_seam {blocks : List Block} (he : e.kind = .eof)
    (hy : lineBehind l xs < y.loc.line)
    (h : (passOutcome env ⟨l, xs ++ [e]⟩ blocks).failure = none) :
    ∃ kept, passOutcome env ⟨l, xs ++ [e]⟩ blocks = ⟨kept ++ [e], none⟩ ∧
      passOutcome env ⟨l, xs ++ y :: ys⟩ blocks =
        Outcome.andThen ⟨kept, none⟩ (passOutcome env ⟨lineBehind l xs, y :: ys⟩ []) := by
  induction hn : xs.length using Nat.strongRecOn generalizing l xs blocks with
  | ind n ih =>
    cases xs with
    | nil =>
      have hm := Cursor.marker?_eof (l := l) he []
      rw [List.nil_append, passOutcome_cons rfl] at h ⊢
      cases blocks with
      | nil =>
        have hk : FilterStep.next env e ⟨l, [e]⟩ [] = .keep := by
          rw [FilterStep.next, hm]
          rfl
        refine ⟨[], ?_, rfl⟩
        rw [hk, FilterStep.outcome, passOutcome_nil rfl]
        rfl
      | cons b outer =>
        have hf : FilterStep.next env e ⟨l, [e]⟩ (b :: outer) = .fail (FilterStep.openAtEnd b) 0 :=
          if_pos he
        rw [hf] at h
        cases h
    | cons x xs =>
      have goes {k : Nat} (hk : k ≤ xs.length) {bs : List Block}
          (h : (passOutcome env (Cursor.drop ⟨x.lastLine, xs ++ [e]⟩ k) bs).failure = none) :
          ∃ kept, passOutcome env (Cursor.drop ⟨x.lastLine, xs ++ [e]⟩ k) bs = ⟨kept ++ [e], none⟩ ∧
            passOutcome env (Cursor.drop ⟨x.lastLine, xs ++ y :: ys⟩ k) bs = Outcome.andThen
              ⟨kept, none⟩ (passOutcome env ⟨lineBehind x.lastLine xs, y :: ys⟩ []) := by
        have hl : lineBehind (lineBehind x.lastLine (xs.take k)) (xs.drop k) =
            lineBehind x.lastLine xs := by rw [← lineBehind_append, List.take_append_drop]
        rw [Cursor.drop_append_le hk] at h ⊢
        rw [Cursor.drop_append_le hk, ← hl]
        refine ih _ ?_ (hl ▸ hy) h rfl
        rw [← hn, List.length_drop, List.length_cons]
        omega
      rw [List.cons_append, passOutcome_cons rfl] at h ⊢
      rw [List.cons_append, passOutcome_cons rfl]
      cases hs : FilterStep.next env x ⟨l, x :: (xs ++ [e])⟩ blocks with
      | keep =>
        rw [hs, FilterStep.outcome] at h
        obtain ⟨kept, hk, hk'⟩ := goes (Nat.zero_le _) h
        rw [(FilterStep.next_seam he hy hs (by simp)).1, FilterStep.outcome, FilterStep.outcome]
        exact ⟨x :: kept, congrArg _ hk, congrArg _ hk'⟩
      | drop k bs =>
        obtain ⟨hs', hle⟩ := FilterStep.next_seam he hy hs (by simp)
        rw [hs, FilterStep.outcome] at h
        rw [hs', FilterStep.outcome, FilterStep.outcome]
        exact goes (hle k bs rfl) h
      | fail f k =>
        rw [hs, FilterStep.outcome] at h
        cases h

/-- A pass that ends well over a stream with its end keeps the end, behind some tokens of the
stream. -/
theorem filterTokens_ending (he : e.kind = .eof) (h : filterTokens env (xs ++ [e]) = .ok kept) :
    ∃ front, kept = front ++ [e] ∧ front.Sublist xs := by
  rw [filterTokens_eq, Outcome.result_eq_ok] at h
  have hs : (passOutcome env (.start (xs ++ [e])) []).tokens.Sublist (xs ++ [e]) :=
    passOutcome_sublist _ _
  rw [h] at hs
  -- Any token on a later line may stand for what comes behind the seam.
  have hy : lineBehind 0 xs < (Token.mk .eof "" ⟨"", 0, lineBehind 0 xs + 1, 0, 0⟩).loc.line :=
    Int.lt_succ _
  obtain ⟨front, hfront, -⟩ :=
    @passOutcome_seam env e _ xs [] 0 [] he hy (congrArg Outcome.failure h)
  obtain rfl : kept = front ++ [e] := congrArg Outcome.tokens (h.symm.trans hfront)
  exact ⟨front, rfl, (List.append_sublist_append_right [e]).mp hs⟩

end

end HashIf
