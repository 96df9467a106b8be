import HashIf.Preprocess
import HashIf.Proofs.Filter.Course
import HashIf.Proofs.Source.Tiling

/-! Filtering and layout in one pass. Of a source text the pass gives the text of the tokens that
survive, and fails as filtering does: no token stands behind the one for the end. -/

namespace HashIf

theorem eofLast_of_tokenize (h : tokenize file source = .ok ts) : EofLast (classify ts) := by
  obtain ⟨ps, hps, rfl⟩ := tokenize_eq h
  have hmap : (classify (bodyTokens file ps ++ [endToken file source.toList])).map Prod.fst =
      bodyTokens file ps ++ [endToken file source.toList] := Cursor.map_fst_marked (.start _)
  intro x hx
  have hx : x.1 ∈ bodyTokens file ps := by
    have hx := List.mem_map_of_mem (f := Prod.fst) hx
    rwa [List.map_dropLast, hmap, List.dropLast_concat] at hx
  obtain ⟨_, kind, _, _, -, hk, -, -, hx⟩ := place_of_token hps hx
  rw [hx]
  exact hk

/-! ## Layout of a list -/

/-- Lays out tokens behind the text `laid`, if there is one. -/
def layoutOnto (laid : Option String) (p : Pen) : List Token → Option String
  | [] => laid
  | t :: ts =>
    if t.kind = .eof then laid
    else layoutOnto (some (laid.getD "" ++ String.ofList (layToken p t).1)) (layToken p t).2 ts

theorem layoutOnto_some (laid : String) (p : Pen) (ts : List Token) :
    layoutOnto (some laid) p ts = some (layoutFrom laid p ts) := by
  induction ts generalizing laid p with
  | nil => rfl
  | cons t ts ih =>
    rw [layoutOnto, layoutFrom]
    split
    · rfl
    · exact ih _ _

theorem layout_eq_layoutOnto (ts : List Token) :
    layout ts = match layoutOnto none .start ts with
      | none => ""
      | some text => text ++ "\n" := by
  cases ts with
  | nil => rfl
  | cons t ts =>
    rw [layout, nothingToLay, layoutOnto]
    by_cases h : t.kind = .eof
    · rw [if_pos h, if_pos (decide_eq_true h)]
    · rw [if_neg h, if_neg (by simpa using h), layoutOnto_some, layoutFrom, if_neg h]
      rfl

/-! ## Passes -/

variable {env : Environment}

theorem layoutPassFrom_nil {c : Cursor} (h : c.unread = []) :
    layoutPassFrom env laid p c blocks = match blocks with
      | [] => .ok laid
      | b :: _ => .error (FilterStep.openAtEnd b) := by
  rw [layoutPassFrom.eq_def]
  split
  · rfl
  · next h' => rw [h] at h'; cases h'

theorem layoutPassFrom_cons {c : Cursor} (h : c.unread = t :: ts) :
    layoutPassFrom env laid p c blocks =
      match FilterStep.next env t c blocks with
      | .keep =>
        if t.kind = .eof then .ok laid
        else layoutPassFrom env (some (laid.getD "" ++ String.ofList (layToken p t).1))
          (layToken p t).2 c.tail blocks
      | .drop skipped blocks => layoutPassFrom env laid p (c.tail.drop skipped) blocks
      | .fail f _ => .error f := by
  rw [layoutPassFrom.eq_def]
  split
  · next h' => rw [h] at h'; cases h'
  · next h' => rw [h] at h'; cases h'; rfl

/-- The text of an outcome. -/
def Outcome.layoutOnto (laid : Option String) (p : Pen) (o : Outcome) :
    Except Failure (Option String) :=
  match o.failure with
  | some f => .error f
  | none => .ok (HashIf.layoutOnto laid p o.tokens)

theorem blocks_of_keep_eof (hk : t.kind = .eof) (h : FilterStep.next env t c blocks = .keep) :
    blocks = [] := by
  cases blocks with
  | nil => rfl
  | cons b outer =>
    rw [FilterStep.next, if_pos hk] at h
    cases h

/-- If no token stands behind one for the end, a pass that lays out what it keeps gives the layout
of what it keeps. -/
theorem layoutPassFrom_eq {c : Cursor} (he : EofLast c.marked) :
    layoutPassFrom env laid p c blocks = (passOutcome env c blocks).layoutOnto laid p := by
  induction c using Cursor.forward generalizing laid p blocks with
  | nil c hu =>
    rw [layoutPassFrom_nil hu, passOutcome_nil hu]
    cases blocks <;> rfl
  | cons c t ts hu ih =>
    have hm : c.marked = (t, c.marker?) :: c.tail.marked := Cursor.marked_cons hu
    have later (k : Nat) : EofLast (c.tail.drop k).marked := by
      have hd : (c.tail.drop k).marked = c.marked.drop (k + 1) := Cursor.marked_drop c (k + 1)
      rw [← List.take_append_drop (k + 1) c.marked] at he
      exact hd ▸ he.right
    rw [layoutPassFrom_cons hu, passOutcome_cons hu]
    cases hs : FilterStep.next env t c blocks with
    | fail f read => rfl
    | drop skipped blocks => exact ih skipped (later skipped)
    | keep =>
      dsimp only [FilterStep.outcome]
      by_cases hk : t.kind = .eof
      · -- Nothing is left behind the token.
        have htail : c.tail.unread = [] := by
          refine Cursor.unread_eq_nil ?_
          cases htail : c.tail.marked with
          | nil => rfl
          | cons x ms =>
            rw [hm, htail] at he
            exact absurd hk (he (t, c.marker?) List.mem_cons_self)
        obtain rfl := blocks_of_keep_eof hk hs
        rw [if_pos hk, passOutcome_nil htail]
        exact congrArg Except.ok (if_pos hk).symm
      · rw [if_neg hk]
        refine (ih 0 (later 0)).trans ?_
        rw [Cursor.drop_zero]
        generalize passOutcome env c.tail blocks = o
        obtain ⟨us, _ | f⟩ := o
        · exact congrArg Except.ok (if_neg hk).symm
        · rfl

/-- The text that survives is the layout of the tokens that survive, and there is none of a source
text of which no tokens are given. -/
theorem preprocessText_eq (env : Environment) (file source : String) :
    preprocessText env file source = (preprocess env file source).map layout := by
  rw [preprocessText, preprocess]
  cases ht : tokenize file source with
  | error e => rfl
  | ok ts =>
    dsimp only
    rw [layoutPassFrom_eq (c := .start ts) (eofLast_of_tokenize ht), filterTokens_eq]
    obtain ⟨us, _ | f⟩ := passOutcome env (.start ts) []
    · refine Eq.trans ?_ (congrArg Except.ok (layout_eq_layoutOnto us).symm)
      dsimp only [Outcome.layoutOnto]
      cases layoutOnto none .start us <;> rfl
    · rfl

end HashIf
