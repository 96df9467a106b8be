import HashIf.Preprocess
import HashIf.Proofs.Filter.Seam
import HashIf.Proofs.Source.Lines

/-! Line breaks: if a text comes through by itself, then a line feed and a second text behind it
come through as the second text does by itself, further down. No token and no block reaches over the
line feed. -/

namespace HashIf

/-! ## Reports further down -/

/-- A diagnostic without the line that a lexical one quotes. -/
def Diagnostic.withoutLine : Diagnostic → Diagnostic
  | lexical e => lexical { e with lineText := "" }
  | d => d

/-- The second diagnostic is the first one at its moved places. It is of the same category and says
the same, but a lexical one may quote another line. -/
structure Diagnostic.Moved (s : Shift) (d d' : Diagnostic) : Prop where
  same : d'.withoutLine = (d.shift s).withoutLine
  category : d'.category = d.category
  summary : d'.summary = d.summary
  loc : d'.loc? = d.loc?.map (Location.shift s)

theorem Diagnostic.moved_shift (s : Shift) (d : Diagnostic) : d.Moved s (d.shift s) := by
  cases d with
  | operands loc op lhs rhs => cases op <;> exact ⟨rfl, rfl, rfl, rfl⟩
  | _ => exact ⟨rfl, rfl, rfl, rfl⟩

/-! ## Filtered tokens -/

theorem Outcome.result_kept_shift (s : Shift) (kept : List Token) (o : Outcome) :
    (Outcome.andThen ⟨kept, none⟩ (o.shift s)).result =
      moved s (fun us => kept ++ us.map (Token.shift s)) o.result := by
  obtain ⟨ts, _ | f⟩ := o <;> rfl

/-- The pass over the tokens of a text and moved ones behind them keeps what it keeps of the text,
but for its end, and goes on over the moved ones as over a stream of their own. -/
theorem filterTokens_append {env : Environment} {a b : String} (ha : tokenize file a = .ok ts)
    (hb : tokenize file b = .ok us) (h : filterTokens env ts = .ok kept) :
    ∃ front e, kept = front ++ [e] ∧ e.kind = .eof ∧
      filterTokens env (ts.dropLast ++ us.map (Token.shift (.behind a.toList))) =
        moved (.behind a.toList) (fun us => front ++ us.map (Token.shift (.behind a.toList)))
          (filterTokens env us) := by
  obtain ⟨ps, hps, rfl⟩ := tokenize_eq ha
  obtain ⟨u, us, rfl, hu⟩ := line_of_tokenize hb
  generalize hs : Shift.behind a.toList = s
  have hl : lineBehind 0 (bodyTokens file ps) ≤ s.line := by
    subst hs
    refine lineBehind_le (fun t ht => ?_) (Int.natCast_nonneg _)
    exact (line_of_token hps ht).2.trans_eq (Int.add_comm _ _)
  have hline : (u.shift s).loc.line = u.loc.line + s.line := rfl
  rw [filterTokens_eq, Outcome.result_eq_ok] at h
  -- The pass goes on in no block, and the first moved token begins a line there as in its own text.
  have hy : lineBehind 0 (bodyTokens file ps) < (u.shift s).loc.line := by omega
  have he : (endToken file a.toList).kind = .eof := rfl
  obtain ⟨front, hfront, hseam⟩ := passOutcome_seam he hy (congrArg Outcome.failure h)
  refine ⟨front, endToken file a.toList, ?_, rfl, ?_⟩
  · exact congrArg Outcome.tokens (h.symm.trans hfront)
  have hrest : passOutcome env
      ⟨lineBehind 0 (bodyTokens file ps), (u :: us).map (Token.shift s)⟩ [] =
      (passOutcome env (.start (u :: us)) []).shift s := by
    rw [← passOutcome_shift]
    refine passOutcome_line (fun t ht => ?_) []
    cases ht
    simp only [Cursor.start]
    omega
  rw [List.dropLast_concat, filterTokens_eq, filterTokens_eq, ← Outcome.result_kept_shift, ← hrest]
  exact congrArg Outcome.result hseam

/-! ## Texts -/

/-- If a text comes through, then with a line feed and a second text behind it, its tokens come
first, without its end, and then the second text brings what it brings by itself, further down. -/
theorem preprocess_append {env : Environment} {file a b : String}
    (h : preprocess env file a = .ok ts) :
    ∃ front e, ts = front ++ [e] ∧ e.kind = .eof ∧
      match preprocess env file b with
      | .ok us => preprocess env file (a ++ "\n" ++ b) =
          .ok (front ++ us.map (Token.shift (.behind a.toList)))
      | .error (.diagnostic d) => ∃ d', preprocess env file (a ++ "\n" ++ b) =
          .error (.diagnostic d') ∧ d.Moved (.behind a.toList) d'
      | .error (.limit l) => preprocess env file (a ++ "\n" ++ b) = .error (.limit l) := by
  cases ha : tokenize file a with
  | error e => rw [preprocess, ha] at h; cases h
  | ok as =>
    rw [preprocess, ha] at h
    cases hb : tokenize file b with
    | error e =>
      have hnil : tokenize file "" = .ok [endToken file []] :=
        tokenize_of_pieces (show pieces "".toList = .ok [] from pieces_nil)
      obtain ⟨front, last, rfl, he, -⟩ := filterTokens_append ha hnil h
      obtain ⟨line, hab⟩ := tokenize_append_error ha hb
      refine ⟨front, last, rfl, he, ?_⟩
      rw [preprocess, preprocess, hb, hab]
      exact ⟨_, rfl, rfl, rfl, rfl, rfl⟩
    | ok bs =>
      obtain ⟨front, last, rfl, he, hf⟩ := filterTokens_append ha hb h
      refine ⟨front, last, rfl, he, ?_⟩
      rw [preprocess, preprocess, hb, tokenize_append ha hb]
      dsimp only
      rw [hf]
      cases filterTokens env bs with
      | ok us => rfl
      | error f =>
        cases f with
        | diagnostic d => exact ⟨_, rfl, d.moved_shift _⟩
        | limit l => rfl

/-- Quotes on both sides of the line feed are no character literal, and a stray `#end` behind it is
stray there. -/
theorem preprocess_append_quote :
    preprocess .empty "f" "'" =
        .ok [⟨.symbol "'", "'", ⟨"f", 0, 1, 1, 1⟩⟩, ⟨.eof, "", ⟨"f", 1, 1, 2, 0⟩⟩] ∧
      preprocess .empty "f" ("'" ++ "\n" ++ "'") =
        .ok [⟨.symbol "'", "'", ⟨"f", 0, 1, 1, 1⟩⟩, ⟨.symbol "'", "'", ⟨"f", 2, 2, 1, 1⟩⟩,
          ⟨.eof, "", ⟨"f", 3, 2, 2, 0⟩⟩] ∧
      ∃ d, preprocess .empty "f" ("'" ++ "\n" ++ "#end") = .error (.diagnostic d) ∧
        Diagnostic.Moved ⟨2, 1⟩ (.structural ⟨"f", 0, 1, 1, 4⟩ (.unmatched .endMarker)) d := by
  have h : preprocess .empty "f" "'" =
      .ok [⟨.symbol "'", "'", ⟨"f", 0, 1, 1, 1⟩⟩, ⟨.eof, "", ⟨"f", 1, 1, 2, 0⟩⟩] := by cbv
  have hend : preprocess .empty "f" "#end" =
      .error (.diagnostic (.structural ⟨"f", 0, 1, 1, 4⟩ (.unmatched .endMarker))) := by cbv
  refine ⟨h, ?_, ?_⟩
  · obtain ⟨front, e, hts, -, hb⟩ := preprocess_append (b := "'") h
    rw [h] at hb
    obtain ⟨rfl, -⟩ := List.append_inj' (hts.symm.trans rfl : front ++ [e] = [_] ++ [_]) rfl
    exact hb
  · obtain ⟨front, e, -, -, hb⟩ := preprocess_append (b := "#end") h
    rw [hend] at hb
    exact hb

end HashIf
