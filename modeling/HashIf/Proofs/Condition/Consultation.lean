import HashIf.Proofs.Condition.Acceptance
import HashIf.Proofs.Environment.Entries
import HashIf.Proofs.Environment.Names
import HashIf.Proofs.Filter.Seam
import HashIf.Proofs.Source.Markers

/-! Tests for a name. The name of a variable that is bound is found to be defined, unless it is a
word that has a meaning of its own in conditions: then the header can not be read. -/

namespace HashIf

/-! ## Tokens of one line -/

theorem staysOn_of_flat (h : pieces text = .ok ps) (hl : '\n' ∉ text)
    (ht : t ∈ bodyTokens file ps) : t.StaysOn 1 := by
  obtain ⟨hfirst, hlast⟩ := line_of_token h ht
  rw [Token.lastLine, List.count_eq_zero_of_not_mem hl] at hlast
  refine ⟨(standalone_of_token h ht).1, ?_, List.count_eq_zero.mp ?_⟩
  · omega
  · omega

/-- A name is read as a single token. -/
theorem tokenize_name (file : String) (h : isName name = true) :
    tokenize file name = .ok [⟨.ofWord name, name, .ofPosition file .start name.length⟩,
      endToken file name.toList] :=
  (standalone_of_isName h).tokenize file

/-! ## Headers that test for a name -/

/-- The line that tests for a name. -/
def definedHeader (name : String) : String := "#if defined " ++ name ++ " then"

theorem toList_definedHeader (name : String) : (definedHeader name).toList =
    "#if".toList ++ ' ' :: ("defined".toList ++ ' ' :: (name.toList ++ ' ' :: "then".toList)) := by
  simp [definedHeader]

def definedHeaderPieces (name : String) : List Piece :=
  [.token .hashWord "#if".toList, .blank ' ', .token .definedWord "defined".toList, .blank ' ',
    .token (.ofWord name) name.toList, .blank ' ', .token .thenWord "then".toList]

theorem reads_definedHeader (h : isName name = true) :
    Reads (definedHeader name).toList (definedHeaderPieces name) := by
  have hb : Breaks ' ' := .inl rfl
  have gap {cs : List Char} {ps : List Piece} (h : Reads cs ps) :
      Reads (' ' :: cs) (.blank ' ' :: ps) :=
    h.blanks (List.forall_mem_singleton.mpr hb)
  have marker : Standalone .hashWord "#if".toList := .mk rfl
  have test : Standalone .definedWord "defined".toList := .mk rfl
  have close : Standalone .thenWord "then".toList := .mk rfl
  have hq : name.toList ≠ ['\''] := by
    intro hq
    obtain ⟨c, cs, hcs, hc, -⟩ := exists_of_isName h
    cases hcs.symm.trans hq
    cases hc
  rw [toList_definedHeader]
  refine .token marker hb nofun (gap ?_)
  refine .token test hb nofun (gap ?_)
  exact .token (standalone_of_isName h) hb (absurd · hq) (gap close.reads)

/-- The token of the name in that line, behind the marker and the word of the test. -/
def testedName (file name : String) : Token :=
  ⟨.ofWord name, name, ⟨file, 12, 1, 13, name.length⟩⟩

/-- The line is made up of four tokens, and none of them leaves it. -/
theorem tokenize_definedHeader (file : String) (h : isName name = true) :
    ∃ l₁ l₂ l₄,
      let body : List Token := [⟨.hashWord, "#if", l₁⟩, ⟨.definedWord, "defined", l₂⟩,
        testedName file name, ⟨.thenWord, "then", l₄⟩]
      tokenize file (definedHeader name) =
        .ok (body ++ [endToken file (definedHeader name).toList]) ∧ ∀ t ∈ body, t.StaysOn 1 := by
  have hp := pieces_iff.mpr (reads_definedHeader h)
  have hl : '\n' ∉ (definedHeader name).toList := by
    simp [toList_definedHeader, lineFeed_not_mem_of_isName h]
  obtain ⟨l₁, l₂, l₄, hbody⟩ : ∃ l₁ l₂ l₄, bodyTokens file (definedHeaderPieces name) =
      [⟨.hashWord, "#if", l₁⟩, ⟨.definedWord, "defined", l₂⟩,
        ⟨.ofWord name, String.ofList name.toList, ⟨file, 12, 1, 13, name.toList.length⟩⟩,
        ⟨.thenWord, "then", l₄⟩] :=
    ⟨_, _, _, rfl⟩
  rw [String.ofList_toList, String.length_toList] at hbody
  refine ⟨l₁, l₂, l₄, ?_, fun t ht => ?_⟩
  · rw [tokenize_of_pieces hp, hbody]
    rfl
  · exact staysOn_of_flat hp hl (hbody ▸ ht)

section

variable {c : Cursor} {directive test name close : Token}
  (hc : headerTokens c.lastLine c.unread = [test, name, close]) (ht : test.kind = .definedWord)

include hc ht

theorem Cursor.condition_defined (hn : name.kind = .identifier) (he : close.kind = .thenWord) :
    c.condition directive = (.ok (.defined test.loc name.lexeme), 3) := by
  have hf : ConditionForm [test, name] (.defined test.loc name.lexeme) :=
    .conjunction (.predicate (.defined ht hn))
  have hh : HeaderForm ([test, name] ++ [close]) (.defined test.loc name.lexeme) 3 :=
    .upToThen hf he
  exact condition_of_form (hc ▸ hh)

/-- Behind a test nothing is read but an identifier. -/
theorem Cursor.condition_not_identifier (hn : name.kind ≠ .identifier) :
    (c.condition directive).1 =
      .error (.diagnostic (.header name (.variableName test.lexeme))) := by
  have hp (stop : Token) : (Header.predicate stop [test, name, close]).result =
      .error (.diagnostic (.header name (.variableName test.lexeme))) := by
    have hk : test.kind ≠ .symbol "(" := by simp [ht]
    rw [Header.predicate, if_neg hk, Header.simplePredicate, if_pos ht, Header.expect, Header.peek,
      List.headD_cons, if_neg hn]
    rfl
  have hcond (stop : Token) : (Header.condition stop [test, name, close]).result =
      .error (.diagnostic (.header name (.variableName test.lexeme))) := by
    rw [Header.condition]
    apply Parsed.error_andThen
    rw [Header.conjunction]
    exact Parsed.error_andThen (hp stop)
  show (Header.parse _ directive (headerTokens c.lastLine c.unread)).result = _
  rw [hc]
  exact Header.parse_of_error (List.cons_ne_nil _ _) (hcond _)

end

theorem evaluate_defined_of_build {builtin : Bindings}
    (h : Environment.build builtin (.ofList [(name, raw)]) = .ok env) :
    (Condition.defined loc name).evaluate env = .ok true := by
  have hm : name ∈ env.names := by
    rw [Environment.names_eq, Environment.bindings_of_build h]
    exact mem_names_bindIn.mpr (.inl rfl)
  rw [Condition.evaluate, Environment.contains_iff.mpr hm]

/-- The header of the line in which a name is tested, behind its marker. -/
theorem header_definedHeader (file : String) (h : isName name = true) :
    ∃ directive test close eof,
      let ts := [test, testedName file name, close, eof]
      tokenize file (definedHeader name) = .ok (directive :: ts) ∧
      (Cursor.start (directive :: ts)).marker? = some .ifMarker ∧
      headerTokens directive.lastLine ts = [test, testedName file name, close] ∧
      test.kind = .definedWord ∧ test.lexeme = "defined" ∧ close.kind = .thenWord := by
  obtain ⟨l₁, l₂, l₄, htok, hline⟩ := tokenize_definedHeader file h
  obtain ⟨hfirst, hrest⟩ := List.forall_mem_cons.mp hline
  refine ⟨_, _, _, _, htok, ?_, ?_, rfl, rfl, rfl⟩
  · refine Cursor.marker?_cons.mpr ⟨⟨rfl, rfl⟩, ?_⟩
    rw [hfirst.line]
    exact Int.zero_lt_one
  · rw [hfirst.lastLine_eq]
    have heof (xs : List Token) (text : List Char) :
        headerTokens 1 (xs ++ [endToken file text]) = headerTokens 1 xs := headerTokens_eof rfl
    exact (heof [_, _, _] _).trans (headerTokens_of_staysOn hrest)

/-- A name is read as a single token, which is an identifier exactly if the name has no meaning of
its own in conditions. Then a header that tests for the name is read, and the test succeeds wherever
the name is bound; otherwise the header fails at the token of the name, where the name of a variable
is missing. -/
theorem isName_consulted (file : String) (h : isName name = true) :
    tokenize file name = .ok [⟨.ofWord name, name, .ofPosition file .start name.length⟩,
      endToken file name.toList] ∧
    (Kind.ofWord name = .identifier ↔ name ∉ reservedWords) ∧
    ∃ directive test close eof,
      let ts := [test, testedName file name, close, eof]
      tokenize file (definedHeader name) = .ok (directive :: ts) ∧
      (Cursor.start (directive :: ts)).marker? = some .ifMarker ∧
      (name ∉ reservedWords → ∃ cond,
        Cursor.condition ⟨directive.lastLine, ts⟩ directive = (.ok cond, 3) ∧
        ∀ builtin raw env, Environment.build builtin (.ofList [(name, raw)]) = .ok env →
          cond.evaluate env = .ok true) ∧
      (name ∈ reservedWords → (Cursor.condition ⟨directive.lastLine, ts⟩ directive).1 =
        .error (.diagnostic (.header (testedName file name) (.variableName "defined")))) := by
  refine ⟨tokenize_name file h, Kind.ofWord_eq_identifier_iff, ?_⟩
  obtain ⟨directive, test, close, eof, htok, hmarker, hheader, ht, hlex, hclose⟩ :=
    header_definedHeader file h
  refine ⟨directive, test, close, eof, htok, hmarker, fun hn => ?_, fun hr => ?_⟩
  · have hid : (testedName file name).kind = .identifier := Kind.ofWord_eq_identifier_iff.mpr hn
    refine ⟨.defined test.loc name, ?_, fun _ _ _ hb => evaluate_defined_of_build hb⟩
    exact Cursor.condition_defined hheader ht hid hclose
  · have hid : (testedName file name).kind ≠ .identifier :=
      fun hid => Kind.ofWord_eq_identifier_iff.mp hid hr
    rw [← hlex]
    exact Cursor.condition_not_identifier hheader ht hid

/-- A name can be bound to any raw text that is no longer than a numeral may be. -/
theorem exists_build (raw : String) (h : isName name = true)
    (hraw : raw.length ≤ decimalDigitLimit) :
    ∃ env, Environment.build .empty (.ofList [(name, raw)]) = .ok env := by
  have hn : (Bindings.ofList [(name, raw)]).Named := List.forall_mem_singleton.mpr h
  rcases Environment.build_cases .empty hn with ⟨hb, -⟩ | ⟨n, -, hlong⟩
  · exact hb
  · obtain ⟨e, he, hlong⟩ := hlong.long
    cases List.mem_singleton.mp he
    exact (not_longInteger hraw hlong).elim

/-- A quote in a name begins no literal, and the test does not look at what the name is bound to. -/
theorem isName_consulted_quoted :
    isName "a'" = true ∧ "a'" ∉ reservedWords ∧
      ∃ directive ts, tokenize "" (definedHeader "a'") = .ok (directive :: ts) ∧
        ∃ cond, Cursor.condition ⟨directive.lastLine, ts⟩ directive = (.ok cond, 3) ∧
          ∃ env, Environment.build .empty (.ofList [("a'", "false")]) = .ok env ∧
            cond.evaluate env = .ok true := by
  have h : isName "a'" = true := by decide
  have hn : "a'" ∉ reservedWords := by decide
  obtain ⟨-, -, directive, test, close, eof, htok, -, hread, -⟩ := isName_consulted "" h
  obtain ⟨cond, hcond, htrue⟩ := hread hn
  obtain ⟨env, henv⟩ := exists_build "false" h (by decide)
  exact ⟨h, hn, directive, _, htok, cond, hcond, env, henv, htrue _ _ _ henv⟩

/-- The word `then` has the form of a name and can be bound, but it is no identifier, and no test
for it can be read. -/
theorem then_not_consulted :
    isName "then" = true ∧ (∃ env, Environment.build .empty (.ofList [("then", "1")]) = .ok env) ∧
      (¬∃ l, tokenize "" "then" = .ok [⟨.identifier, "then", l⟩, endToken "" "then".toList]) ∧
      ∃ directive ts, tokenize "" (definedHeader "then") = .ok (directive :: ts) ∧
        ¬∃ cond n, Cursor.condition ⟨directive.lastLine, ts⟩ directive = (.ok cond, n) := by
  have h : isName "then" = true := by decide
  refine ⟨h, exists_build "1" h (by decide), ?_, ?_⟩
  · rintro ⟨l, hl⟩
    cases (tokenize_name "" h).symm.trans hl
  · obtain ⟨directive, test, close, eof, htok, -, hheader, ht, -, -⟩ := header_definedHeader "" h
    refine ⟨directive, _, htok, ?_⟩
    rintro ⟨cond, n, hc⟩
    have hid : (testedName "" "then").kind ≠ .identifier := by decide
    have herror : (Cursor.condition ⟨directive.lastLine, _⟩ directive).1 = _ :=
      Cursor.condition_not_identifier hheader ht hid
    rw [hc] at herror
    cases herror

end HashIf
