import HashIf.Condition.Evaluation
import HashIf.Condition.Header
import HashIf.Proofs.Source.NumberParts
import HashIf.Proofs.Value.Coercion

/-! Number literals in headers. A number token in ASCII stands for what the raw text of a binding
would that is spelled the same, also with a minus sign glued to it. -/

namespace HashIf

/-! ## Literals -/

/-- The term of a literal that stands for a datum. -/
def Datum.literal : Datum → Term
  | bool b => .bool b
  | int v => .int v
  | float x => .float x
  | string t => .string t

theorem Operand.datum_of_literal {loc : Location}
    (h : (⟨loc, d.literal⟩ : Operand).value env = .ok v) :
    v.datum = d := by
  cases d with
  | int n =>
    simp only [Operand.value, Datum.literal] at h
    split at h <;> cases h
    rfl
  | bool | float | string =>
    cases h
    rfl

/-- A reference has the value of its variable, as its raw text denotes it. -/
theorem Operand.value_reference (env : Environment) (h : env.raw? name = some raw)
    (loc : Location) : ∃ v, (⟨loc, .reference name⟩ : Operand).value env = .ok v ∧
      Datum.ofString raw = .ok v.datum := by
  obtain ⟨x, hx, rfl⟩ := Option.map_eq_some_iff.mp h
  have hl : env.lookup? name = some x.value := by rw [Environment.lookup?, hx, Option.map_some]
  exact ⟨x.value, by simp only [Operand.value, hl], x.datum_eq⟩

/-- The tokens of a number token in a header, which may have a minus sign glued to it, and the text
that they spell. -/
inductive Spells (t : Token) : (first : Token) → (more : List Token) → String → Prop
  | plain : Spells t t [] t.lexeme
  | negated (hm : minus.kind = .symbol "-") (hg : t.loc.index = minus.loc.index + 1) :
    Spells t minus [t] ("-" ++ t.lexeme)

/-! ## Terms of number tokens -/

section

variable {t : Token} {sign : String} (hs : Standalone t.kind t.lexeme.toList)
  (ha : ∀ c ∈ t.lexeme.toList, c.toNat < 128) (hsign : SignForm sign.toList negative)

include hs ha hsign

theorem numberTerm_of_integer (hk : t.kind = .integer) :
    IsIntegerNumeral (sign ++ t.lexeme).toList ∧
      Header.numberTerm negative t = match integerOfNumeral? (sign ++ t.lexeme) with
        | some v => .ok (.int v)
        | none => .error (.diagnostic (.header t .integerLiteral)) := by
  obtain ⟨c, cs, hc, hd, hn⟩ := hs.numberParts (.inl hk)
  rw [hk] at hn
  rw [hc] at ha
  obtain ⟨base, ds, h⟩ := hn.integerForm hd ha
  have hsigned : IntegerForm (sign ++ t.lexeme).toList negative base ds := by
    rw [String.toList_append, hc]
    exact h _ _ hsign
  have hplain : IntegerForm t.lexeme.toList false base ds := by
    rw [hc]
    exact h _ _ .none
  refine ⟨⟨_, _, _, hsigned⟩, ?_⟩
  rw [Header.numberTerm, if_pos hk, hsigned.integerOfNumeral?_eq, hplain.integerOfNumeral?_eq]
  cases magnitude? base ds with
  | none => rfl
  | some n => cases negative <;> rfl

theorem numberTerm_of_float (hk : t.kind = .float) : ∃ x,
    ¬IsIntegerNumeral (sign ++ t.lexeme).toList ∧ FloatForm (sign ++ t.lexeme).toList x ∧
      Header.numberTerm negative t = .ok (.float x) := by
  obtain ⟨c, cs, hc, hd, hn⟩ := hs.numberParts (.inr hk)
  rw [hk] at hn
  rw [hc] at ha
  obtain ⟨count, m, e, h⟩ := hn.floatForm hd ha
  have hplain : FloatForm t.lexeme.toList (.ofDecimal false count m e) := by
    rw [hc]
    exact (h _ _ .none).2
  refine ⟨.ofDecimal negative count m e, ?_⟩
  rw [String.toList_append, hc]
  refine ⟨(h _ _ hsign).1, (h _ _ hsign).2, ?_⟩
  have hi : ¬t.kind = .integer := by simp [hk]
  rw [Header.numberTerm, if_neg hi, hplain.binary64OfNumeral?]
  cases negative <;> rfl

/-- The term of a number token is the literal of what its text denotes, if it has one. -/
theorem numberTerm_ok_iff (hk : t.kind = .integer ∨ t.kind = .float) :
    Header.numberTerm negative t = .ok a ↔
      ∃ d, Datum.ofString (sign ++ t.lexeme) = .ok d ∧ a = d.literal := by
  rcases hk with hk | hk
  · obtain ⟨hi, ht⟩ := numberTerm_of_integer hs ha hsign hk
    rw [ht, Datum.ofString_of_integer hi]
    cases integerOfNumeral? (sign ++ t.lexeme) with
    | none => simp
    | some v => simp [Datum.literal, eq_comm]
  · obtain ⟨x, hi, hx, ht⟩ := numberTerm_of_float hs ha hsign hk
    rw [ht, Datum.ofString_of_float hi hx]
    simp [Datum.literal, eq_comm]

theorem type_of_number (hk : t.kind = .integer ∨ t.kind = .float)
    (h : Datum.ofString (sign ++ t.lexeme) = .ok d) :
    d.type = if t.kind = .integer then .int else .float := by
  rcases hk with hk | hk
  · obtain ⟨hi, -⟩ := numberTerm_of_integer hs ha hsign hk
    rw [Datum.ofString_of_integer hi] at h
    rw [if_pos hk]
    split at h <;> cases h
    rfl
  · obtain ⟨x, hi, hx, -⟩ := numberTerm_of_float hs ha hsign hk
    rw [Datum.ofString_of_float hi hx] at h
    cases h
    rw [if_neg (by simp [hk])]
    rfl

end

/-! ## Number tokens in headers -/

theorem operand_of_negated (hm : minus.kind = .symbol "-") (hg : t.loc.index = minus.loc.index + 1)
    (hk : t.kind = .integer ∨ t.kind = .float) (stop : Token) (rest : List Token) :
    (Header.operand stop (minus :: t :: rest)).result =
      (Header.numberTerm true t).map (⟨minus.loc, ·⟩) := by
  have hglued : (Header.isNumber t && t.loc.index == minus.loc.index + 1) = true := by
    simp [Header.isNumber, hk, hg]
  rw [Header.operand, if_pos hm, Header.negatedNumber, Header.peek, List.headD_cons, if_pos hglued]
  rfl

theorem operand_of_number (hk : t.kind = .integer ∨ t.kind = .float) (stop : Token)
    (rest : List Token) :
    (Header.operand stop (t :: rest)).result = (Header.numberTerm false t).map (⟨t.loc, ·⟩) := by
  have hm : ¬t.kind = .symbol "-" := by rcases hk with hk | hk <;> simp [hk]
  have ht : Header.operandTerm? t = some (Header.numberTerm false t) := by
    rcases hk with hk | hk <;> simp [Header.operandTerm?, hk]
  rw [Header.operand, if_neg hm, ht]

theorem Spells.signForm (h : Spells t first more text)
    (hk : t.kind = .integer ∨ t.kind = .float) : ∃ sign negative, SignForm sign.toList negative ∧
      text = sign ++ t.lexeme ∧ ∀ stop rest, (Header.operand stop (first :: more ++ rest)).result =
        (Header.numberTerm negative t).map (⟨first.loc, ·⟩) := by
  cases h with
  | plain => exact ⟨"", false, .none, String.empty_append.symm, operand_of_number hk⟩
  | negated hm hg => exact ⟨"-", true, .minus, rfl, operand_of_negated hm hg hk⟩

/-- A number token is read as the literal of what its text denotes, if it has one. -/
theorem Spells.operand_ok_iff (h : Spells t first more text)
    (hs : Standalone t.kind t.lexeme.toList) (ha : ∀ c ∈ t.lexeme.toList, c.toNat < 128)
    (hk : t.kind = .integer ∨ t.kind = .float) (stop : Token) (rest : List Token) :
    (Header.operand stop (first :: more ++ rest)).result = .ok a ↔
      ∃ d, Datum.ofString text = .ok d ∧ a = ⟨first.loc, d.literal⟩ := by
  obtain ⟨sign, negative, hsign, rfl, hoperand⟩ := h.signForm hk
  rw [hoperand]
  constructor
  · intro hr
    cases hn : Header.numberTerm negative t with
    | error f =>
      rw [hn] at hr
      cases hr
    | ok term =>
      rw [hn] at hr
      cases hr
      obtain ⟨d, hd, rfl⟩ := (numberTerm_ok_iff hs ha hsign hk).mp hn
      exact ⟨d, hd, rfl⟩
  · rintro ⟨d, hd, rfl⟩
    rw [(numberTerm_ok_iff hs ha hsign hk).mpr ⟨d, hd, rfl⟩]
    rfl

/-- A number token of a text, in ASCII, with a minus sign glued to it or without one, is an operand
if the text that it spells denotes a datum: the literal of that datum, of the type of the token. A
variable to which the text is bound then has the value of the literal. -/
theorem operand_spelled_iff {ts : List Token} (h : tokenize file source = .ok ts) (ht : t ∈ ts)
    (hk : t.kind = .integer ∨ t.kind = .float) (ha : ∀ c ∈ t.lexeme.toList, c.toNat < 128)
    (hs : Spells t first more text) (stop : Token) (rest : List Token) :
    (∀ a, (Header.operand stop (first :: more ++ rest)).result = .ok a ↔
      ∃ d, Datum.ofString text = .ok d ∧ a = ⟨first.loc, d.literal⟩) ∧
    ∀ d, Datum.ofString text = .ok d →
      d.type = (if t.kind = .integer then .int else .float) ∧
      ∀ env loc, (∀ v, (⟨loc, d.literal⟩ : Operand).value env = .ok v → v.datum = d) ∧
        ∀ name, env.raw? name = some text →
          ∃ v, (⟨loc, .reference name⟩ : Operand).value env = .ok v ∧ v.datum = d := by
  have halone : Standalone t.kind t.lexeme.toList := by
    apply standalone_of_tokenize h ht
    rcases hk with hk | hk <;> simp [hk]
  constructor
  · intro a
    exact hs.operand_ok_iff halone ha hk stop rest
  intro d hd
  obtain ⟨sign, negative, hsign, rfl, -⟩ := hs.signForm hk
  refine ⟨type_of_number halone ha hsign hk hd, ?_⟩
  intro env loc
  constructor
  · intro v
    exact Operand.datum_of_literal
  · intro name hname
    obtain ⟨v, hv, hraw⟩ := Operand.value_reference env hname loc
    exact ⟨v, hv, Except.ok.inj (hraw.symm.trans hd)⟩

/-- A hexadecimal numeral with an underscore, in a header and as the raw text of a variable. -/
theorem operand_hexadecimal :
    let minus := Token.mk (.symbol "-") "-" ⟨"f", 0, 1, 1, 1⟩
    let t := Token.mk .integer "0x1_F" ⟨"f", 1, 1, 2, 5⟩
    tokenize "f" "-0x1_F" = .ok [minus, t, ⟨.eof, "", ⟨"f", 6, 1, 7, 0⟩⟩] ∧
      (Header.operand t [minus, t]).result = .ok ⟨minus.loc, .int (-31)⟩ ∧
      ∃ env v, env.raw? "N" = some "-0x1_F" ∧
        (⟨t.loc, .reference "N"⟩ : Operand).value env = .ok v ∧ v.datum = .int (-31) := by
  intro minus t
  have h : tokenize "f" "-0x1_F" = .ok [minus, t, ⟨.eof, "", ⟨"f", 6, 1, 7, 0⟩⟩] := by cbv
  have hd : Datum.ofString "-0x1_F" = .ok (.int (-31)) := by cbv
  have ha : ∀ c ∈ t.lexeme.toList, c.toNat < 128 := by simp [t]
  have hs : Spells t minus [t] "-0x1_F" := .negated rfl rfl
  obtain ⟨hoperand, hvalue⟩ := operand_spelled_iff h (List.mem_cons_of_mem _ List.mem_cons_self)
    (.inl rfl) ha hs t []
  let env : Environment := ⟨[⟨"N", "-0x1_F", .int (-31), hd⟩], List.nodup_singleton _⟩
  obtain ⟨v, hv, hdatum⟩ := ((hvalue _ hd).2 env t.loc).2 "N" rfl
  exact ⟨h, (hoperand _).mpr ⟨_, hd, rfl⟩, env, v, rfl, hv, hdatum⟩

end HashIf
