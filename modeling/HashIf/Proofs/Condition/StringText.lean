import HashIf.Condition.Literal
import HashIf.Proofs.Condition.Limits
import HashIf.Proofs.Number.Numeral
import HashIf.Proofs.Source.Standalone

/-! The text of a string literal. It is what the stretches of the literal denote that the scan took,
one after the other, but for decimal escapes: the scan takes any digits for them, and those with
another digit than `0` to `9` are left in the text as they are written. -/

namespace HashIf

/-! ## What stretches denote -/

namespace Stretch

/-- The codes of the characters that a stretch denotes. -/
def codes? : Stretch → Option (List Nat)
  | plain c => some [c.toNat]
  | simple 'n' => some ['\n'.toNat]
  | simple 't' => some ['\t'.toNat]
  | simple 'r' => some ['\r'.toNat]
  | simple 'b' => some ['\x08'.toNat]
  | simple c => some [c.toNat]
  | decimal ds => (numeral? 10 decimalValue? ds).map ([·])
  | hex ds => (numeral? 16 asciiDigitValue? ds).map ([·])
  | octal ds => (numeral? 8 asciiDigitValue? ds).map ([·])
  | unicode ds => (numeral? 16 asciiDigitValue? ds).map ([·])
  | continuation _ _ => some []

/-- A decimal escape with a digit other than `0` to `9`. -/
def isForeign : Stretch → Bool
  | decimal ds => !ds.all isDecimal
  | _ => false

/-- The codes of the characters that stand for a stretch in the text of a literal. -/
def result? (s : Stretch) : Option (List Nat) :=
  if s.isForeign then some (s.chars.map Char.toNat) else s.codes?

/-- The codes of the characters that stretches denote one after the other. -/
def codesOf? (ss : List Stretch) : Option (List Nat) := (ss.mapM codes?).map List.flatten

def resultOf? (ss : List Stretch) : Option (List Nat) := (ss.mapM result?).map List.flatten

end Stretch

/-! ## Segments of stretches -/

namespace Segment

def codes : Segment → List Nat
  | plain c => [c.toNat]
  | escape code => [code]
  | continuation => []

theorem simpleCode?_eq_none (h : isSimpleEscape c = false) : simpleCode? c = none := by
  unfold simpleCode?
  split
  case h_9 => rfl
  all_goals cases h

theorem simpleCode?_of_isSimpleEscape (h : isSimpleEscape c = true) :
    ∃ code < 0x110000, simpleCode? c = some code ∧ (Stretch.simple c).codes? = some [code] := by
  simp only [isSimpleEscape, Bool.or_eq_true, beq_iff_eq] at h
  rcases h with ((((((rfl | rfl) | rfl) | rfl) | rfl) | rfl) | rfl) | rfl <;>
    exact ⟨_, by decide, rfl, rfl⟩

theorem fixedEscape?_digits (hl : ds.length = width) (h : ∀ d ∈ ds, isDigitOf base d = true) :
    fixedEscape? base width (ds ++ rest) = some (.escape (digitsValue base ds), width) := by
  rw [fixedEscape?, List.take_left' hl]
  simp only [hl, List.all_eq_true.mpr h, decide_true, Bool.and_true, if_true]

theorem fixedEscape?_foreign (hl : ds.length = width) (h : ¬∀ d ∈ ds, isDigitOf base d = true) :
    fixedEscape? base width (ds ++ rest) = none := by
  rw [fixedEscape?, List.take_left' hl, if_neg]
  simpa [hl] using h

theorem bracedEscape?_append (hn : ds ≠ []) (h : ∀ d ∈ ds, isHex d = true) :
    bracedEscape? (ds ++ '\x7d' :: rest) = some (.escape (digitsValue 16 ds), ds.length + 1) := by
  have hspan : (ds ++ '\x7d' :: rest).span isHex = (ds, '\x7d' :: rest) := by
    rw [List.span_eq_takeWhile_dropWhile, List.takeWhile_append_of_pos h,
      List.dropWhile_append_of_pos h, List.takeWhile_cons_of_neg (by decide),
      List.dropWhile_cons_of_neg (by decide), List.append_nil]
  rw [bracedEscape?, hspan]
  simp [hn]

end Segment

theorem segments_plain (h : c ≠ '\\') : segments (c :: cs) = .plain c :: segments cs := by
  rw [segments, if_neg h]

theorem segments_plains (h : ∀ c ∈ cs, c ≠ '\\') :
    segments (cs ++ rest) = cs.map .plain ++ segments rest := by
  induction cs with
  | nil => rfl
  | cons c cs ih =>
    obtain ⟨hc, hcs⟩ := List.forall_mem_cons.mp h
    rw [List.cons_append, segments_plain hc, ih hcs]
    rfl

theorem segments_backslash {s : Segment}
    (h : Segment.ofBackslash? (e ++ rest) = some (s, e.length)) :
    segments ('\\' :: (e ++ rest)) = s :: segments rest := by
  rw [segments, if_pos rfl, h]
  show s :: segments ((e ++ rest).drop e.length) = _
  rw [List.drop_left]

theorem segments_lone (h : Segment.ofBackslash? cs = none) :
    segments ('\\' :: cs) = .plain '\\' :: segments cs := by
  rw [segments, if_pos rfl, h]

/-- The segments that stretches are read as: they give the result, and an escape among them is
beyond the last code point only if one of the stretches is. -/
structure ReadAs (ss : List Stretch) (segs : List Segment) : Prop where
  result : Stretch.resultOf? ss = some (segs.flatMap Segment.codes)
  small : ∀ code, .escape code ∈ segs →
    code < 0x110000 ∨ ∃ ds, .unicode ds ∈ ss ∧ numeral? 16 asciiDigitValue? ds = some code

theorem Stretch.resultOf?_singleton (s : Stretch) : resultOf? [s] = s.result? := by
  cases h : s.result? <;> simp [resultOf?, h]

namespace ReadAs

theorem nil : ReadAs [] [] := ⟨rfl, by simp⟩

theorem cons (h : ReadAs [s] segs) (hs : ReadAs ss segs') : ReadAs (s :: ss) (segs ++ segs') where
  result := by
    have hr := h.result
    have hrs := hs.result
    rw [Stretch.resultOf?_singleton] at hr
    obtain ⟨rs, hm, hflat⟩ := Option.map_eq_some_iff.mp hrs
    rw [Stretch.resultOf?, List.mapM_cons, hr, hm, List.flatMap_append, ← hflat]
    rfl
  small code hcode := by
    rcases List.mem_append.mp hcode with hcode | hcode
    · refine (h.small code hcode).imp_right fun ⟨ds, hds, hnum⟩ => ⟨ds, ?_, hnum⟩
      exact List.mem_cons.mpr (.inl (List.mem_singleton.mp hds))
    · exact (hs.small code hcode).imp_right fun ⟨ds, hds, hnum⟩ =>
        ⟨ds, List.mem_cons_of_mem s hds, hnum⟩

theorem plain (c : Char) : ReadAs [.plain c] [.plain c] := ⟨rfl, by simp⟩

theorem continuation (lineEnd bs : List Char) :
    ReadAs [.continuation lineEnd bs] [.continuation] := ⟨rfl, by simp⟩

theorem escape {s : Stretch} (hf : s.isForeign = false) (hc : s.codes? = some [code])
    (hlt : code < 0x110000 ∨ ∃ ds, s = .unicode ds ∧ numeral? 16 asciiDigitValue? ds = some code) :
    ReadAs [s] [.escape code] where
  result := by
    rw [Stretch.resultOf?_singleton, Stretch.result?, hf]
    exact hc
  small n hn := by
    cases List.mem_singleton.mp hn
    exact hlt.imp_right fun ⟨ds, hs, hnum⟩ => ⟨ds, List.mem_singleton.mpr hs.symm, hnum⟩

theorem digits {s : Stretch} (hf : s.isForeign = false)
    (hc : s.codes? = (numeral? base asciiDigitValue? ds).map ([·]))
    (h : ∀ d ∈ ds, isDigitOf base d = true) (hle : base ^ ds.length ≤ 0x110000) :
    ReadAs [s] [.escape (digitsValue base ds)] := by
  rw [numeral?_of_isDigitOf h] at hc
  exact .escape hf hc (.inl (Nat.lt_of_lt_of_le (digitsValue_lt h) hle))

/-- A foreign escape is read as its characters. -/
theorem foreign {s : Stretch} (hf : s.isForeign = true) : ReadAs [s] (s.chars.map .plain) where
  result := by
    rw [Stretch.resultOf?_singleton, Stretch.result?, if_pos hf, List.flatMap_map]
    exact congrArg some (List.map_eq_flatMap ..)
  small code hcode := by
    obtain ⟨c, -, hc⟩ := List.mem_map.mp hcode
    cases hc

end ReadAs

theorem not_backslash_of_isDigit (h : isDigit c = true) : c ≠ '\\' := by
  rintro rfl
  revert h
  decide

theorem ofBackslash?_foreign (h : isDigit c = true) (hd : ¬isDecimal c = true) :
    Segment.ofBackslash? (c :: cs) = none := by
  unfold Segment.ofBackslash?
  simp only [Segment.simpleCode?_eq_none (not_simple_of_isDigit h), if_neg hd]
  split <;> first | rfl | cases h

theorem ofBackslash?_decimal (hd : isDecimal c = true) :
    Segment.ofBackslash? (c :: cs) = Segment.fixedEscape? 10 3 (c :: cs) := by
  unfold Segment.ofBackslash?
  simp only [Segment.simpleCode?_eq_none (not_simple_of_isDecimal hd), if_pos hd]

theorem Matches.all {classes : List (Char → Bool)} {q : Char → Bool} (h : Matches classes ds)
    (hq : ∀ p ∈ classes, ∀ c, p c = true → q c = true) : ∀ d ∈ ds, q d = true := by
  induction h with
  | nil => simp
  | cons hc _ ih =>
    obtain ⟨hp, hps⟩ := List.forall_mem_cons.mp hq
    exact List.forall_mem_cons.mpr ⟨hp _ hc, ih hps⟩

theorem blankCount_append (h : ∀ b ∈ bs, isBlank b = true) (hr : blankExtent rest = 0) :
    Segment.blankCount (bs ++ rest) = bs.length := by
  have hrest : rest.takeWhile isBlank = [] := List.eq_nil_of_length_eq_zero hr
  show ((bs ++ rest).takeWhile isBlank).length = bs.length
  rw [List.takeWhile_append_of_pos h, hrest, List.append_nil]

/-- A decimal escape is read if its digits are `0` to `9`, and is left as it is otherwise. -/
theorem segments_decimal (h : Matches [isDigit, isDigit, isDigit] ds) :
    ∃ segs, ReadAs [.decimal ds] segs ∧
      segments ('\\' :: (ds ++ rest)) = segs ++ segments rest := by
  have hlen : ds.length = 3 := h.length_eq.symm
  have hdigit : ∀ d ∈ ds, isDigit d = true := h.all (by simp)
  obtain ⟨d, es, rfl⟩ := List.exists_cons_of_length_eq_add_one hlen
  by_cases hds : ∀ e ∈ d :: es, isDecimal e = true
  · have hall : (d :: es).all isDecimal = true := List.all_eq_true.mpr hds
    refine ⟨_, .digits ?_ ?_ hds (by rw [hlen]; decide), segments_backslash ?_⟩
    · rw [Stretch.isForeign, hall, Bool.not_true]
    · rw [Stretch.codes?, numeral?_congr fun e he => decimalValue?_of_isDecimal (hds e he)]
    · rw [List.cons_append, ofBackslash?_decimal (hds d List.mem_cons_self), ← List.cons_append,
        Segment.fixedEscape?_digits hlen hds, hlen]
  · have hnone : Segment.ofBackslash? (d :: es ++ rest) = none := by
      by_cases hd : isDecimal d = true
      · rw [List.cons_append, ofBackslash?_decimal hd, ← List.cons_append,
          Segment.fixedEscape?_foreign hlen hds]
      · exact ofBackslash?_foreign (hdigit d List.mem_cons_self) hd
    refine ⟨_, .foreign ?_, ?_⟩
    · rw [Stretch.isForeign, Bool.not_eq_true', ← Bool.not_eq_true, List.all_eq_true]
      exact hds
    · rw [segments_lone hnone, segments_plains fun e he => not_backslash_of_isDigit (hdigit e he)]
      rfl

/-- An escape is read as it was taken. Behind a continuation no blank is left. -/
theorem segments_escape {s : Stretch} (h : s.IsEscape e)
    (hb : ∀ lineEnd bs, s = .continuation lineEnd bs → blankExtent rest = 0) :
    ∃ segs, ReadAs [s] segs ∧ segments ('\\' :: (e ++ rest)) = segs ++ segments rest := by
  cases h with
  | @simple c h =>
    obtain ⟨code, hlt, hcode, hcodes⟩ := Segment.simpleCode?_of_isSimpleEscape h
    refine ⟨[.escape code], .escape rfl hcodes (.inl hlt), ?_⟩
    refine segments_backslash (e := [c]) ?_
    simp only [List.singleton_append, Segment.ofBackslash?, hcode, List.length_singleton]
  | decimal h => exact segments_decimal h
  | @hex ds h =>
    have hds : ∀ d ∈ ds, isHex d = true := h.all (by simp)
    have hlen : ds.length = 2 := h.length_eq.symm
    refine ⟨_, .digits rfl rfl hds (by rw [hlen]; decide), segments_backslash ?_⟩
    show (Segment.fixedEscape? 16 2 (ds ++ rest)).map _ = _
    rw [Segment.fixedEscape?_digits hlen hds, List.length_cons, hlen]
    rfl
  | @octal ds h =>
    have hds : ∀ d ∈ ds, isDigitOf 8 d = true := h.all (by
      simp only [octalClasses, List.forall_mem_cons]
      exact ⟨fun c hc => isDigitOf_mono hc (by decide), fun c hc => hc, fun c hc => hc, by simp⟩)
    have hlen : ds.length = 3 := h.length_eq.symm
    refine ⟨_, .digits rfl rfl hds (by rw [hlen]; decide), segments_backslash ?_⟩
    show (Segment.fixedEscape? 8 3 (ds ++ rest)).map _ = _
    rw [Segment.fixedEscape?_digits hlen hds, List.length_cons, hlen]
    rfl
  | @unicode ds hn h =>
    have hnum : numeral? 16 asciiDigitValue? ds = some (digitsValue 16 ds) :=
      numeral?_of_isDigitOf h
    refine ⟨_, .escape rfl ?_ (.inr ⟨ds, rfl, hnum⟩), segments_backslash ?_⟩
    · rw [Stretch.codes?, hnum]
      rfl
    show (Segment.bracedEscape? (ds ++ ['\x7d'] ++ rest)).map _ = _
    rw [List.append_assoc]
    show (Segment.bracedEscape? (ds ++ '\x7d' :: rest)).map _ = _
    rw [Segment.bracedEscape?_append hn h]
    simp
  | @lineFeed bs h =>
    refine ⟨_, .continuation _ _, segments_backslash ?_⟩
    show some (Segment.continuation, 1 + Segment.blankCount (bs ++ rest)) = _
    rw [blankCount_append h (hb _ _ rfl), List.length_cons, Nat.add_comm]
  | @carriageReturn bs h =>
    refine ⟨_, .continuation _ _, segments_backslash ?_⟩
    show some (Segment.continuation, 2 + Segment.blankCount (bs ++ rest)) = _
    rw [blankCount_append h (hb _ _ rfl), List.length_cons, List.length_cons, Nat.add_comm]

/-! ## Segments of literals -/

theorem blankExtent_of_append (h : blankExtent (cs ++ ds) = 0) : blankExtent cs = 0 := by
  cases cs with
  | nil => rfl
  | cons c cs =>
    rw [blankExtent, List.cons_append, List.takeWhile_cons] at h
    split at h
    · cases h
    · next hc => rw [blankExtent, List.takeWhile_cons_of_neg hc, List.length_nil]

/-- The scan takes all blanks behind a continuation. -/
theorem Stretch.IsEscape.blankExtent_eq (h : Stretch.IsEscape (.continuation lineEnd bs) e)
    (hx : escapeExtent (e ++ cs) = .ok e.length) : blankExtent cs = 0 := by
  have append (hbs : ∀ b ∈ bs, isBlank b = true) :
      blankExtent (bs ++ cs) = bs.length + blankExtent cs := by
    rw [blankExtent, List.takeWhile_append_of_pos hbs, List.length_append, blankExtent]
  cases h with
  | lineFeed hbs =>
    have hx : 1 + blankExtent (bs ++ cs) = bs.length + 1 := Except.ok.inj hx
    have := append hbs
    omega
  | carriageReturn hbs =>
    have hx : 2 + blankExtent (bs ++ cs) = bs.length + 1 + 1 := Except.ok.inj hx
    have := append hbs
    omega

/-- A literal is read in the stretches in which it was taken. -/
theorem Scans.readAs (h : Scans back cs ss) : ReadAs ss (segments (ss.flatMap Stretch.chars)) := by
  induction h with
  | close =>
    rw [List.flatMap_nil, segments]
    exact .nil
  | @plain c cs ss _ _ hb _ ih =>
    have hread : segments (c :: ss.flatMap Stretch.chars) = _ := segments_plain hb
    rw [List.flatMap_cons]
    exact hread ▸ ReadAs.cons (.plain c) ih
  | @escape s e cs ss hs hx h ih =>
    -- The stretches behind a continuation do not begin with a blank that it would be read with.
    have hblank : ∀ lineEnd bs, s = .continuation lineEnd bs →
        blankExtent (ss.flatMap Stretch.chars) = 0 := by
      rintro lineEnd bs rfl
      rw [h.eq_append] at hx
      exact blankExtent_of_append (hs.blankExtent_eq hx)
    obtain ⟨segs, hsegs, hread⟩ := segments_escape hs hblank
    rw [List.flatMap_cons, hs.chars_eq, List.cons_append, hread]
    exact hsegs.cons ih

/-! ## Texts of literals -/

theorem Segment.codes_of_codePoint? {s : Segment} (h : s.codePoint? = .ok p) :
    p.toList.map CodePoint.val = s.codes := by
  cases s with
  | plain c | continuation => cases h; rfl
  | escape code =>
    rw [codePoint?, CodePoint.ofNat?] at h
    split at h
    · next hp =>
      split at hp <;> cases hp
      cases h
      rfl
    · cases h

theorem codes_of_textOfSegments (h : textOfSegments segs = .ok text) :
    text.map CodePoint.val = segs.flatMap Segment.codes := by
  induction segs generalizing text with
  | nil => cases h; rfl
  | cons s segs ih =>
    rw [textOfSegments] at h
    split at h
    · cases h
    · next hs =>
      split at h <;> cases h
      next ht => rw [List.map_append, List.flatMap_cons, Segment.codes_of_codePoint? hs, ih ht]

theorem textOfSegments_ok (h : ∀ code, .escape code ∈ segs → code < 0x110000) :
    ∃ text, textOfSegments segs = .ok text ∧
      text.map CodePoint.val = segs.flatMap Segment.codes := by
  cases ht : textOfSegments segs with
  | error l =>
    obtain ⟨code, hcode, hle⟩ := (textOfSegments_error_iff segs).mp ⟨l, ht⟩
    exact absurd (h code hcode) (Nat.not_lt.mpr hle)
  | ok text => exact ⟨text, rfl, codes_of_textOfSegments ht⟩

namespace Stretch

theorem length_codes? {s : Stretch} (hc : s.codes? = some cs) (hr : s.result? = some rs) :
    cs.length ≤ rs.length ∧ (s.isForeign = true → cs.length < rs.length) := by
  rw [result?] at hr
  split at hr
  · next hf =>
    cases s with
    | decimal ds =>
      cases hr
      obtain ⟨n, -, rfl⟩ := Option.map_eq_some_iff.mp hc
      have hne : ds ≠ [] := by
        rintro rfl
        cases hf
      have hlen : [n].length < ((decimal ds).chars.map Char.toNat).length := by
        rw [List.length_map, chars, List.length_cons]
        exact Nat.succ_lt_succ (List.length_pos_iff.mpr hne)
      exact ⟨Nat.le_of_lt hlen, fun _ => hlen⟩
    | plain | simple | hex | octal | unicode | continuation => cases hf
  · next hf =>
    cases hc.symm.trans hr
    exact ⟨Nat.le_refl _, fun h => absurd h hf⟩

theorem mapM_flatten_cons {f : Stretch → Option (List Nat)} {ss : List Stretch}
    (h : ((s :: ss).mapM f).map List.flatten = some ns) :
    ∃ ms ks, f s = some ms ∧ (ss.mapM f).map List.flatten = some ks ∧ ns = ms ++ ks := by
  obtain ⟨nss, hm, rfl⟩ := Option.map_eq_some_iff.mp h
  rw [List.mapM_cons] at hm
  obtain ⟨ms, hs, hm⟩ := Option.bind_eq_some_iff.mp hm
  obtain ⟨kss, hss, hm⟩ := Option.bind_eq_some_iff.mp hm
  cases hm
  exact ⟨ms, kss.flatten, hs, by rw [hss]; rfl, rfl⟩

/-- The result is longer than what is denoted, if there is a foreign escape. -/
theorem length_codesOf? (hc : codesOf? ss = some cs) (hr : resultOf? ss = some rs) :
    cs.length ≤ rs.length ∧ (cs.length = rs.length → ∀ s ∈ ss, s.isForeign = false) := by
  induction ss generalizing cs rs with
  | nil =>
    cases hc
    cases hr
    exact ⟨Nat.le_refl _, fun _ => by simp⟩
  | cons s ss ih =>
    obtain ⟨c, cs', hsc, hcs, rfl⟩ := mapM_flatten_cons hc
    obtain ⟨r, rs', hsr, hrs, rfl⟩ := mapM_flatten_cons hr
    obtain ⟨hle, hlt⟩ := length_codes? hsc hsr
    obtain ⟨hles, heqs⟩ := ih hcs hrs
    rw [List.length_append, List.length_append]
    refine ⟨Nat.add_le_add hle hles, fun heq => List.forall_mem_cons.mpr ⟨?_, heqs (by omega)⟩⟩
    rw [← Bool.not_eq_true]
    intro hf
    have := hlt hf
    omega

theorem codesOf?_eq_resultOf? (h : ∀ s ∈ ss, s.isForeign = false) :
    codesOf? ss = resultOf? ss := by
  have hm : ss.mapM codes? = ss.mapM result? := by
    induction ss with
    | nil => rfl
    | cons s ss ih =>
      obtain ⟨hs, hss⟩ := List.forall_mem_cons.mp h
      rw [List.mapM_cons, List.mapM_cons, ih hss, result?, if_neg (Bool.eq_false_iff.mp hs)]
  rw [codesOf?, resultOf?, hm]

end Stretch

/-- A string literal has the text that its stretches give, if no escape is beyond the last code
point. -/
theorem Scans.unescape (h : Scans back cs ss)
    (hl : lexeme.toList = '"' :: (ss.flatMap Stretch.chars ++ ['"']))
    (hu : ∀ ds code, .unicode ds ∈ ss → numeral? 16 asciiDigitValue? ds = some code →
      code < 0x110000) :
    ∃ text, HashIf.unescape lexeme = .ok text ∧
      Stretch.resultOf? ss = some (text.map CodePoint.val) := by
  have hsmall : ∀ code, .escape code ∈ segments (ss.flatMap Stretch.chars) → code < 0x110000 := by
    intro code hcode
    rcases h.readAs.small code hcode with hlt | ⟨ds, hds, hnum⟩
    · exact hlt
    · exact hu ds code hds hnum
  obtain ⟨text, htext, hcodes⟩ := textOfSegments_ok hsmall
  refine ⟨text, ?_, hcodes ▸ h.readAs.result⟩
  rw [HashIf.unescape, hl, List.drop_one, List.tail_cons, List.dropLast_concat, htext]

/-- A string of a text that can be read is taken in stretches where it stands. -/
theorem scans_of_tokenize (h : tokenize file source = .ok ts) (ht : t ∈ ts)
    (hk : t.kind = .string) :
    ∃ front back ss, t.loc.index = (front.length : Int) ∧
      t.lexeme.toList = '"' :: (ss.flatMap Stretch.chars ++ ['"']) ∧
      source.toList = front ++ (t.lexeme.toList ++ back) ∧
      Scans back (ss.flatMap Stretch.chars ++ '"' :: back) ss := by
  obtain ⟨ps, hps, rfl⟩ := tokenize_eq h
  have ht : t ∈ bodyTokens file ps := by
    rcases List.mem_append.mp ht with ht | ht
    · exact ht
    · cases List.mem_singleton.mp ht
      cases hk
  obtain ⟨⟨q, piece⟩, hm, hplaced⟩ := List.mem_filterMap.mp ht
  obtain ⟨front, c, rest, n, hsource, rfl, hnext⟩ := (pieces_iff.mp hps).of_mem_placesFrom hm
  cases piece with
  | blank | comment => cases hplaced
  | token kind cs =>
    cases hplaced
    obtain ⟨-, -, hx, rfl⟩ := nextPiece_token_iff.mp hnext
    obtain ⟨rfl, hn⟩ := (lexemeExtent_iff.mp hx).stringExtent hk
    obtain ⟨back, ss, hss, rfl⟩ := stringFrom_scans hn
    have hrest : rest = ss.flatMap Stretch.chars ++ ['"'] ++ back := by
      rw [hss.eq_append, List.append_assoc]
      rfl
    have htake : rest.take (1 + (ss.flatMap Stretch.chars).length) =
        ss.flatMap Stretch.chars ++ ['"'] := by
      rw [hrest]
      exact List.take_left' (by rw [List.length_append, List.length_singleton, Nat.add_comm])
    refine ⟨front, back, ss, congrArg Int.ofNat (Position.index_start front), ?_, ?_, ?_⟩
    · rw [String.toList_ofList, htake]
    · rw [String.toList_ofList, htake, hsource, hrest]
      rfl
    · rwa [← hss.eq_append]

/-- In a text that can be read, a string literal without an escape by number beyond the last code
point has the text that its stretches give, in which a foreign escape stands as it is written. It is
the text that the stretches denote if and only if none of them is a foreign escape. -/
theorem unescape_tokenize (h : tokenize file source = .ok ts) (ht : t ∈ ts)
    (hk : t.kind = .string) :
    ∃ front back ss, t.loc.index = (front.length : Int) ∧
      t.lexeme.toList = '"' :: (ss.flatMap Stretch.chars ++ ['"']) ∧
      source.toList = front ++ (t.lexeme.toList ++ back) ∧
      Scans back (ss.flatMap Stretch.chars ++ '"' :: back) ss ∧
      ((∀ ds code, .unicode ds ∈ ss → numeral? 16 asciiDigitValue? ds = some code →
          code < 0x110000) →
        ∃ text, unescape t.lexeme = .ok text ∧
          Stretch.resultOf? ss = some (text.map CodePoint.val) ∧
          (Stretch.codesOf? ss = some (text.map CodePoint.val) ↔
            ∀ s ∈ ss, s.isForeign = false)) := by
  obtain ⟨front, back, ss, hindex, hlexeme, hsource, hss⟩ := scans_of_tokenize h ht hk
  refine ⟨front, back, ss, hindex, hlexeme, hsource, hss, fun hu => ?_⟩
  obtain ⟨text, htext, hresult⟩ := hss.unescape hlexeme hu
  refine ⟨text, htext, hresult, fun hcodes => ?_, fun hf => ?_⟩
  -- A foreign escape denotes one character and stands in the text as several.
  · exact (Stretch.length_codesOf? hcodes hresult).2 rfl
  · exact (Stretch.codesOf?_eq_resultOf? hf).trans hresult

/-- The digits of the second escape are full width. They denote the code of an `o`, but the escape
stands in the text as it is written. -/
theorem unescape_tokenize_fullWidth :
    let t := Token.mk .string "\"\\065\\１１１\"" ⟨"f", 0, 1, 1, 10⟩
    let ss := [Stretch.decimal "065".toList, .decimal "１１１".toList]
    tokenize "f" t.lexeme = .ok [t, ⟨.eof, "", ⟨"f", 10, 1, 11, 0⟩⟩] ∧
      Scans [] ('\\' :: (['0', '6', '5'] ++ '\\' :: (['１', '１', '１'] ++ ['"']))) ss ∧
      Stretch.codesOf? ss = some ("Ao".toList.map Char.toNat) ∧
      ∃ text, unescape t.lexeme = .ok text ∧
        text.map CodePoint.val = "A\\１１１".toList.map Char.toNat ∧
        Stretch.codesOf? ss ≠ some (text.map CodePoint.val) := by
  intro t ss
  have hcodes : Stretch.codesOf? ss = some ("Ao".toList.map Char.toNat) := by decide
  have hresult : Stretch.resultOf? ss = some ("A\\１１１".toList.map Char.toNat) := by decide
  have digits (d : Char) (h : isDigit d = true) : Matches [isDigit, isDigit, isDigit] [d, d, d] :=
    .cons h (.cons h (.cons h .nil))
  have hss : Scans [] ('\\' :: (['0', '6', '5'] ++ '\\' :: (['１', '１', '１'] ++ ['"']))) ss :=
    .escape (.decimal (.cons rfl (.cons rfl (.cons rfl .nil)))) rfl
      (.escape (.decimal (digits '１' (by decide))) (by decide) .close)
  have hlexeme : t.lexeme.toList =
      '"' :: '\\' :: (['0', '6', '5'] ++ '\\' :: (['１', '１', '１'] ++ ['"'])) := by cbv
  have hpieces : pieces t.lexeme.toList = .ok [.token .string t.lexeme.toList] := by
    rw [hlexeme]
    exact pieces_iff.mpr (.cons (nextPiece_token_iff.mpr ⟨by decide, by decide,
      lexemeExtent_iff.mpr (.string rfl (hss.body.extent 1)), rfl⟩) .nil)
  have h : tokenize "f" t.lexeme = .ok [t, ⟨.eof, "", ⟨"f", 10, 1, 11, 0⟩⟩] := by
    rw [tokenize_of_pieces hpieces, hlexeme]
    cbv
  obtain ⟨front, back, ss', -, htake, hsource, hss', htext⟩ :=
    unescape_tokenize h List.mem_cons_self rfl
  obtain rfl : back = [] := by
    have hlen := congrArg List.length hsource
    rw [List.length_append, List.length_append] at hlen
    exact List.eq_nil_of_length_eq_zero (by omega)
  rw [← (List.cons.inj (hlexeme.symm.trans htake)).2] at hss'
  obtain rfl : ss' = ss := hss.unique hss'
  obtain ⟨text, htext, hresult', hiff⟩ := htext fun ds code hmem => by simp [ss] at hmem
  refine ⟨h, hss, hcodes, text, htext, Option.some.inj (hresult'.symm.trans hresult), ?_⟩
  rw [Ne, hiff]
  exact fun hf => absurd (hf (.decimal "１１１".toList) (by simp [ss])) (by decide)

end HashIf
