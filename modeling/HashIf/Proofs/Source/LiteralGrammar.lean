import HashIf.Source.Lexeme.Quoted
import Mathlib.Data.List.Forall2
import Mathlib.Data.List.TakeWhile

/-! The grammar of string and character literals, and what keeps the text behind a quote from being
a string. Blanks behind a line continuation are characters of the string as well as any other. -/

namespace HashIf

abbrev Matches (classes : List (Char → Bool)) (cs : List Char) : Prop :=
  List.Forall₂ (fun p c => p c = true) classes cs

/-- What may follow a backslash in a string. -/
inductive Escape : List Char → Prop
  | simple (h : isSimpleEscape c = true) : Escape [c]
  | decimal (h : Matches [isDigit, isDigit, isDigit] ds) : Escape ds
  | hex (h : Matches [isHex, isHex] ds) : Escape ('x' :: ds)
  | octal (h : Matches octalClasses ds) : Escape ('o' :: ds)
  | unicode (hn : ds ≠ []) (h : ∀ d ∈ ds, isHex d = true) :
    Escape ('u' :: '\x7b' :: (ds ++ ['\x7d']))
  | lineFeed : Escape ['\n']
  | carriageReturn : Escape ['\r', '\n']

/-- The characters between the quotes of a string. -/
inductive StringBody : List Char → Prop
  | nil : StringBody []
  | plain (hn : c ≠ '\x00') (hq : c ≠ '"') (hb : c ≠ '\\') (h : StringBody cs) :
    StringBody (c :: cs)
  | escape (he : Escape e) (h : StringBody cs) : StringBody ('\\' :: (e ++ cs))

/-- What may follow a backslash in a character literal. -/
inductive CharacterEscape : List Char → Prop
  | simple (h : isSimpleEscape c = true) : CharacterEscape [c]
  | decimal (h : Matches [isDecimal, isDecimal, isDecimal] ds) : CharacterEscape ds
  | hex (h : Matches [isHex, isHex] ds) : CharacterEscape ('x' :: ds)
  | octal (h : Matches octalClasses ds) : CharacterEscape ('o' :: ds)

/-- A character literal with its quotes. -/
inductive CharacterLiteral : List Char → Prop
  | plain (hn : c ≠ '\x00') (hb : c ≠ '\\') (hq : c ≠ '\'') (hl : c ≠ '\n') :
    CharacterLiteral ['\'', c, '\'']
  | escape (h : CharacterEscape e) : CharacterLiteral ('\'' :: '\\' :: (e ++ ['\'']))

/-! ## Reading fixed classes -/

theorem of_firstOrNul {p : Char → Bool} (h : p (firstOrNul cs) = true) (h0 : p '\x00' = false) :
    ∃ c cs', cs = c :: cs' ∧ p c = true := by
  cases cs with
  | nil => rw [firstOrNul, List.headD_nil, h0] at h; cases h
  | cons c cs' => exact ⟨c, cs', rfl, h⟩

theorem of_firstOrNul_eq (h : (firstOrNul cs == d) = true) (hd : d ≠ '\x00') :
    ∃ cs', cs = d :: cs' := by
  have h0 : ('\x00' == d) = false := beq_eq_false_iff_ne.mpr hd.symm
  obtain ⟨c, cs', rfl, hc⟩ := of_firstOrNul (p := (· == d)) h h0
  exact ⟨cs', by rw [eq_of_beq hc]⟩

theorem matchClasses_ok {classes : List (Char → Bool)} {cs : List Char}
    (h : matchClasses classes cs = .ok ()) (h0 : ∀ p ∈ classes, p '\x00' = false) :
    ∃ ds rest, cs = ds ++ rest ∧ Matches classes ds := by
  induction classes generalizing cs with
  | nil => exact ⟨[], cs, rfl, .nil⟩
  | cons p ps ih =>
    obtain ⟨hp, hps⟩ := List.forall_mem_cons.mp h0
    rw [matchClasses] at h
    split at h
    · next hf =>
      obtain ⟨c, cs, rfl, hc⟩ := of_firstOrNul hf hp
      split at h
      · next hm =>
        obtain ⟨ds, rest, hd, hds⟩ := ih hm hps
        exact ⟨c :: ds, rest, congrArg (c :: ·) hd, .cons hc hds⟩
      · cases h
    · cases h

theorem fixedEscape_ok {lead : Nat} (h : fixedEscape lead classes cause cs = .ok k)
    (h0 : ∀ p ∈ classes, p '\x00' = false) :
    ∃ ds rest, cs.drop lead = ds ++ rest ∧ Matches classes ds ∧ k = lead + ds.length := by
  rw [fixedEscape] at h
  split at h
  · next hm =>
    cases h
    obtain ⟨ds, rest, hd, hds⟩ := matchClasses_ok hm h0
    exact ⟨ds, rest, hd, hds, by rw [hds.length_eq]⟩
  · cases h

theorem Matches.not_mem {classes : List (Char → Bool)} (h : Matches classes ds)
    (hc : ∀ p ∈ classes, p c = false) : c ∉ ds := by
  induction h with
  | nil => exact List.not_mem_nil
  | cons hd _ ih =>
    obtain ⟨hp, hps⟩ := List.forall_mem_cons.mp hc
    refine List.not_mem_cons_of_ne_of_not_mem ?_ (ih hps)
    rintro rfl
    cases hp.symm.trans hd

/-! ## Escapes in strings -/

theorem blanks_body {bs : List Char} (hb : ∀ b ∈ bs, isBlank b = true) (h : StringBody cs) :
    StringBody (bs ++ cs) := by
  induction bs with
  | nil => exact h
  | cons b bs ih =>
    obtain ⟨hb, hbs⟩ := List.forall_mem_cons.mp hb
    have hb : b = ' ' ∨ b = '\t' := by simpa [isBlank] using hb
    refine .plain ?_ ?_ ?_ (ih hbs) <;> rcases hb with rfl | rfl <;> decide

theorem blankExtent_spec (cs : List Char) :
    ∃ bs rest, cs = bs ++ rest ∧ (∀ b ∈ bs, isBlank b = true) ∧ blankExtent cs = bs.length :=
  ⟨cs.takeWhile isBlank, cs.dropWhile isBlank, List.takeWhile_append_dropWhile.symm,
    fun _ h => List.mem_takeWhile_imp h, rfl⟩

theorem unicodeEscape_ok (h : unicodeEscape cs = .ok k) :
    ∃ ds rest, cs = ds ++ '\x7d' :: rest ∧ ds ≠ [] ∧ (∀ d ∈ ds, isHex d = true) ∧
      k = ds.length + 1 := by
  have hcs : cs = cs.takeWhile isHex ++ cs.drop (cs.takeWhile isHex).length := by
    have h := List.takeWhile_append_dropWhile (p := isHex) (l := cs)
    have hd := congrArg (List.drop (cs.takeWhile isHex).length) h
    rw [List.drop_left] at hd
    rw [← hd, h]
  rw [unicodeEscape] at h
  split at h
  · cases h
  · next hn =>
    split at h
    · next hc =>
      cases h
      obtain ⟨rest, hd⟩ := of_firstOrNul_eq hc (by decide)
      refine ⟨cs.takeWhile isHex, rest, hd ▸ hcs, ?_, fun _ h => List.mem_takeWhile_imp h, rfl⟩
      exact fun h => hn (congrArg List.length h)
    · cases h

/-- What the scan of a string takes at once: a character, or an escape with its backslash and, if it
is a continuation, with the blanks behind the line end. -/
inductive Stretch
  | plain (c : Char)
  | simple (c : Char)
  | decimal (digits : List Char)
  | hex (digits : List Char)
  | octal (digits : List Char)
  | unicode (digits : List Char)
  | continuation (lineEnd blanks : List Char)
  deriving DecidableEq

def Stretch.chars : Stretch → List Char
  | plain c => [c]
  | simple c => ['\\', c]
  | decimal ds => '\\' :: ds
  | hex ds => '\\' :: 'x' :: ds
  | octal ds => '\\' :: 'o' :: ds
  | unicode ds => '\\' :: 'u' :: '\x7b' :: (ds ++ ['\x7d'])
  | continuation lineEnd bs => '\\' :: (lineEnd ++ bs)

/-- A stretch that is an escape of the grammar with the given characters behind its backslash. -/
inductive Stretch.IsEscape : Stretch → List Char → Prop
  | simple (h : isSimpleEscape c = true) : IsEscape (.simple c) [c]
  | decimal (h : Matches [isDigit, isDigit, isDigit] ds) : IsEscape (.decimal ds) ds
  | hex (h : Matches [isHex, isHex] ds) : IsEscape (.hex ds) ('x' :: ds)
  | octal (h : Matches octalClasses ds) : IsEscape (.octal ds) ('o' :: ds)
  | unicode (hn : ds ≠ []) (h : ∀ d ∈ ds, isHex d = true) :
    IsEscape (.unicode ds) ('u' :: '\x7b' :: (ds ++ ['\x7d']))
  | lineFeed (h : ∀ b ∈ bs, isBlank b = true) : IsEscape (.continuation ['\n'] bs) ('\n' :: bs)
  | carriageReturn (h : ∀ b ∈ bs, isBlank b = true) :
    IsEscape (.continuation ['\r', '\n'] bs) ('\r' :: '\n' :: bs)

theorem Stretch.IsEscape.chars_eq {s : Stretch} (h : s.IsEscape e) : s.chars = '\\' :: e := by
  cases h <;> rfl

/-- The stretch that an escape with the given characters behind its backslash is. -/
def Stretch.ofEscape : List Char → Stretch
  | [c] => if c = '\n' then .continuation ['\n'] [] else .simple c
  | 'x' :: ds => .hex ds
  | 'o' :: ds => .octal ds
  | 'u' :: '\x7b' :: ds => .unicode ds.dropLast
  | '\n' :: bs => .continuation ['\n'] bs
  | '\r' :: '\n' :: bs => .continuation ['\r', '\n'] bs
  | ds => .decimal ds

theorem Stretch.IsEscape.eq_ofEscape {s : Stretch} (h : s.IsEscape e) : s = .ofEscape e := by
  cases h with
  | @simple c h =>
    have hc : c ≠ '\n' := by
      rintro rfl
      cases h
    exact (if_neg hc).symm
  | decimal h =>
    obtain ⟨d, d', ds, rfl⟩ : ∃ d d' ds, e = d :: d' :: ds := by
      cases h with
      | cons _ h =>
        cases h
        exact ⟨_, _, _, rfl⟩
    have hd : isDigit d = true := (List.forall₂_cons.mp h).1
    -- No other escape begins with a digit.
    unfold ofEscape
    split
    case h_7 => rfl
    all_goals next heq => cases heq <;> cases hd
  | hex h | octal h =>
    obtain ⟨d, ds, rfl⟩ := List.exists_cons_of_length_eq_add_one h.length_eq.symm
    rfl
  | unicode =>
    rw [ofEscape, List.dropLast_concat]
  | @lineFeed bs => cases bs <;> rfl
  | carriageReturn => rfl

/-- What an escape takes is one stretch. -/
theorem escapeExtent_stretch (h : escapeExtent cs = .ok k) :
    ∃ s e rest, Stretch.IsEscape s e ∧ cs = e ++ rest ∧ k = e.length := by
  unfold escapeExtent at h
  dsimp only at h
  by_cases hs : isSimpleEscape (firstOrNul cs) = true
  · rw [if_pos hs] at h
    cases h
    obtain ⟨c, rest, rfl, hc⟩ := of_firstOrNul hs rfl
    exact ⟨_, [c], rest, .simple hc, rfl, rfl⟩
  rw [if_neg hs] at h
  by_cases hd : isDigit (firstOrNul cs) = true
  · rw [if_pos hd] at h
    obtain ⟨ds, rest, hd, hds, rfl⟩ := fixedEscape_ok h (by decide)
    exact ⟨_, ds, rest, .decimal hds, hd, Nat.zero_add _⟩
  rw [if_neg hd] at h
  split at h
  · obtain ⟨ds, rest, hd, hds, rfl⟩ := fixedEscape_ok h (by decide)
    exact ⟨_, 'x' :: ds, rest, .hex hds, congrArg ('x' :: ·) hd, Nat.add_comm _ _⟩
  · obtain ⟨ds, rest, hd, hds, rfl⟩ := fixedEscape_ok h (by decide)
    exact ⟨_, 'o' :: ds, rest, .octal hds, congrArg ('o' :: ·) hd, Nat.add_comm _ _⟩
  · split at h
    · next hu =>
      cases h
      obtain ⟨ds, rest, rfl, hn, hds, rfl⟩ := unicodeEscape_ok hu
      refine ⟨_, _, rest, .unicode hn hds, by simp, ?_⟩
      simp only [List.length_cons, List.length_append, List.length_nil]
      omega
    · cases h
  · next cs =>
    cases h
    obtain ⟨bs, rest, rfl, hb, hk⟩ := blankExtent_spec cs
    exact ⟨_, _, rest, .lineFeed hb, rfl, by rw [hk, List.length_cons, Nat.add_comm]⟩
  · next cs =>
    cases h
    obtain ⟨bs, rest, rfl, hb, hk⟩ := blankExtent_spec cs
    refine ⟨_, _, rest, .carriageReturn hb, rfl, ?_⟩
    rw [hk, List.length_cons, List.length_cons]
    omega
  · cases h

/-- A stretch is an escape of the grammar, and a continuation has blanks behind it. -/
theorem Stretch.IsEscape.escape {s : Stretch} (h : s.IsEscape e) :
    ∃ e' bs, e = e' ++ bs ∧ Escape e' ∧ ∀ b ∈ bs, isBlank b = true := by
  have alone (he : Escape e) :
      ∃ e' bs, e = e' ++ bs ∧ Escape e' ∧ ∀ b ∈ bs, isBlank b = true :=
    ⟨e, [], (List.append_nil e).symm, he, by simp⟩
  cases h with
  | simple h => exact alone (.simple h)
  | decimal h => exact alone (.decimal h)
  | hex h => exact alone (.hex h)
  | octal h => exact alone (.octal h)
  | unicode hn h => exact alone (.unicode hn h)
  | @lineFeed bs h => exact ⟨['\n'], bs, rfl, .lineFeed, h⟩
  | @carriageReturn bs h => exact ⟨['\r', '\n'], bs, rfl, .carriageReturn, h⟩

/-! ## Strings -/

/-- The stretches that the scan of a string takes from a text, in front of `back` with a quote that
closes the string. -/
inductive Scans (back : List Char) : List Char → List Stretch → Prop
  | close : Scans back ('"' :: back) []
  | plain (hn : c ≠ '\x00') (hq : c ≠ '"') (hb : c ≠ '\\') (h : Scans back cs ss) :
    Scans back (c :: cs) (.plain c :: ss)
  | escape (hs : Stretch.IsEscape s e) (hx : escapeExtent (e ++ cs) = .ok e.length)
    (h : Scans back cs ss) : Scans back ('\\' :: (e ++ cs)) (s :: ss)

theorem Scans.eq_append (h : Scans back cs ss) : cs = ss.flatMap Stretch.chars ++ '"' :: back := by
  induction h with
  | close => rfl
  | plain _ _ _ _ ih => rw [ih]; rfl
  | escape hs _ _ ih => rw [ih, List.flatMap_cons, hs.chars_eq, List.append_assoc]; rfl

/-- A text is scanned in one way. -/
theorem Scans.unique (h : Scans back cs ss) (h' : Scans back' cs ss') : ss' = ss := by
  induction h generalizing ss' with
  | close =>
    generalize hcs : '"' :: back = cs at h'
    cases h' with
    | close => rfl
    | plain _ hq => exact absurd (List.cons.inj hcs).1.symm hq
    | escape => exact absurd (List.cons.inj hcs).1 (by decide)
  | @plain c cs ss _ hq hb _ ih =>
    generalize hcs : c :: cs = text at h'
    cases h' with
    | close => exact absurd (List.cons.inj hcs).1 hq
    | plain _ _ _ h' =>
      cases hcs
      rw [ih h']
    | escape => exact absurd (List.cons.inj hcs).1 hb
  | @escape s e cs ss hs hx _ ih =>
    generalize hcs : '\\' :: (e ++ cs) = text at h'
    cases h' with
    | close => exact absurd (List.cons.inj hcs).1 (by decide)
    | plain _ _ hb => exact absurd (List.cons.inj hcs).1.symm hb
    | escape hs' hx' h' =>
      have htext := (List.cons.inj hcs).2
      rw [htext] at hx
      obtain ⟨rfl, rfl⟩ := List.append_inj htext (Except.ok.inj (hx.symm.trans hx'))
      rw [ih h', hs.eq_ofEscape, hs'.eq_ofEscape]

theorem stringFrom_scans {n k : Nat} (h : stringFrom n cs = .ok k) :
    ∃ back ss, Scans back cs ss ∧ k = n + (ss.flatMap Stretch.chars).length := by
  fun_induction stringFrom n cs with
  | case1 | case2 | case5 => cases h
  | case3 n cs =>
    cases h
    exact ⟨cs, [], .close, rfl⟩
  | case4 n cs k' hx _ _ ih =>
    obtain ⟨s, e, rest, hs, rfl, rfl⟩ := escapeExtent_stretch hx
    rw [List.drop_left] at ih h
    obtain ⟨back, ss, hss, rfl⟩ := ih h
    refine ⟨back, s :: ss, .escape hs hx hss, ?_⟩
    rw [List.flatMap_cons, List.length_append, hs.chars_eq, List.length_cons]
    omega
  | case6 n c cs hn hq hb ih =>
    obtain ⟨back, ss, hss, rfl⟩ := ih h
    refine ⟨back, .plain c :: ss, .plain hn hq hb hss, ?_⟩
    rw [List.flatMap_cons, List.length_append, Stretch.chars, List.length_singleton]
    omega

theorem Scans.body (h : Scans back cs ss) : StringBody (ss.flatMap Stretch.chars) := by
  induction h with
  | close => exact .nil
  | plain hn hq hb _ ih => exact .plain hn hq hb ih
  | escape hs _ _ ih =>
    obtain ⟨e, bs, rfl, he, hbs⟩ := hs.escape
    rw [List.flatMap_cons, hs.chars_eq, List.cons_append, List.append_assoc]
    exact .escape he (blanks_body hbs ih)

/-- What the scan of a string takes is a string of the grammar and a quote. -/
theorem stringFrom_ok {n k : Nat} (h : stringFrom n cs = .ok k) :
    ∃ body rest, cs = body ++ '"' :: rest ∧ StringBody body ∧ k = n + body.length := by
  obtain ⟨back, ss, hss, hk⟩ := stringFrom_scans h
  exact ⟨_, back, hss.eq_append, hss.body, hk⟩

/-! ## Strings of the grammar -/

theorem Matches.matchClasses {classes : List (Char → Bool)} (h : Matches classes ds) :
    HashIf.matchClasses classes (ds ++ rest) = .ok () := by
  induction h with
  | nil => rfl
  | cons hc _ ih =>
    simp only [List.cons_append, HashIf.matchClasses, firstOrNul, List.headD_cons,
      List.drop_succ_cons, List.drop_zero, hc, ih, if_true]

theorem Matches.fixedEscape {lead : Nat} (h : Matches classes ds)
    (hcs : cs.drop lead = ds ++ rest) :
    HashIf.fixedEscape lead classes cause cs = .ok (lead + ds.length) := by
  rw [HashIf.fixedEscape, hcs, h.matchClasses, h.length_eq]

theorem not_simple_of_isDigit (h : isDigit c = true) : isSimpleEscape c = false := by
  rw [← Bool.not_eq_true]
  intro hs
  simp only [isSimpleEscape, Bool.or_eq_true, beq_iff_eq] at hs
  rcases hs with ((((((rfl | rfl) | rfl) | rfl) | rfl) | rfl) | rfl) | rfl <;> revert h <;> decide

theorem unicodeEscape_digits (hn : ds ≠ []) (h : ∀ d ∈ ds, isHex d = true) :
    unicodeEscape (ds ++ '\x7d' :: rest) = .ok (ds.length + 1) := by
  have ht : (ds ++ '\x7d' :: rest).takeWhile isHex = ds := by
    rw [List.takeWhile_append_of_pos h, List.takeWhile_cons_of_neg (by decide), List.append_nil]
  have hl : ds.length ≠ 0 := fun hl => hn (List.eq_nil_of_length_eq_zero hl)
  have hc : (firstOrNul ('\x7d' :: rest) == '\x7d') = true := rfl
  simp only [unicodeEscape, ht, if_neg hl, List.drop_left, if_pos hc]

/-- An escape is taken for one, and along with a continuation the blanks behind it. -/
theorem Escape.extent (h : Escape e) : ∃ j, escapeExtent (e ++ rest) = .ok (e.length + j) ∧
    (j = 0 ∨ j = blankExtent rest) := by
  cases h with
  | simple h => exact ⟨0, if_pos h, .inl rfl⟩
  | decimal h =>
    have hf : fixedEscape 0 [isDigit, isDigit, isDigit] .decimalEscape (e ++ rest) =
        .ok (0 + e.length) := h.fixedEscape rfl
    rw [Nat.zero_add] at hf
    cases h with
    | @cons _ d _ ds hd ht =>
      have hd' : isDigit (firstOrNul (d :: ds ++ rest)) = true := hd
      have hs : ¬isSimpleEscape (firstOrNul (d :: ds ++ rest)) = true := by
        rw [not_simple_of_isDigit hd']
        decide
      exact ⟨0, (if_neg hs).trans ((if_pos hd').trans hf), .inl rfl⟩
  | @hex ds h =>
    refine ⟨0, ?_, .inl rfl⟩
    rw [List.length_cons, Nat.add_zero, Nat.add_comm]
    exact h.fixedEscape rfl
  | @octal ds h =>
    refine ⟨0, ?_, .inl rfl⟩
    rw [List.length_cons, Nat.add_zero, Nat.add_comm]
    exact h.fixedEscape rfl
  | @unicode ds hn h =>
    refine ⟨0, ?_, .inl rfl⟩
    have hu : unicodeEscape (ds ++ ['\x7d'] ++ rest) = .ok (ds.length + 1) := by
      rw [List.append_assoc]
      exact unicodeEscape_digits hn h
    unfold escapeExtent
    dsimp only [List.cons_append, firstOrNul, List.headD_cons]
    rw [if_neg (by decide), if_neg (by decide)]
    simp only [hu, List.length_cons, List.length_append, List.length_nil]
    congr 1
    omega
  | lineFeed => exact ⟨blankExtent rest, rfl, .inr rfl⟩
  | carriageReturn => exact ⟨blankExtent rest, rfl, .inr rfl⟩

theorem stringFrom_blanks (n : Nat) {bs : List Char} (h : ∀ b ∈ bs, isBlank b = true) :
    stringFrom n (bs ++ rest) = stringFrom (n + bs.length) rest := by
  induction bs generalizing n with
  | nil => rfl
  | cons b bs ih =>
    obtain ⟨hb, hbs⟩ := List.forall_mem_cons.mp h
    have hb : b = ' ' ∨ b = '\t' := by simpa [isBlank] using hb
    have hn : b ≠ '\x00' ∧ b ≠ '"' ∧ b ≠ '\\' := by rcases hb with rfl | rfl <;> decide
    rw [List.cons_append, stringFrom, if_neg hn.1, if_neg hn.2.1, if_neg hn.2.2, ih _ hbs,
      List.length_cons]
    congr 1
    omega

/-- Behind an escape the scan goes on, over the blanks behind a continuation as over any others. -/
theorem Escape.stringFrom (n : Nat) (h : Escape e) :
    stringFrom n ('\\' :: (e ++ rest)) = stringFrom (n + 1 + e.length) rest := by
  obtain ⟨j, he, hj⟩ : ∃ j, escapeExtent (e ++ rest) = .ok (e.length + j) ∧
      (j = 0 ∨ j = blankExtent rest) := h.extent
  rw [HashIf.stringFrom, if_neg (by decide), if_neg (by decide), if_pos rfl, he]
  have hd : (e ++ rest).drop (e.length + j) = rest.drop j := by
    rw [← List.drop_drop, List.drop_left]
  show HashIf.stringFrom (n + 1 + (e.length + j)) _ = _
  rw [hd, ← Nat.add_assoc]
  rcases hj with rfl | rfl
  · rfl
  · obtain ⟨bs, rest, rfl, hb, hk⟩ := blankExtent_spec rest
    rw [hk, List.drop_left, stringFrom_blanks _ hb]

/-- The scan goes on behind what can be the body of a string, whether a quote closes it or not. -/
theorem StringBody.stringFrom (h : StringBody body) (n : Nat) :
    stringFrom n (body ++ rest) = stringFrom (n + body.length) rest := by
  induction h generalizing n with
  | nil => rfl
  | plain hn hq hb _ ih =>
    rw [List.cons_append, HashIf.stringFrom, if_neg hn, if_neg hq, if_neg hb, ih, List.length_cons]
    congr 1
    omega
  | @escape e cs he _ ih =>
    rw [List.cons_append, List.append_assoc, he.stringFrom, ih]
    simp only [List.length_cons, List.length_append]
    congr 1
    omega

/-- A string of the grammar is taken for one, whatever follows it. -/
theorem StringBody.extent (h : StringBody body) (n : Nat) :
    HashIf.stringFrom n (body ++ '"' :: rest) = .ok (n + body.length) := by
  rw [h.stringFrom, HashIf.stringFrom, if_neg (by decide), if_pos rfl]

/-! ## Strings that do not close -/

/-- What is read as the end of a text: nothing, or a NUL. -/
inductive TextEnds : List Char → Prop
  | nil : TextEnds []
  | nul : TextEnds ('\x00' :: cs)

/-- The fault of a text behind the opening quote of a string: the text ends within the string, or a
backslash begins no escape. -/
inductive StringFault : List Char → Fault → Prop
  | unterminated (hb : StringBody body) (he : TextEnds rest) :
    StringFault (body ++ rest) ⟨0, 1 + body.length, .openString⟩
  | malformed (hb : StringBody body) (hn : ∀ e, Escape e → ¬e <+: cs)
    (hf : escapeExtent cs = .error f) :
    StringFault (body ++ '\\' :: cs) (f.shift (1 + body.length + 1))

theorem Escape.not_error (h : Escape e) (hp : e <+: cs) : escapeExtent cs ≠ .error f := by
  obtain ⟨rest, rfl⟩ := hp
  obtain ⟨k, hk, -⟩ : ∃ k, escapeExtent (e ++ rest) = .ok (e.length + k) ∧
      (k = 0 ∨ k = blankExtent rest) := h.extent
  rw [hk]
  exact nofun

/-- A text begins with the body of a string, up to a quote, to its end or to a backslash that begins
no escape. -/
theorem exists_stringBody (cs : List Char) : ∃ body rest, cs = body ++ rest ∧ StringBody body ∧
    (TextEnds rest ∨ (∃ back, rest = '"' :: back) ∨
      ∃ tail f, rest = '\\' :: tail ∧ escapeExtent tail = .error f) := by
  induction 0, cs using stringFrom.induct with
  | case1 => exact ⟨[], [], rfl, .nil, .inl .nil⟩
  | case2 _ cs => exact ⟨[], _, rfl, .nil, .inl .nul⟩
  | case3 => exact ⟨[], _, rfl, .nil, .inr (.inl ⟨_, rfl⟩)⟩
  | case4 _ cs k hx _ _ ih =>
    obtain ⟨s, e, back, hs, rfl, rfl⟩ := escapeExtent_stretch hx
    rw [List.drop_left] at ih
    obtain ⟨body, rest, rfl, hb, hstop⟩ := ih
    obtain ⟨e, bs, rfl, he, hbs⟩ := hs.escape
    exact ⟨'\\' :: (e ++ (bs ++ body)), rest, by simp, .escape he (blanks_body hbs hb), hstop⟩
  | case5 _ cs f hx => exact ⟨[], _, rfl, .nil, .inr (.inr ⟨cs, f, rfl, hx⟩)⟩
  | case6 _ c cs hn hq hb ih =>
    obtain ⟨body, rest, rfl, hbody, hstop⟩ := ih
    exact ⟨c :: body, rest, rfl, .plain hn hq hb hbody, hstop⟩

theorem TextEnds.stringFrom (h : TextEnds rest) (n : Nat) :
    stringFrom n rest = .error ⟨0, n, .openString⟩ := by
  cases h with
  | nil => rw [HashIf.stringFrom]
  | nul => rw [HashIf.stringFrom, if_pos rfl]

theorem stringFrom_malformed (n : Nat) (h : escapeExtent cs = .error f) :
    stringFrom n ('\\' :: cs) = .error (f.shift (n + 1)) := by
  rw [stringFrom, if_neg (by decide), if_neg (by decide), if_pos rfl, h]

theorem stringExtent_error_iff : stringExtent cs = .error f ↔ StringFault cs f := by
  constructor
  · intro h
    obtain ⟨body, rest, rfl, hb, hstop⟩ := exists_stringBody cs
    rw [stringExtent, hb.stringFrom] at h
    rcases hstop with he | ⟨back, rfl⟩ | ⟨tail, g, rfl, hg⟩
    · rw [he.stringFrom] at h
      cases h
      exact .unterminated hb he
    · rw [stringFrom, if_neg (by decide), if_pos rfl] at h
      cases h
    · rw [stringFrom_malformed _ hg] at h
      cases h
      exact .malformed hb (fun e he hp => he.not_error hp hg) hg
  · intro h
    cases h with
    | unterminated hb he => rw [stringExtent, hb.stringFrom, he.stringFrom]
    | malformed hb _ hf => rw [stringExtent, hb.stringFrom, stringFrom_malformed _ hf]

/-! ## Character literals -/

theorem not_simple_of_isDecimal (h : isDecimal c = true) : isSimpleEscape c = false := by
  rw [← Bool.not_eq_true]
  intro hs
  simp only [isSimpleEscape, Bool.or_eq_true, beq_iff_eq] at hs
  rcases hs with ((((((rfl | rfl) | rfl) | rfl) | rfl) | rfl) | rfl) | rfl <;> revert h <;> decide

/-- Escapes with a fixed number of digits are the ones of strings, without their faults. -/
theorem characterEscape?_fixedEscape (cs : List Char) : characterEscape? cs =
    if isSimpleEscape (firstOrNul cs) then some 1
    else if isDecimal (firstOrNul cs) then
      (fixedEscape 0 [isDecimal, isDecimal, isDecimal] .decimalEscape cs).toOption
    else if firstOrNul cs == 'x' then (fixedEscape 1 [isHex, isHex] .hexEscape cs).toOption
    else if firstOrNul cs == 'o' then (fixedEscape 1 octalClasses .octalEscape cs).toOption
    else none := by
  dsimp only [characterEscape?, fixedEscape]
  cases matchClasses [isDecimal, isDecimal, isDecimal] (cs.drop 0) <;>
    cases matchClasses [isHex, isHex] (cs.drop 1) <;>
    cases matchClasses octalClasses (cs.drop 1) <;> rfl

theorem ok_of_toOption {r : Except ε α} (h : r.toOption = some a) : r = .ok a := by
  cases r with
  | error e => cases h
  | ok b => cases h; rfl

theorem characterEscape?_eq (h : characterEscape? cs = some k) :
    ∃ e rest, cs = e ++ rest ∧ CharacterEscape e ∧ k = e.length := by
  rw [characterEscape?_fixedEscape] at h
  split at h
  · next hs =>
    cases h
    obtain ⟨c, rest, rfl, hc⟩ := of_firstOrNul hs rfl
    exact ⟨[c], rest, rfl, .simple hc, rfl⟩
  split at h
  · obtain ⟨ds, rest, hd, hds, rfl⟩ := fixedEscape_ok (ok_of_toOption h) (by decide)
    exact ⟨ds, rest, hd, .decimal hds, Nat.zero_add _⟩
  split at h
  · next hx =>
    obtain ⟨ds, rest, hd, hds, rfl⟩ := fixedEscape_ok (ok_of_toOption h) (by decide)
    obtain ⟨cs', rfl⟩ := of_firstOrNul_eq hx (by decide)
    exact ⟨'x' :: ds, rest, congrArg ('x' :: ·) hd, .hex hds, Nat.add_comm _ _⟩
  split at h
  · next ho =>
    obtain ⟨ds, rest, hd, hds, rfl⟩ := fixedEscape_ok (ok_of_toOption h) (by decide)
    obtain ⟨cs', rfl⟩ := of_firstOrNul_eq ho (by decide)
    exact ⟨'o' :: ds, rest, congrArg ('o' :: ·) hd, .octal hds, Nat.add_comm _ _⟩
  · cases h

theorem CharacterEscape.extent (h : CharacterEscape e) :
    characterEscape? (e ++ rest) = some e.length := by
  cases h with
  | simple h => exact if_pos h
  | decimal h =>
    have hm : matchClasses [isDecimal, isDecimal, isDecimal] (e ++ rest) = .ok () := h.matchClasses
    cases h with
    | @cons _ c _ ds hc ht =>
      have hs : isSimpleEscape (firstOrNul (c :: ds ++ rest)) = false := not_simple_of_isDecimal hc
      have hd : isDecimal (firstOrNul (c :: ds ++ rest)) = true := hc
      simp only [characterEscape?, hs, hd, List.drop_zero, hm, List.length_cons, ht.length_eq]
      simp
  | @hex ds h =>
    have hm : matchClasses [isHex, isHex] (ds ++ rest) = .ok () := h.matchClasses
    have hx : firstOrNul ('x' :: ds ++ rest) = 'x' := rfl
    have hd : ('x' :: ds ++ rest).drop 1 = ds ++ rest := rfl
    simp only [characterEscape?, hx, hd, hm, List.length_cons, ← h.length_eq]
    rw [if_neg (by decide), if_neg (by decide), if_pos (by decide)]
    rfl
  | @octal ds h =>
    have hm : matchClasses octalClasses (ds ++ rest) = .ok () := h.matchClasses
    have hx : firstOrNul ('o' :: ds ++ rest) = 'o' := rfl
    have hd : ('o' :: ds ++ rest).drop 1 = ds ++ rest := rfl
    simp only [characterEscape?, hx, hd, hm, List.length_cons, ← h.length_eq]
    rw [if_neg (by decide), if_neg (by decide), if_neg (by decide), if_pos (by decide)]
    exact congrArg some (Nat.add_comm _ _)

/-- What is taken for a character literal is one, unless a NUL is in the way. -/
theorem characterExtent?_eq (h : characterExtent? cs = some k) (hk : k ≠ 0) :
    ∃ e rest, cs = e ++ rest ∧ CharacterLiteral ('\'' :: e) ∧ k = e.length := by
  unfold characterExtent? at h
  split at h
  · cases h
  · next c cs =>
    split at h
    · next hb =>
      subst hb
      split at h
      · next k' he =>
        split at h
        · next hq =>
          cases h
          obtain ⟨e, rest, rfl, hesc, rfl⟩ := characterEscape?_eq he
          rw [List.drop_left] at hq
          obtain ⟨rest, rfl⟩ := of_firstOrNul_eq hq (by decide)
          exact ⟨'\\' :: (e ++ ['\'']), rest, by simp, .escape hesc, by simp⟩
        · cases h
      · cases h
    · next hb =>
      split at h
      · cases h
      · next hc =>
        split at h
        · next hq =>
          obtain ⟨rest, rfl⟩ := of_firstOrNul_eq hq (by decide)
          split at h
          · cases h; exact (hk rfl).elim
          · next hn =>
            cases h
            simp only [Bool.or_eq_true, decide_eq_true_eq, not_or] at hc
            exact ⟨[c, '\''], rest, rfl, .plain hn hb hc.1 hc.2, rfl⟩
        · cases h

theorem characterExtent?_zero (h : characterExtent? cs = some 0) : ∃ cs', cs = '\x00' :: cs' := by
  unfold characterExtent? at h
  split at h
  · cases h
  · next c cs =>
    split at h
    · split at h
      · split at h <;> cases h
      · cases h
    · split at h
      · cases h
      · split at h
        · split at h
          · next hn => exact ⟨cs, by rw [hn]⟩
          · cases h
        · cases h

/-- A character literal is taken for one, whatever follows it. -/
theorem CharacterLiteral.extent (h : CharacterLiteral ('\'' :: e)) :
    characterExtent? (e ++ rest) = some e.length := by
  cases h with
  | plain hn hb hq hl =>
    simp [characterExtent?, firstOrNul, hn, hb, hq, hl]
  | @escape e h =>
    have he : characterEscape? (e ++ '\'' :: rest) = some e.length := h.extent
    simp [characterExtent?, firstOrNul, he]

end HashIf
