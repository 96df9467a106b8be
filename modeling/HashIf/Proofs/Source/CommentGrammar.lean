import HashIf.Proofs.Source.LiteralGrammar
import HashIf.Source.Comment

/-! The grammar of comments.

    comment := '(*' item* '*)'
    item    := comment | string | character | other

Any other character is an item by itself if no comment mark and no literal begins with it. A
comment that does not close is read by the same rules, up to the end of the text, a NUL or a string
that does not close. -/

namespace HashIf

/-- The characters between the outer marks of a comment. -/
inductive CommentBody : List Char → Prop
  | nil : CommentBody []
  | comment (h : CommentBody cs) (hr : CommentBody rest) :
    CommentBody ('(' :: '*' :: (cs ++ '*' :: ')' :: rest))
  | string (h : StringBody cs) (hr : CommentBody rest) :
    CommentBody ('"' :: (cs ++ '"' :: rest))
  | character (h : CharacterLiteral cs) (hr : CommentBody rest) : CommentBody (cs ++ rest)
  | other (hn : c ≠ '\x00') (hq : c ≠ '"')
    (ho : c = '(' → (rest ++ ['*', ')']).head? ≠ some '*')
    (hc : c = '*' → (rest ++ ['*', ')']).head? ≠ some ')')
    (hl : ∀ cs more, CharacterLiteral cs → c :: (rest ++ ['*', ')']) ≠ cs ++ more)
    (hr : CommentBody rest) : CommentBody (c :: rest)

/-- A comment, in which others may be nested. -/
inductive Comment : List Char → Prop
  | mk (h : CommentBody cs) : Comment ('(' :: '*' :: (cs ++ ['*', ')']))

/-! ## Items -/

/-- Items of a comment in front of what follows them in the text. -/
inductive CommentItems : (rest cs : List Char) → Prop
  | nil : CommentItems rest []
  | comment (h : CommentItems ('*' :: ')' :: (cs ++ rest)) body) (hr : CommentItems rest cs) :
    CommentItems rest ('(' :: '*' :: (body ++ '*' :: ')' :: cs))
  | string (h : StringBody body) (hr : CommentItems rest cs) :
    CommentItems rest ('"' :: (body ++ '"' :: cs))
  | character (h : CharacterLiteral literal) (hr : CommentItems rest cs) :
    CommentItems rest (literal ++ cs)
  | other (hn : c ≠ '\x00') (hq : c ≠ '"') (ho : c = '(' → (cs ++ rest).head? ≠ some '*')
    (hc : c = '*' → (cs ++ rest).head? ≠ some ')')
    (hl : ∀ literal, CharacterLiteral literal → ¬literal <+: c :: (cs ++ rest))
    (hr : CommentItems rest cs) : CommentItems rest (c :: cs)

theorem CommentItems.append (h : CommentItems (ds ++ rest) cs) (hr : CommentItems rest ds) :
    CommentItems rest (cs ++ ds) := by
  generalize hback : ds ++ rest = back at h
  induction h with
  | nil => exact hr
  | @comment _ cs body h _ _ ih =>
    subst hback
    simpa using CommentItems.comment (by simpa using h) (ih rfl)
  | string h _ ih =>
    subst hback
    simpa using CommentItems.string h (ih rfl)
  | character h _ ih =>
    subst hback
    simpa using CommentItems.character h (ih rfl)
  | other hn hq ho hc hl _ ih =>
    subst hback
    exact .other hn hq (by simpa using ho) (by simpa using hc) (by simpa using hl) (ih rfl)

/-! ## The scan over items -/

theorem of_marks {c m d : Char} (h : (decide (c = m) && firstOrNul cs == d) = true)
    (hd : d ≠ '\x00') : c = m ∧ ∃ cs', cs = d :: cs' := by
  obtain ⟨hc, hf⟩ := Bool.and_eq_true_iff.mp h
  exact ⟨of_decide_eq_true hc, of_firstOrNul_eq hf hd⟩

theorem commentFrom_opening (depth n : Nat) (cs : List Char) :
    commentFrom depth n ('(' :: '*' :: cs) = commentFrom (depth + 1) (n + 2) cs := by
  rw [commentFrom.eq_def]
  exact (if_neg (by decide)).trans (if_pos rfl)

theorem commentFrom_closing (depth n : Nat) (cs : List Char) :
    commentFrom (depth + 1) n ('*' :: ')' :: cs) = commentFrom depth (n + 2) cs := by
  rw [commentFrom.eq_def]
  exact (if_neg (by decide)).trans ((if_neg nofun).trans (if_pos rfl))

theorem commentFrom_last (n : Nat) (cs : List Char) :
    commentFrom 0 n ('*' :: ')' :: cs) = .ok (n + 2) := by
  rw [commentFrom.eq_def]
  exact (if_neg (by decide)).trans ((if_neg nofun).trans (if_pos rfl))

theorem commentFrom_quote (depth n : Nat) (cs : List Char) :
    commentFrom depth n ('"' :: cs) = match stringExtent cs with
      | .ok k => commentFrom depth (n + 1 + k) (cs.drop k)
      | .error f => .error (f.shift n) := by
  rw [commentFrom.eq_def]
  exact (if_neg (by decide)).trans ((if_neg nofun).trans ((if_neg nofun).trans (if_pos rfl)))

theorem commentFrom_single (depth n : Nat) (cs : List Char) :
    commentFrom depth n ('\'' :: cs) = match characterExtent? cs with
      | some k => commentFrom depth (n + 1 + k) (cs.drop k)
      | none => commentFrom depth (n + 1) cs := by
  rw [commentFrom.eq_def]
  exact (if_neg (by decide)).trans
    ((if_neg nofun).trans ((if_neg nofun).trans ((if_neg (by decide)).trans (if_pos rfl))))

theorem CharacterLiteral.eq_cons (h : CharacterLiteral literal) : ∃ e, literal = '\'' :: e := by
  cases h <;> exact ⟨_, rfl⟩

theorem not_mark {c m d : Char} (h : c = m → cs.head? ≠ some d) (hd : d ≠ '\x00') :
    ¬(decide (c = m) && firstOrNul cs == d) = true := by
  intro hm
  obtain ⟨rfl, cs, rfl⟩ := of_marks hm hd
  exact h rfl rfl

/-- A character that begins no other item is passed over. -/
theorem commentFrom_other (depth n : Nat) (hn : c ≠ '\x00') (hq : c ≠ '"')
    (ho : c = '(' → cs.head? ≠ some '*') (hc : c = '*' → cs.head? ≠ some ')')
    (hl : ∀ literal, CharacterLiteral literal → ¬literal <+: c :: cs) :
    commentFrom depth n (c :: cs) = commentFrom depth (n + 1) cs := by
  by_cases hs : c = '\''
  · subst hs
    rw [commentFrom_single]
    cases he : characterExtent? cs with
    | none => rfl
    | some k =>
      have hk : k = 0 := by
        by_contra hk
        obtain ⟨e, rest, rfl, hlit, -⟩ := characterExtent?_eq he hk
        exact hl _ hlit ⟨rest, rfl⟩
      subst hk
      rfl
  · rw [commentFrom.eq_def]
    simp only [if_neg hn, if_neg (not_mark ho (by decide)), if_neg (not_mark hc (by decide)),
      if_neg hq, if_neg hs]

/-- The scan goes over items as far as they go. -/
theorem CommentItems.commentFrom (h : CommentItems rest cs) (depth n : Nat) :
    commentFrom depth n (cs ++ rest) = commentFrom depth (n + cs.length) rest := by
  induction h generalizing depth n with
  | nil => rfl
  | @comment cs _ body _ _ ihb ih =>
    have hl : n + 2 + body.length + 2 + cs.length =
        n + ('(' :: '*' :: (body ++ '*' :: ')' :: cs)).length := by
      simp only [List.length_cons, List.length_append]
      omega
    rw [List.cons_append, List.cons_append, commentFrom_opening, List.append_assoc,
      List.cons_append, List.cons_append, ihb, commentFrom_closing, ih, hl]
  | @string body rest cs h _ ih =>
    have hx : stringExtent (body ++ '"' :: (cs ++ rest)) = .ok (1 + body.length) := h.extent 1
    have hd : (body ++ '"' :: (cs ++ rest)).drop (1 + body.length) = cs ++ rest := by
      rw [Nat.add_comm, ← List.drop_drop, List.drop_left]
      rfl
    rw [List.cons_append, List.append_assoc, List.cons_append, commentFrom_quote, hx]
    dsimp only
    rw [hd, ih]
    congr 1
    simp only [List.length_cons, List.length_append]
    omega
  | @character literal _ cs h _ ih =>
    obtain ⟨e, rfl⟩ := h.eq_cons
    rw [List.append_assoc, List.cons_append, commentFrom_single, h.extent]
    dsimp only
    rw [List.drop_left, ih]
    congr 1
    simp only [List.length_cons, List.length_append]
    omega
  | other hn hq ho hc hl _ ih =>
    rw [List.cons_append, commentFrom_other _ _ hn hq ho hc hl, ih, List.length_cons]
    congr 1
    omega

/-! ## Comments that do not close -/

/-- What is read of a comment behind its opening mark where no mark closes it: items, and perhaps
another comment that does not close. -/
inductive OpenBody (rest : List Char) : (cs : List Char) → Prop
  | items (h : CommentItems rest cs) : OpenBody rest cs
  | within (h : CommentItems ('(' :: '*' :: (nested ++ rest)) cs) (hi : OpenBody rest nested) :
    OpenBody rest (cs ++ '(' :: '*' :: nested)

/-- What can follow what is read of a comment that does not close. -/
inductive CommentStop : List Char → Prop
  | ends (h : TextEnds rest) : CommentStop rest
  | string (h : StringFault literal f) : CommentStop ('"' :: literal)

theorem OpenBody.append (h : CommentItems (ds ++ rest) cs) (ho : OpenBody rest ds) :
    OpenBody rest (cs ++ ds) := by
  cases ho with
  | items ho => exact .items (h.append ho)
  | @within nested ds ho hi =>
    rw [← List.append_assoc]
    exact .within (.append (by simpa using h) ho) hi

theorem OpenBody.commentFrom (h : OpenBody rest cs) (depth n : Nat) :
    ∃ depth', commentFrom depth n (cs ++ rest) = commentFrom depth' (n + cs.length) rest := by
  induction h generalizing depth n with
  | items h => exact ⟨depth, h.commentFrom depth n⟩
  | @within nested cs h _ ih =>
    obtain ⟨depth', hd⟩ := ih (depth + 1) (n + cs.length + 2)
    refine ⟨depth', ?_⟩
    rw [List.append_assoc, List.cons_append, List.cons_append, h.commentFrom,
      commentFrom_opening, hd]
    congr 1
    simp only [List.length_append, List.length_cons]
    omega

theorem TextEnds.commentFrom (h : TextEnds rest) (depth n : Nat) :
    commentFrom depth n rest = .error ⟨0, n, .openComment⟩ := by
  cases h with
  | nil => rw [HashIf.commentFrom]
  | nul =>
    rw [HashIf.commentFrom.eq_def]
    exact if_pos rfl

theorem StringFault.commentFrom (h : StringFault literal f) (depth n : Nat) :
    commentFrom depth n ('"' :: literal) = .error (f.shift n) := by
  rw [commentFrom_quote, stringExtent_error_iff.mpr h]

theorem OpenBody.unterminated (h : OpenBody rest cs) (he : TextEnds rest) (depth n : Nat) :
    HashIf.commentFrom depth n (cs ++ rest) = .error ⟨0, n + cs.length, .openComment⟩ := by
  obtain ⟨depth', hd⟩ := h.commentFrom depth n
  rw [hd, he.commentFrom]

theorem OpenBody.string (h : OpenBody ('"' :: literal) cs) (hs : StringFault literal f)
    (depth n : Nat) :
    HashIf.commentFrom depth n (cs ++ '"' :: literal) = .error (f.shift (n + cs.length)) := by
  obtain ⟨depth', hd⟩ := h.commentFrom depth n
  rw [hd, hs.commentFrom]

/-! ## Readings -/

/-- What a text begins with in a comment: a mark, items that are no comment, or what stops it. -/
inductive CommentStep : List Char → Prop
  | closing : CommentStep ('*' :: ')' :: back)
  | opening : CommentStep ('(' :: '*' :: nested)
  | stop (h : CommentStop text) : CommentStep text
  | items (h : CommentItems rest cs) (hne : cs ≠ []) : CommentStep (cs ++ rest)

theorem commentStep (text : List Char) : CommentStep text := by
  cases text with
  | nil => exact .stop (.ends .nil)
  | cons c cs =>
    by_cases hn : c = '\x00'
    · subst hn
      exact .stop (.ends .nul)
    by_cases hq : c = '"'
    · subst hq
      cases hs : stringExtent cs with
      | error f => exact .stop (.string (stringExtent_error_iff.mp hs))
      | ok k =>
        obtain ⟨body, rest, rfl, hb, -⟩ := stringFrom_ok hs
        have h : CommentStep ('"' :: (body ++ ['"']) ++ rest) :=
          .items (.string hb .nil) (List.cons_ne_nil _ _)
        simpa using h
    by_cases hl : ∃ literal, CharacterLiteral literal ∧ literal <+: c :: cs
    · obtain ⟨literal, hlit, rest, hr⟩ := hl
      obtain ⟨e, rfl⟩ := hlit.eq_cons
      have h : CommentItems rest ('\'' :: e ++ []) := .character hlit .nil
      rw [List.append_nil] at h
      exact hr ▸ .items h (List.cons_ne_nil _ _)
    by_cases hc : c = '*' ∧ cs.head? = some ')'
    · obtain ⟨rfl, hc⟩ := hc
      obtain ⟨back, rfl⟩ := List.head?_eq_some_iff.mp hc
      exact .closing
    by_cases ho : c = '(' ∧ cs.head? = some '*'
    · obtain ⟨rfl, ho⟩ := ho
      obtain ⟨nested, rfl⟩ := List.head?_eq_some_iff.mp ho
      exact .opening
    have h : CommentItems cs [c] := .other hn hq (fun h h' => ho ⟨h, h'⟩)
      (fun h h' => hc ⟨h, h'⟩) (fun literal h h' => hl ⟨literal, h, h'⟩) .nil
    exact .items h (List.cons_ne_nil _ _)

/-- What a text is read as behind the opening mark of a comment: its items and the mark that closes
it, or what there is of it up to what stops it. -/
inductive BodyReading : List Char → Prop
  | closed (h : CommentItems ('*' :: ')' :: back) body) : BodyReading (body ++ '*' :: ')' :: back)
  | unfinished (h : OpenBody rest cs) (hs : CommentStop rest) : BodyReading (cs ++ rest)

theorem BodyReading.append (h : CommentItems text cs) (hr : BodyReading text) :
    BodyReading (cs ++ text) := by
  cases hr with
  | closed hb =>
    rw [← List.append_assoc]
    exact .closed (h.append hb)
  | unfinished ho hs =>
    rw [← List.append_assoc]
    exact .unfinished (.append h ho) hs

theorem bodyReading (text : List Char) : BodyReading text := by
  induction hn : text.length using Nat.strongRecOn generalizing text with
  | ind n ih =>
    subst hn
    cases commentStep text with
    | @closing back =>
      have h : CommentItems ('*' :: ')' :: back) [] := .nil
      exact .closed h
    | @opening nested =>
      -- Where the comment within closes, the text behind it is read on.
      have hlt : nested.length < ('(' :: '*' :: nested).length := by
        simp only [List.length_cons]
        omega
      cases ih _ hlt nested rfl with
      | @closed back body h =>
        have hback : back.length < ('(' :: '*' :: (body ++ '*' :: ')' :: back)).length := by
          simp only [List.length_cons, List.length_append]
          omega
        have hi : CommentItems back ('(' :: '*' :: (body ++ ['*', ')'])) := .comment h .nil
        simpa using (ih _ hback back rfl).append hi
      | @unfinished rest cs ho hs =>
        have hnil : CommentItems ('(' :: '*' :: (cs ++ rest)) [] := .nil
        have ho : OpenBody rest ([] ++ '(' :: '*' :: cs) := .within hnil ho
        exact .unfinished ho hs
    | stop hs => exact .unfinished (.items .nil) hs
    | @items rest cs h hne =>
      have hlt : rest.length < (cs ++ rest).length := by
        have := List.length_pos_iff.mpr hne
        rw [List.length_append]
        omega
      exact .append h (ih _ hlt rest rfl)

/-! ## Comments of the grammar -/

theorem CharacterEscape.parenthesis_not_mem (h : CharacterEscape e) : ')' ∉ e := by
  cases h with
  | @simple c hs =>
    rw [List.mem_singleton]
    rintro rfl
    cases hs
  | decimal h => exact h.not_mem (by decide)
  | hex h | octal h =>
    exact List.not_mem_cons_of_ne_of_not_mem (by decide) (h.not_mem (by decide))

/-- No literal goes on past the mark that closes a comment. -/
theorem CharacterLiteral.within_comment (h : CharacterLiteral literal)
    (hp : literal <+: c :: (cs ++ '*' :: ')' :: back)) : literal <+: c :: (cs ++ ['*', ')']) := by
  have hp' : literal <+: c :: (cs ++ ['*', ')']) ++ back := by simpa using hp
  rcases List.prefix_or_prefix_of_prefix hp' (List.prefix_append _ back) with hp | hp
  · exact hp
  have hstar : '*' ∈ literal := hp.subset (by simp)
  have hpar : ')' ∈ literal := hp.subset (by simp)
  cases h with
  | plain =>
    simp at hstar hpar
    cases hstar.trans hpar.symm
  | escape he =>
    simp [he.parenthesis_not_mem] at hpar

theorem CommentBody.items (h : CommentBody cs) (back : List Char) :
    CommentItems ('*' :: ')' :: back) cs := by
  induction h generalizing back with
  | nil => exact .nil
  | comment _ _ ihb ih => exact .comment (ihb _) (ih _)
  | string h _ ih => exact .string h (ih _)
  | character h _ ih => exact .character h (ih _)
  | @other c rest hn hq ho hc hl _ ih =>
    have hh : (rest ++ '*' :: ')' :: back).head? = (rest ++ ['*', ')']).head? := by
      cases rest <;> rfl
    refine .other hn hq (hh ▸ ho) (hh ▸ hc) (fun literal hlit hp => ?_) (ih _)
    obtain ⟨more, hm⟩ := hlit.within_comment hp
    exact hl literal more hlit hm.symm

theorem CommentItems.body (h : CommentItems ('*' :: ')' :: back) cs) : CommentBody cs := by
  generalize hr : '*' :: ')' :: back = rest at h
  induction h generalizing back with
  | nil => exact .nil
  | comment _ _ ihb ih => exact .comment (ihb rfl) (ih hr)
  | string h _ ih => exact .string h (ih hr)
  | character h _ ih => exact .character h (ih hr)
  | @other c cs _ hn hq ho hc hl _ ih =>
    subst hr
    have hh : (cs ++ '*' :: ')' :: back).head? = (cs ++ ['*', ')']).head? := by
      cases cs <;> rfl
    refine .other hn hq (hh ▸ ho) (hh ▸ hc) (fun literal more hlit he => ?_) (ih rfl)
    have hp : literal <+: c :: (cs ++ ['*', ')']) ++ back := ⟨more ++ back, by simp [he]⟩
    exact hl literal hlit (by simpa using hp)

/-- Behind the opening mark the scan takes the body of a comment with the mark that closes it, and
nothing else. -/
theorem commentFrom_ok_iff {n k : Nat} : commentFrom 0 n cs = .ok k ↔
    ∃ body rest, cs = body ++ '*' :: ')' :: rest ∧ CommentBody body ∧ k = n + body.length + 2 := by
  constructor
  · intro h
    cases bodyReading cs with
    | closed hb =>
      rw [hb.commentFrom, commentFrom_last] at h
      cases h
      exact ⟨_, _, rfl, hb.body, rfl⟩
    | unfinished ho hs =>
      cases hs with
      | ends he => cases (ho.unterminated he 0 n).symm.trans h
      | string hf => cases (ho.string hf 0 n).symm.trans h
  · rintro ⟨body, rest, rfl, hb, rfl⟩
    rw [(hb.items rest).commentFrom, commentFrom_last]

end HashIf
