import HashIf.Proofs.Filter.Trace

/-! The extent of headers: a header ends where a line begins, so it never reaches a marker, and the
condition of a segment depends on that segment and the token behind it alone. -/

namespace HashIf

/-! ## Lines behind tokens -/

/-- The last line of a run of tokens behind a line. -/
def lineBehind (l : Int) (ts : List Token) : Int := ts.foldl (fun _ t => t.lastLine) l

@[simp] theorem lineBehind_nil (l : Int) : lineBehind l [] = l := rfl

@[simp] theorem lineBehind_cons (l : Int) (t : Token) (ts : List Token) :
    lineBehind l (t :: ts) = lineBehind t.lastLine ts := rfl

theorem lineBehind_append (l : Int) (xs ys : List Token) :
    lineBehind l (xs ++ ys) = lineBehind (lineBehind l xs) ys := List.foldl_append

theorem lineBehind_le {l m : Int} (h : ∀ t ∈ ts, t.lastLine ≤ m) (hl : l ≤ m) :
    lineBehind l ts ≤ m := by
  induction ts generalizing l with
  | nil => exact hl
  | cons t ts ih =>
    obtain ⟨ht, hts⟩ := List.forall_mem_cons.mp h
    exact ih hts ht

theorem Cursor.drop_append (l : Int) (xs ys : List Token) :
    Cursor.drop ⟨l, xs ++ ys⟩ xs.length = ⟨lineBehind l xs, ys⟩ := by
  induction xs generalizing l with
  | nil => rfl
  | cons x xs ih => exact ih x.lastLine

theorem Cursor.drop_append_le {l : Int} {xs ys : List Token} (h : n ≤ xs.length) :
    Cursor.drop ⟨l, xs ++ ys⟩ n = ⟨lineBehind l (xs.take n), xs.drop n ++ ys⟩ := by
  have hd := Cursor.drop_append l (xs.take n) (xs.drop n ++ ys)
  rwa [← List.append_assoc, List.take_append_drop, List.length_take, Nat.min_eq_left h] at hd

/-! ## Headers -/

theorem prefix_headerTokens (l : Int) (ts : List Token) : headerTokens l ts <+: ts := by
  induction ts generalizing l with
  | nil => exact List.prefix_rfl
  | cons t ts ih =>
    unfold headerTokens
    split
    · exact List.nil_prefix
    · exact List.cons_prefix_cons.mpr ⟨rfl, ih t.lastLine⟩

/-- A header ends in front of a token that begins a line, whatever follows that token. -/
theorem headerTokens_append {l : Int} {xs : List Token} (h : lineBehind l xs < t.loc.line) :
    headerTokens l (xs ++ t :: ys) = headerTokens l xs := by
  induction xs generalizing l with
  | nil => simp only [List.nil_append, headerTokens]; rw [if_pos (.inr h)]
  | cons x xs ih =>
    simp only [List.cons_append, headerTokens]
    rw [ih h]

theorem Header.ofCursor_append {l : Int} {xs : List Token} (d : Token)
    (h : lineBehind l xs < t.loc.line) :
    Header.ofCursor d ⟨l, xs ++ t :: ys⟩ = Header.ofCursor d ⟨l, xs ++ [t]⟩ := by
  have hn := (prefix_headerTokens l xs).length_le
  simp only [Header.ofCursor, headerTokens_append h, List.drop_append_of_le_length hn]
  congr 1
  cases xs.drop (headerTokens l xs).length <;> rfl

/-! ## Queries -/

namespace Query

variable {d : Token}

theorem behind_append {xs : List Token} (h : lineBehind d.lastLine xs < t.loc.line) :
    behind d (xs ++ t :: ys) = behind d (xs ++ [t]) :=
  congrArg (Query.mk d) (Header.ofCursor_append d h)

/-- The condition of a segment is the one that is read in the stream. -/
theorem behind_of_marked {c : Cursor} {body : Outline} {next : Branches}
    (hc : c.marked = body.marked ++ (next.marked ++ more)) (hn : next.Fits more)
    (hl : c.lastLine = d.lastLine) :
    behind d c.unread = ofSegment d body next := by
  have hu : c.unread = body.tokens ++ (next.marked ++ more).map Prod.fst := by
    rw [← c.map_fst_marked, hc, List.map_append]; rfl
  have marked {t m ms} (h : next.marked = (t, some m) :: ms) (ht : next.first? = some t) :
      behind d c.unread = ofSegment d body next := by
    have hd := Cursor.marked_drop_append hc
    rw [h, List.cons_append] at hd
    obtain ⟨hu', hm, -⟩ := Cursor.of_marked_cons hd
    have hline := (Cursor.of_marker hu' hm).1
    have hlen : body.marked.length = body.tokens.length := (List.length_map ..).symm
    have hcur : c = ⟨d.lastLine, c.unread⟩ := by rw [← hl]
    rw [hcur, hu, hlen, Cursor.drop_append] at hline
    rw [hu, h, List.cons_append, List.map_cons, behind_append hline, ofSegment, ht]
    rfl
  cases next with
  | close t => exact marked rfl rfl
  | orIf t b more => exact marked rfl rfl
  | orElse t b more => exact marked rfl rfl
  | cut eof =>
    obtain ⟨rfl, -⟩ := hn
    rw [hu, ofSegment]
    simp [Branches.marked, Branches.first?, Function.comp_def]

theorem byCondition_eq {env : Environment} {t : Token} {c : Cursor} {blocks : Bool → List Block}
    (hl : c.lastLine = t.lastLine) :
    FilterStep.byCondition env t c blocks =
      match (behind t c.unread).truth env with
      | .error f => .fail f (1 + (behind t c.unread).length)
      | .ok holds => .drop (behind t c.unread).length (blocks holds) := by
  have hc : c = ⟨t.lastLine, c.unread⟩ := by rw [← hl]
  have hq : c.condition t = ((behind t c.unread).parsed.result, (behind t c.unread).length) := by
    rw [hc]; rfl
  rw [FilterStep.byCondition, hq, truth]
  cases (behind t c.unread).parsed.result with
  | error f => rfl
  | ok cond => cases h : cond.evaluate env <;> simp only [h]

end Query

/-! ## Headers in outlines -/

/-- The number of tokens of an outline in front of its first block. -/
def Outline.lead : Outline → Nat
  | .token _ rest => rest.lead + 1
  | _ => 0

/-- A header does not go on past a marker or the end of the source. -/
theorem headerTokens_of_head {l : Int} (h : classifyFrom l ts = x :: ms)
    (hx : x.2 ≠ none ∨ x.1.kind = .eof) : headerTokens l ts = [] := by
  cases ts with
  | nil => rfl
  | cons t ts =>
    obtain ⟨rfl, -⟩ := List.cons.inj h
    unfold headerTokens
    rcases hx with hx | hx
    · obtain ⟨m, hm⟩ := Option.ne_none_iff_exists'.mp hx
      have hline := (Cursor.of_marker (c := ⟨l, t :: ts⟩) rfl hm).1
      rw [if_pos (.inr hline)]
    · rw [if_pos (.inl hx)]

theorem length_headerTokens_le {l : Int} {ts : List Token} {s : Outline}
    (h : classifyFrom l ts = s.marked ++ more)
    (hm : ∀ x ∈ more.head?, x.2 ≠ none ∨ x.1.kind = .eof) :
    (headerTokens l ts).length ≤ s.lead := by
  induction ts generalizing l s with
  | nil => exact Nat.zero_le _
  | cons t ts ih =>
    cases s with
    | done =>
      cases more with
      | nil => cases h
      | cons x more =>
        rw [headerTokens_of_head h (hm x rfl)]
        exact Nat.zero_le _
    | block opener body branches rest =>
      rw [headerTokens_of_head h (.inl (by simp))]
      exact Nat.zero_le _
    | token u rest =>
      unfold headerTokens
      split
      · exact Nat.zero_le _
      · obtain ⟨-, h⟩ := List.cons.inj h
        exact Nat.succ_le_succ (ih h)

theorem Branches.Fits.head {br : Branches} (h : br.Fits more) :
    ∀ x ∈ (br.marked ++ more).head?, x.2 ≠ none ∨ x.1.kind = .eof := by
  intro x hx
  cases br with
  | close | orIf | orElse => cases hx; exact .inl (by simp)
  | cut eof =>
    obtain ⟨rfl, he⟩ := h
    cases eof with
    | none => cases hx
    | some t => cases hx; exact .inr (he t rfl)

/-- What a condition reads stands in front of the first block of its segment. -/
theorem Query.length_le {c : Cursor} {body : Outline} {next : Branches}
    (hc : c.marked = body.marked ++ (next.marked ++ more)) (hn : next.Fits more)
    (hl : c.lastLine = d.lastLine) :
    (ofSegment d body next).length ≤ body.lead := by
  rw [← behind_of_marked hc hn hl]
  have h : (headerTokens c.lastLine c.unread).length ≤ body.lead :=
    length_headerTokens_le hc hn.head
  rw [hl] at h
  exact Nat.le_trans (Nat.sub_le _ _) h

end HashIf
