import HashIf.Proofs.Source.Standalone

/-! The reach of scans. No scan passes a NUL, neither in what it takes nor on the way to its fault.
So a text with a NUL has a fault, at the first one or before it, and every fault lies in the
text. -/

namespace HashIf

/-! ## Reach -/

/-- The number of characters in front of the first NUL. -/
def reach (cs : List Char) : Nat := (cs.takeWhile (· != '\x00')).length

theorem reach_le (cs : List Char) : reach cs ≤ cs.length := length_takeWhile_le _ cs

theorem reach_cons (hc : c ≠ '\x00') (cs : List Char) : reach (c :: cs) = reach cs + 1 := by
  have hp : (c != '\x00') = true := bne_iff_ne.mpr hc
  rw [reach, List.takeWhile_cons_of_pos (p := (· != '\x00')) hp, List.length_cons, reach]

theorem reach_drop (h : n ≤ reach cs) : reach cs = n + reach (cs.drop n) := by
  induction cs generalizing n with
  | nil =>
    obtain rfl := Nat.le_zero.mp h
    rfl
  | cons c cs ih =>
    cases n with
    | zero => rw [List.drop_zero, Nat.zero_add]
    | succ n =>
      by_cases hc : c = '\x00'
      · subst hc
        cases h
      · rw [reach_cons hc] at h ⊢
        rw [List.drop_succ_cons, ih (Nat.le_of_succ_le_succ h), Nat.add_right_comm]

theorem nul_not_mem_take (h : n ≤ reach cs) : '\x00' ∉ cs.take n := by
  have hp : cs.take n <+: cs.takeWhile (· != '\x00') :=
    List.prefix_of_prefix_length_le (List.take_prefix n cs) (List.takeWhile_prefix _)
      (Nat.le_trans (List.length_take_le n cs) h)
  intro hm
  cases List.mem_takeWhile_imp (hp.subset hm)

theorem ne_nul {p : Char → Bool} (hc : p c = true) (h0 : p '\x00' = false) : c ≠ '\x00' := by
  rintro rfl
  cases h0.symm.trans hc

theorem one_le_reach {p : Char → Bool} (h : p (firstOrNul cs) = true) (h0 : p '\x00' = false) :
    1 ≤ reach cs := by
  obtain ⟨c, cs, rfl, hc⟩ := of_firstOrNul h h0
  rw [reach_cons (ne_nul hc h0)]
  exact Nat.le_add_left 1 _

theorem length_takeWhile_le_reach {p : Char → Bool} (h0 : p '\x00' = false) (cs : List Char) :
    (cs.takeWhile p).length ≤ reach cs := by
  induction cs with
  | nil => exact Nat.le_refl _
  | cons c cs ih =>
    by_cases hc : p c = true
    · rw [List.takeWhile_cons_of_pos hc, List.length_cons, reach_cons (ne_nul hc h0)]
      exact Nat.succ_le_succ ih
    · rw [List.takeWhile_cons_of_neg hc]
      exact Nat.zero_le _

theorem Fault.offset_shift (n : Nat) (f : Fault) : (f.shift n).offset = n + f.offset := rfl

/-- A scan behind `lead` characters, from the first of which its faults are counted, neither takes
nor blames any behind the first `n`. -/
inductive StopsBy (lead n : Nat) : Except Fault Nat → Prop
  | ok (h : lead + k ≤ n) : StopsBy lead n (.ok k)
  | error (h : f.offset ≤ n) : StopsBy lead n (.error f)

namespace StopsBy

theorem mono (h : StopsBy lead n r) (hn : n ≤ m) : StopsBy lead m r := by
  cases h with
  | ok h => exact .ok (Nat.le_trans h hn)
  | error h => exact .error (Nat.le_trans h hn)

theorem le_of_ok (h : StopsBy lead n r) (hr : r = .ok k) : lead + k ≤ n := by
  subst hr
  cases h
  assumption

theorem offset_le (h : StopsBy lead n r) (hr : r = .error f) : f.offset ≤ n := by
  subst hr
  cases h
  assumption

end StopsBy

/-! ## Literals -/

theorem matchClasses_reach {classes : List (Char → Bool)} (h0 : ∀ p ∈ classes, p '\x00' = false)
    (cs : List Char) : (matchClasses classes cs = .ok () → classes.length ≤ reach cs) ∧
      ∀ n, matchClasses classes cs = .error n → n ≤ reach cs := by
  induction classes generalizing cs with
  | nil =>
    refine ⟨fun _ => Nat.zero_le _, fun n hn => ?_⟩
    cases hn
  | cons p ps ih =>
    obtain ⟨hp, hps⟩ := List.forall_mem_cons.mp h0
    obtain ⟨ihok, iherror⟩ := ih hps (cs.drop 1)
    rw [matchClasses]
    split
    · next hf =>
      have hr := reach_drop (one_le_reach hf hp)
      rw [hr, Nat.add_comm]
      split
      · next hm =>
        refine ⟨fun _ => Nat.succ_le_succ (ihok hm), fun n hn => ?_⟩
        cases hn
      · next n hm =>
        refine ⟨fun hok => ?_, fun k hk => ?_⟩
        · cases hok
        · cases hk
          exact Nat.succ_le_succ (iherror n hm)
    · refine ⟨fun hok => ?_, fun k hk => ?_⟩
      · cases hok
      · cases hk
        exact Nat.zero_le _

theorem fixedEscape_reach {lead : Nat} (h0 : ∀ p ∈ classes, p '\x00' = false)
    (hl : lead ≤ reach cs) : StopsBy 0 (reach cs) (fixedEscape lead classes cause cs) := by
  obtain ⟨hok, herror⟩ := matchClasses_reach h0 (cs.drop lead)
  rw [reach_drop hl, fixedEscape]
  split
  · next hm =>
    refine .ok ?_
    rw [Nat.zero_add]
    exact Nat.add_le_add_left (hok hm) lead
  · next n hm => exact .error (Nat.add_le_add_left (herror n hm) lead)

theorem unicodeEscape_reach (cs : List Char) : StopsBy 0 (reach cs) (unicodeEscape cs) := by
  have hd := length_takeWhile_le_reach (p := isHex) (by decide) cs
  rw [unicodeEscape]
  split
  · exact .error (Nat.zero_le _)
  split
  · next hc =>
    have hr := reach_drop hd
    have hone := one_le_reach (p := (· == '\x7d')) hc (by decide)
    exact .ok (by omega)
  · exact .error hd

theorem blankExtent_reach (cs : List Char) : blankExtent cs ≤ reach cs :=
  length_takeWhile_le_reach (by decide) cs

theorem escapeExtent_reach (cs : List Char) : StopsBy 0 (reach cs) (escapeExtent cs) := by
  unfold escapeExtent
  dsimp only
  split
  · next hs => exact .ok (one_le_reach hs (by decide))
  split
  · exact fixedEscape_reach (by decide) (Nat.zero_le _)
  split
  · refine fixedEscape_reach (by decide) ?_
    rw [reach_cons (by decide)]
    exact Nat.le_add_left 1 _
  · refine fixedEscape_reach (by decide) ?_
    rw [reach_cons (by decide)]
    exact Nat.le_add_left 1 _
  · next cs _ _ =>
    have hu := unicodeEscape_reach cs
    rw [reach_cons (by decide), reach_cons (by decide)]
    split
    · next hc =>
      have hk := hu.le_of_ok hc
      exact .ok (by omega)
    · next f hc =>
      have hf := hu.offset_le hc
      exact .error (by rw [Fault.offset_shift]; omega)
  · next cs _ _ =>
    have hb := blankExtent_reach cs
    rw [reach_cons (by decide)]
    exact .ok (by omega)
  · next cs _ _ =>
    have hb := blankExtent_reach cs
    rw [reach_cons (by decide), reach_cons (by decide)]
    exact .ok (by omega)
  · exact .error (Nat.zero_le _)

theorem stringFrom_reach (n : Nat) (cs : List Char) :
    StopsBy 1 (n + reach cs) (stringFrom n cs) := by
  fun_induction stringFrom n cs with
  | case1 | case2 => exact .error (Nat.zero_le _)
  | case3 n cs hn =>
    rw [reach_cons hn]
    exact .ok (by omega)
  | case4 n cs k hk hn hq ih =>
    have hk := (escapeExtent_reach cs).le_of_ok hk
    have hle : k ≤ reach cs := by omega
    have hr := reach_drop hle
    rw [reach_cons hn]
    exact ih.mono (by omega)
  | case5 n cs f hf hn hq =>
    have hf := (escapeExtent_reach cs).offset_le hf
    rw [reach_cons hn]
    exact .error (by rw [Fault.offset_shift]; omega)
  | case6 n c cs hn hq hb ih =>
    rw [reach_cons hn]
    exact ih.mono (by omega)

theorem stringExtent_reach (cs : List Char) : StopsBy 1 (1 + reach cs) (stringExtent cs) :=
  stringFrom_reach 1 cs

theorem characterEscape?_reach (h : characterEscape? cs = some k) : k ≤ reach cs := by
  have fixed {lead : Nat} {classes : List (Char → Bool)} {cause : FaultCause}
      (h0 : ∀ p ∈ classes, p '\x00' = false) (hl : lead ≤ reach cs)
      (h : (fixedEscape lead classes cause cs).toOption = some k) : k ≤ reach cs := by
    have hk := (fixedEscape_reach h0 hl).le_of_ok (ok_of_toOption h)
    rwa [Nat.zero_add] at hk
  rw [characterEscape?_fixedEscape] at h
  split at h
  · next hs =>
    cases h
    exact one_le_reach hs (by decide)
  split at h
  · exact fixed (by decide) (Nat.zero_le _) h
  split at h
  · next hx => exact fixed (by decide) (one_le_reach (p := (· == 'x')) hx (by decide)) h
  split at h
  · next ho => exact fixed (by decide) (one_le_reach (p := (· == 'o')) ho (by decide)) h
  · cases h

theorem characterExtent?_reach (h : characterExtent? cs = some k) : k ≤ reach cs := by
  cases cs with
  | nil => cases h
  | cons c cs =>
    have quote {xs : List Char} (hq : (firstOrNul xs == '\'') = true) : 1 ≤ reach xs :=
      one_le_reach (p := (· == '\'')) hq (by decide)
    rw [characterExtent?] at h
    split at h
    · next hc =>
      subst hc
      split at h
      · next n hn =>
        split at h
        · next hq =>
          cases h
          have hr := reach_drop (characterEscape?_reach hn)
          have hone := quote hq
          rw [reach_cons (by decide)]
          omega
        · cases h
      · cases h
    split at h
    · cases h
    split at h
    · next hq =>
      cases h
      split
      · exact Nat.zero_le _
      · next hn =>
        rw [reach_cons hn]
        exact Nat.succ_le_succ (quote hq)
    · cases h

/-! ## Comments -/

theorem commentFrom_reach (depth n : Nat) (cs : List Char) :
    StopsBy 0 (n + reach cs) (commentFrom depth n cs) := by
  fun_induction commentFrom depth n cs with
  | case1 | case2 => exact .error (Nat.zero_le _)
  | case3 depth n c cs hn ho ih =>
    obtain ⟨rfl, cs, rfl⟩ := of_marks ho (by decide)
    rw [reach_cons hn, reach_cons (by decide)]
    exact ih.mono (by rw [List.drop_succ_cons, List.drop_zero]; omega)
  | case4 n c cs hn ho hc =>
    obtain ⟨rfl, cs, rfl⟩ := of_marks hc (by decide)
    rw [reach_cons hn, reach_cons (by decide)]
    exact .ok (by omega)
  | case5 n c cs hn ho hc depth ih =>
    obtain ⟨rfl, cs, rfl⟩ := of_marks hc (by decide)
    rw [reach_cons hn, reach_cons (by decide)]
    exact ih.mono (by rw [List.drop_succ_cons, List.drop_zero]; omega)
  | case6 depth n cs k hk hn ho hc ih =>
    have hk := (stringExtent_reach cs).le_of_ok hk
    have hle : k ≤ reach cs := by omega
    have hr := reach_drop hle
    rw [reach_cons hn]
    exact ih.mono (by omega)
  | case7 depth n cs f hf hn ho hc =>
    have hf := (stringExtent_reach cs).offset_le hf
    rw [reach_cons hn]
    exact .error (by rw [Fault.offset_shift]; omega)
  | case8 depth n cs k hk hn ho hc hq ih =>
    have hr := reach_drop (characterExtent?_reach hk)
    rw [reach_cons hn]
    exact ih.mono (by omega)
  | case9 depth n cs he hn ho hc hq ih =>
    rw [reach_cons hn]
    exact ih.mono (by omega)
  | case10 depth n c cs hn ho hc hq hl ih =>
    rw [reach_cons hn]
    exact ih.mono (by omega)

theorem commentExtent_reach (cs : List Char) (h : opensComment c cs = true) :
    StopsBy 1 (reach (c :: cs)) (commentExtent cs) := by
  simp only [opensComment, Bool.and_eq_true, beq_iff_eq] at h
  obtain ⟨⟨rfl, hstar⟩, -⟩ := h
  obtain ⟨cs, rfl⟩ := of_firstOrNul_eq (beq_iff_eq.mpr hstar) (by decide)
  have hx := commentFrom_reach 0 2 cs
  rw [reach_cons (by decide), reach_cons (by decide), commentExtent, List.drop_succ_cons,
    List.drop_zero]
  split
  · next n hn =>
    have hle := hx.le_of_ok hn
    exact .ok (by omega)
  · next f hf =>
    have hle := hx.offset_le hf
    exact .error (by omega)

/-! ## Lexemes -/

theorem exponentExtent_reach (cs : List Char) : StopsBy 0 (reach cs) (exponentExtent cs) := by
  cases cs with
  | nil => exact .ok (Nat.zero_le _)
  | cons e cs =>
    rw [exponentExtent]
    dsimp only
    split
    · next he =>
      split
      · exact .error (Nat.zero_le _)
      · have hs : signExtent cs ≤ reach cs := by
          rw [signExtent]
          split
          · next hs => exact one_le_reach (p := fun c => c == '+' || c == '-') hs (by decide)
          · exact Nat.zero_le _
        have hr := reach_drop hs
        have hd := length_takeWhile_le_reach (p := isDigit) (by decide) (cs.drop (signExtent cs))
        rw [reach_cons (ne_nul (p := fun e => e == 'e' || e == 'E') he (by decide))]
        exact .ok (by omega)
    · exact .ok (Nat.zero_le _)

theorem fractionExtent_reach (cs : List Char) : fractionExtent cs ≤ reach cs := by
  unfold fractionExtent
  split
  · next cs =>
    split
    · exact Nat.zero_le _
    · rw [reach_cons (by decide), Nat.add_comm]
      exact Nat.succ_le_succ (length_takeWhile_le_reach (by decide) cs)
  · exact Nat.zero_le _

theorem basedExtent_reach (base : Nat) (cs : List Char) :
    StopsBy 0 (reach cs) (basedExtent base cs) := by
  rw [basedExtent]
  split
  · refine .ok ?_
    rw [Nat.zero_add]
    exact length_takeWhile_le_reach (by rfl) cs
  · exact .error (Nat.zero_le _)

theorem numberExtent_reach (hc : isDigit c = true) (cs : List Char) :
    StopsBy 1 (reach (c :: cs)) ((numberExtent c cs).map Prod.snd) := by
  rw [reach_cons (ne_nul hc (by decide))]
  simp only [numberExtent]
  split
  · next base hm =>
    obtain ⟨m, cs, rfl⟩ : ∃ m ms, cs = m :: ms := by
      cases cs with
      | nil => cases hm
      | cons m ms => exact ⟨m, ms, rfl⟩
    have hn : m ≠ '\x00' := by
      rintro rfl
      simp [markAfterZero?, markedBase?] at hm
    have hb := basedExtent_reach base cs
    rw [reach_cons hn, List.drop_succ_cons, List.drop_zero]
    split
    · next n hx =>
      have hle := hb.le_of_ok hx
      exact .ok (by omega)
    · next f hx =>
      have hle := hb.offset_le hx
      exact .error (by rw [Fault.offset_shift]; omega)
  · have hw := reach_drop (length_takeWhile_le_reach (p := isNumberPart) (by decide) cs)
    rw [← digitExtent] at hw
    have hf := reach_drop (fractionExtent_reach (cs.drop (digitExtent cs)))
    have hx := exponentExtent_reach
      (cs.drop (digitExtent cs + fractionExtent (cs.drop (digitExtent cs))))
    rw [List.drop_drop] at hf
    split
    · next n hn =>
      have hle := hx.le_of_ok hn
      exact .ok (by omega)
    · next f hn =>
      have hle := hx.offset_le hn
      exact .error (by rw [Fault.offset_shift]; omega)

theorem symbolExtent_reach (c : Char) (cs : List Char) :
    StopsBy 1 (reach (c :: cs)) (symbolExtent c cs) := by
  rw [symbolExtent]
  split
  · next hp =>
    have hone := one_le_reach (p := fun d => pairSymbols.contains (c, d)) hp (not_pair_nul c)
    have hc : c ≠ '\x00' := by
      rintro rfl
      rw [not_pair_of_fst (by decide)] at hp
      cases hp
    rw [reach_cons hc]
    exact .ok (Nat.succ_le_succ hone)
  split
  · next hs =>
    rw [reach_cons (ne_nul hs (by decide))]
    exact .ok (Nat.le_add_left 1 _)
  · exact .error (Nat.zero_le _)

theorem lexemeExtent_reach (c : Char) (cs : List Char) :
    StopsBy 1 (reach (c :: cs)) ((lexemeExtent c cs).map Prod.snd) := by
  have word (hc : c ≠ '\x00') : 1 + wordExtent cs ≤ reach (c :: cs) := by
    rw [reach_cons hc, Nat.add_comm]
    exact Nat.succ_le_succ (length_takeWhile_le_reach (by decide) cs)
  simp only [lexemeExtent]
  split
  · next hw => exact .ok (word (ne_nul hw (by decide)))
  split
  · next hd => exact numberExtent_reach hd cs
  split
  · next hh =>
    simp only [Bool.and_eq_true, decide_eq_true_eq] at hh
    exact .ok (word (hh.1 ▸ by decide))
  split
  · next hc =>
    have hs := stringExtent_reach cs
    rw [reach_cons (hc ▸ by decide)]
    split
    · next n hn =>
      have hle := hs.le_of_ok hn
      exact .ok (by omega)
    · next f hf =>
      have hle := hs.offset_le hf
      exact .error (by omega)
  split
  · next hc =>
    rw [reach_cons (hc ▸ by decide)]
    split
    · next n hn =>
      have hle := characterExtent?_reach hn
      exact .ok (by omega)
    · exact .ok (by omega)
  · have hs := symbolExtent_reach c cs
    split
    · next n hn => exact .ok (hs.le_of_ok hn)
    · next f hf => exact .error (hs.offset_le hf)

/-! ## Texts -/

theorem nextPiece_reach (c : Char) (cs : List Char) :
    StopsBy 1 (reach (c :: cs)) ((nextPiece c cs).map Prod.snd) := by
  rw [nextPiece]
  split
  · next hb =>
    rw [reach_cons (ne_nul hb (by decide))]
    exact .ok (Nat.le_add_left 1 _)
  split
  · next ho =>
    have hc := commentExtent_reach cs ho
    split
    · next n hn => exact .ok (hc.le_of_ok hn)
    · next f hf => exact .error (hc.offset_le hf)
  · have hx := lexemeExtent_reach c cs
    split
    · next n hn => exact .ok (hx.le_of_ok (by rw [hn]; rfl))
    · next f hf => exact .error (hx.offset_le (by rw [hf]; rfl))

theorem piecesFrom_reach (offset : Nat) (read : List Piece) (cs : List Char) :
    (∀ ps, piecesFrom offset read cs = .ok ps → reach cs = cs.length) ∧
      ∀ f, piecesFrom offset read cs = .error f → f.offset ≤ offset + reach cs := by
  fun_induction piecesFrom offset read cs with
  | case1 =>
    refine ⟨fun _ _ => rfl, fun f hf => ?_⟩
    cases hf
  | case2 offset read c cs piece n hp ih =>
    obtain ⟨ihok, iherror⟩ := ih
    have hn : 1 + n ≤ reach (c :: cs) := (nextPiece_reach c cs).le_of_ok (by rw [hp]; rfl)
    have hr := reach_drop hn
    rw [Nat.add_comm 1 n, List.drop_succ_cons] at hr
    constructor
    · intro ps hps
      have hlen := ihok ps hps
      have hle := nextPiece_le hp
      rw [List.length_drop] at hlen
      rw [List.length_cons]
      omega
    · intro f hf
      have hoff := iherror f hf
      omega
  | case3 offset read c cs f hp =>
    refine ⟨fun ps hps => ?_, fun g hg => ?_⟩
    · cases hps
    · cases hg
      have hoff := (nextPiece_reach c cs).offset_le (by rw [hp]; rfl)
      rw [Fault.offset_shift]
      exact Nat.add_le_add_left hoff offset

/-- A text that can be read has no NUL. -/
theorem nul_not_mem_of_pieces (h : pieces cs = .ok ps) : '\x00' ∉ cs := by
  have hr := (piecesFrom_reach 0 [] cs).1 ps h
  have hm := nul_not_mem_take hr.ge
  rwa [List.take_length] at hm

theorem offset_le_of_pieces (h : pieces cs = .error f) : f.offset ≤ reach cs := by
  have hf := (piecesFrom_reach 0 [] cs).2 f h
  rwa [Nat.zero_add] at hf

theorem Reads.length_le (h : Reads cs ps) : ps.length ≤ cs.length := by
  induction h with
  | nil => exact Nat.le_refl _
  | cons _ _ ih =>
    rw [List.length_drop] at ih
    rw [List.length_cons, List.length_cons]
    omega

theorem length_placesFrom (p : Position) (ps : List Piece) :
    (placesFrom p ps).length = ps.length := by
  induction ps generalizing p with
  | nil => rfl
  | cons piece ps ih => rw [placesFrom, List.length_cons, List.length_cons, ih]

/-- Each token but the one for the end has a character of its own. -/
theorem length_of_tokenize {source : String} (h : tokenize file source = .ok ts) :
    ts.length ≤ source.toList.length + 1 := by
  obtain ⟨ps, hps, rfl⟩ := tokenize_eq h
  rw [List.length_append, List.length_singleton]
  refine Nat.succ_le_succ ?_
  calc (bodyTokens file ps).length
    _ ≤ (placesFrom .start ps).length := List.length_filterMap_le _ _
    _ = ps.length := length_placesFrom _ ps
    _ ≤ source.toList.length := (pieces_iff.mp hps).length_le

/-- A lexical error that is located at the character with number `i` of a text, or at its end,
with no NUL before it. -/
structure LexicalError.PlacedAt (text : List Char) (e : LexicalError) (i : Nat) : Prop where
  le : i ≤ text.length
  index : e.loc.index = i
  line : e.loc.line = 1 + (text.take i).count '\n'
  col : ∃ k, LastLineFeed (text.take i) k ∧ e.loc.col = i - k
  nul : '\x00' ∉ text.take i

theorem placedAt_ofFault (file : String) {cs : List Char} {f : Fault} (h : f.offset ≤ reach cs) :
    (LexicalError.ofFault file cs f).PlacedAt cs f.offset := by
  have hle : f.offset ≤ cs.length := Nat.le_trans h (reach_le cs)
  have hlen : (cs.take f.offset).length = f.offset := by rw [List.length_take, Nat.min_eq_left hle]
  constructor
  case le => exact hle
  case index =>
    simp only [LexicalError.ofFault, Location.ofPosition, Position.index_start, hlen]
  case line =>
    simp only [LexicalError.ofFault, Location.ofPosition, Position.line_start]
    omega
  case col =>
    obtain ⟨k, hk, hcol⟩ := Position.col_start (cs.take f.offset)
    rw [hlen] at hcol
    exact ⟨k, hk, hcol⟩
  case nul => exact nul_not_mem_take h

/-- Every text has tokens, no more than it has characters but for the one for its end, or an error
at a place of its own. A text with a NUL has an error. -/
theorem tokenize_total (file source : String) :
    ((∃ ts, tokenize file source = .ok ts ∧ ts.length ≤ source.toList.length + 1) ∨
      ∃ e, tokenize file source = .error e) ∧
    ('\x00' ∈ source.toList → ∃ e, tokenize file source = .error e) ∧
    ∀ e, tokenize file source = .error e → ∃ f, pieces source.toList = .error f ∧
      e.PlacedAt source.toList f.offset := by
  cases hp : pieces source.toList with
  | ok ps =>
    have ht : tokenize file source = _ := tokenize_of_pieces hp
    refine ⟨.inl ⟨_, ht, length_of_tokenize ht⟩, fun hm => ?_, fun e he => ?_⟩
    · exact absurd hm (nul_not_mem_of_pieces hp)
    · cases ht.symm.trans he
  | error f =>
    have ht : tokenize file source = _ := tokenize_of_fault hp
    refine ⟨.inr ⟨_, ht⟩, fun _ => ⟨_, ht⟩, fun e he => ⟨f, rfl, ?_⟩⟩
    cases ht.symm.trans he
    exact placedAt_ofFault file (offset_le_of_pieces hp)

/-- The literal of NUL is no token, and the error is at the NUL. -/
theorem tokenize_total_quoted :
    ∃ e, tokenize "f" "a\n'\x00'" = .error e ∧ e.PlacedAt "a\n'\x00'".toList 3 := by
  obtain ⟨-, hnul, hplace⟩ := tokenize_total "f" "a\n'\x00'"
  obtain ⟨e, he⟩ := hnul (by decide)
  obtain ⟨f, hf, hp⟩ := hplace e he
  have hpieces : pieces "a\n'\x00'".toList = .error (.single 3 (.unexpected '\x00')) := by cbv
  cases hpieces.symm.trans hf
  exact ⟨e, he, hp⟩

end HashIf
