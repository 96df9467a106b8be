import HashIf.Proofs.Filter.HeaderExtent

/-! Runs: a pass over a stream brings what the trace of its outline brings. A pass is one machine
with a stack of blocks; the trace follows the outline. -/

namespace HashIf

variable {env : Environment}

/-! ## Passes as outcomes -/

/-- Induction along a stream: a pass goes on at its next token from somewhere behind that token. -/
theorem Cursor.forward {motive : Cursor → Prop} (nil : ∀ c, c.unread = [] → motive c)
    (cons : ∀ c t ts, c.unread = t :: ts → (∀ k, motive (c.tail.drop k)) → motive c) (c : Cursor) :
    motive c := by
  induction hn : c.unread.length using Nat.strongRecOn generalizing c with
  | ind n ih =>
    cases hu : c.unread with
    | nil => exact nil c hu
    | cons t ts =>
      refine cons c t ts hu fun k => ih _ ?_ _ rfl
      rw [← hn, hu, Cursor.unread_drop, Cursor.unread_tail, hu, List.tail_cons, List.length_drop,
        List.length_cons]
      omega

/-- What a pass from a cursor on brings in open blocks. -/
def passOutcome (env : Environment) (c : Cursor) (blocks : List Block) : Outcome :=
  ⟨(filterFrom env #[] c blocks).tokens, (filterFrom env #[] c blocks).failure⟩

theorem filterFrom_nil {kept : Array Token} {c : Cursor} {blocks : List Block}
    (h : c.unread = []) :
    filterFrom env kept c blocks = ⟨kept.toList, blocks.head?.map FilterStep.openAtEnd, c⟩ := by
  rw [filterFrom]
  split
  · rfl
  · next h' => rw [h] at h'; cases h'

theorem filterFrom_cons {kept : Array Token} {c : Cursor} {blocks : List Block}
    (h : c.unread = t :: ts) :
    filterFrom env kept c blocks =
      match FilterStep.next env t c blocks with
      | .keep => filterFrom env (kept.push t) c.tail blocks
      | .drop skipped blocks => filterFrom env kept (c.tail.drop skipped) blocks
      | .fail f read => ⟨kept.toList, some f, c.drop read⟩ := by
  rw [filterFrom]
  split
  · next h' => rw [h] at h'; cases h'
  · next h' => rw [h] at h'; cases h'; rfl

/-- The tokens kept before a pass stand in front of those that it keeps. -/
theorem filterFrom_kept (kept : Array Token) (c : Cursor) (blocks : List Block) :
    (filterFrom env kept c blocks).tokens = kept.toList ++ (passOutcome env c blocks).tokens ∧
      (filterFrom env kept c blocks).failure = (passOutcome env c blocks).failure := by
  induction c using Cursor.forward generalizing kept blocks with
  | nil c hu => simp [passOutcome, filterFrom_nil hu]
  | cons c t ts hu ih =>
    unfold passOutcome
    rw [filterFrom_cons hu, filterFrom_cons hu]
    cases FilterStep.next env t c blocks with
    | fail f read => simp
    | keep =>
      have h := fun kept => ih 0 kept blocks
      simp only [Cursor.drop] at h
      simp [(h _).1, (h _).2]
    | drop skipped blocks =>
      have h := fun kept => ih skipped kept blocks
      simp [(h _).1, (h _).2]

theorem passOutcome_nil {c : Cursor} {blocks : List Block} (h : c.unread = []) :
    passOutcome env c blocks = ⟨[], blocks.head?.map FilterStep.openAtEnd⟩ := by
  rw [passOutcome, filterFrom_nil h]

/-- What a pass brings from a step on, `c` being the cursor behind the token of the step. -/
def FilterStep.outcome (env : Environment) (t : Token) (c : Cursor) (blocks : List Block) :
    FilterStep → Outcome
  | .keep => ((Event.keep t).outcome env).andThen (passOutcome env c blocks)
  | .drop skipped blocks => passOutcome env (c.drop skipped) blocks
  | .fail f _ => ⟨[], some f⟩

theorem passOutcome_cons {c : Cursor} {blocks : List Block} (h : c.unread = t :: ts) :
    passOutcome env c blocks =
      (FilterStep.next env t c blocks).outcome env t c.tail blocks := by
  rw [passOutcome, filterFrom_cons h]
  cases FilterStep.next env t c blocks with
  | fail | drop => rfl
  | keep =>
    rw [Outcome.mk.injEq]
    exact filterFrom_kept (#[].push t) c.tail blocks

/-- A pass selects: it brings some of the tokens that it reads, in their order. -/
theorem passOutcome_sublist (c : Cursor) (blocks : List Block) :
    (passOutcome env c blocks).tokens.Sublist c.unread := by
  induction c using Cursor.forward generalizing blocks with
  | nil c hu =>
    rw [passOutcome_nil hu]
    exact List.nil_sublist _
  | cons c t ts hu ih =>
    have goes (k : Nat) (blocks : List Block) :
        (passOutcome env (c.tail.drop k) blocks).tokens.Sublist ts := by
      refine (ih k blocks).trans ?_
      rw [Cursor.unread_drop, Cursor.unread_tail, hu, List.tail_cons]
      exact List.drop_sublist k ts
    rw [passOutcome_cons hu, hu]
    cases FilterStep.next env t c blocks with
    | keep => exact (goes 0 blocks).cons_cons t
    | drop skipped blocks => exact (goes skipped blocks).cons t
    | fail f read => exact List.nil_sublist _

theorem filterTokens_eq (env : Environment) (ts : List Token) :
    filterTokens env ts = (passOutcome env (.start ts) []).result := rfl

/-! ## Steps with and without a condition -/

/-- How a pass goes on at the token `t`, which is the marker `m` if it is one. Either the step is
the same in front of all tokens and in all environments, and then it drops no token but its own, or
a condition is read behind a marker `#if` or `#elif`. -/
inductive StepCases (t : Token) (m : Option Marker) (blocks : List Block) : Prop
  | fixed (step : FilterStep) (hs : ∀ n bs, step = .drop n bs → n = 0)
    (h : ∀ env c, c.marker? = m → FilterStep.next env t c blocks = step)
  | reads (after : Bool → List Block) (hm : m = some .ifMarker ∨ m = some .elifMarker)
    (h : ∀ env c, c.marker? = m →
      FilterStep.next env t c blocks = FilterStep.byCondition env t c.tail after)

namespace StepCases

variable {t : Token} {m : Marker} {b : Block} {outer blocks : List Block}

theorem fail (f : Failure) (read : Nat)
    (h : ∀ env c, c.marker? = m' → FilterStep.next env t c blocks = .fail f read) :
    StepCases t m' blocks := .fixed (.fail f read) (by simp) h

theorem keepOne (h : ∀ env c, c.marker? = m' → FilterStep.next env t c blocks = .keep) :
    StepCases t m' blocks := .fixed .keep (by simp) h

theorem dropOne (bs : List Block)
    (h : ∀ env c, c.marker? = m' → FilterStep.next env t c blocks = .drop 0 bs) :
    StepCases t m' blocks := by
  refine .fixed _ (fun n bs' he => ?_) h
  cases he
  rfl

/-- At a marker that ends the current branch. -/
theorem branch (hm : m ≠ .ifMarker) (h : ∀ env c, c.marker? = some m →
      FilterStep.next env t c (b :: outer) = FilterStep.branch env m t c.tail b outer) :
    StepCases t (some m) (b :: outer) := by
  cases m with
  | ifMarker => exact (hm rfl).elim
  | endMarker => exact .dropOne _ h
  | elseMarker =>
    by_cases he : b.elseMet = true
    · exact .fail _ _ fun env c hc => (h env c hc).trans (if_pos he)
    · exact .dropOne _ fun env c hc => (h env c hc).trans (if_neg he)
  | elifMarker =>
    by_cases he : b.elseMet = true
    · exact .fail _ _ fun env c hc => (h env c hc).trans (if_pos he)
    by_cases ht : b.taken = true
    · exact .dropOne _ fun env c hc => (h env c hc).trans ((if_neg he).trans (if_pos ht))
    · exact .reads _ (.inr rfl) fun env c hc =>
        (h env c hc).trans ((if_neg he).trans (if_neg ht))

end StepCases

theorem stepCases (t : Token) (m : Option Marker) (blocks : List Block) :
    StepCases t m blocks := by
  cases blocks with
  | nil =>
    have top (env : Environment) (c : Cursor) (hm : c.marker? = m) :
        FilterStep.next env t c [] = FilterStep.atTop env m t c.tail := by
      rw [FilterStep.next, hm]
    cases m with
    | none => exact .keepOne top
    | some m =>
      cases m with
      | ifMarker => exact .reads _ (.inl rfl) top
      | elifMarker | elseMarker | endMarker => exact .fail _ _ top
  | cons b outer =>
    by_cases ht : t.kind = .eof
    · exact .fail _ _ fun env c _ => if_pos ht
    cases hd : b.dropping with
    | none =>
      have kept (env : Environment) (c : Cursor) (hm : c.marker? = m) :
          FilterStep.next env t c (b :: outer) = FilterStep.inKept env m t c.tail b outer := by
        rw [FilterStep.next, if_neg ht, hd, hm]
      cases m with
      | none => exact .keepOne kept
      | some m =>
        cases m with
        | ifMarker => exact .reads _ (.inl rfl) kept
        | elifMarker | elseMarker | endMarker => exact .branch (by decide) kept
    | some depth =>
      have dropped (env : Environment) (c : Cursor) (hm : c.marker? = m) :
          FilterStep.next env t c (b :: outer) =
            FilterStep.inDropped env m t c.tail b outer depth := by
        rw [FilterStep.next, if_neg ht, hd, hm]
      cases m with
      | none => exact .dropOne _ dropped
      | some m =>
        cases depth with
        | zero =>
          cases m with
          | ifMarker => exact .dropOne _ dropped
          | elifMarker | elseMarker | endMarker => exact .branch (by decide) dropped
        | succ depth =>
          cases m with
          | ifMarker | elifMarker | elseMarker | endMarker => exact .dropOne _ dropped

/-! ## Steps in kept segments -/

/-- The innermost of the open blocks is in a segment that is kept. -/
def Keeping (blocks : List Block) : Prop := ∀ b ∈ blocks.head?, b.dropping = none

theorem Keeping.of_keep (b : Block) (outer : List Block) : Keeping (b.keep :: outer) := by
  rintro _ ⟨⟩
  rfl

section
variable {c : Cursor} {blocks : List Block} {ms : List Marked}

theorem kind_of_marked (hc : c.marked = (t, some m) :: ms) : t.kind ≠ .eof := by
  obtain ⟨hu, hm, -⟩ := Cursor.of_marked_cons hc
  rw [(Cursor.of_marker hu hm).2]
  decide

theorem passOutcome_token (hc : c.marked = (t, none) :: ms) (hk : Keeping blocks)
    (ht : blocks = [] ∨ t.kind ≠ .eof) :
    passOutcome env c blocks =
      ((Event.keep t).outcome env).andThen (passOutcome env c.tail blocks) := by
  obtain ⟨hu, hm, -⟩ := Cursor.of_marked_cons hc
  rw [passOutcome_cons hu]
  cases blocks with
  | nil => rw [FilterStep.next, hm]; rfl
  | cons b outer =>
    have ht := ht.resolve_left (List.cons_ne_nil _ _)
    rw [FilterStep.next, if_neg ht, hk b rfl, hm]
    rfl

theorem passOutcome_stray (hc : c.marked = (t, some m) :: ms) (hm : m ≠ .ifMarker) :
    passOutcome env c [] = ⟨[], some (.diagnostic (.structural t.loc (.unmatched m)))⟩ := by
  obtain ⟨hu, hm', -⟩ := Cursor.of_marked_cons hc
  rw [passOutcome_cons hu, FilterStep.next, hm']
  cases m with
  | ifMarker => exact (hm rfl).elim
  | elifMarker | elseMarker | endMarker => rfl

theorem outcome_byCondition {t : Token} {bs : Bool → List Block}
    (hl : c.lastLine = t.lastLine) :
    (FilterStep.byCondition env t c bs).outcome env t c blocks =
      ((Event.consult (.behind t c.unread)).outcome env).andThen
        (passOutcome env (c.drop (Query.behind t c.unread).length)
          (bs ((Query.behind t c.unread).holds env))) := by
  rw [Query.byCondition_eq hl, Event.outcome, Query.failure?, Query.holds]
  cases (Query.behind t c.unread).truth env <;> rfl

theorem lastLine_tail (h : c.unread = t :: ts) : c.tail.lastLine = t.lastLine := by
  rw [Cursor.tail, h]

theorem passOutcome_opener (hc : c.marked = (t, some .ifMarker) :: ms) (hk : Keeping blocks) :
    passOutcome env c blocks =
      ((Event.consult (.behind t c.tail.unread)).outcome env).andThen
        (passOutcome env (c.tail.drop (Query.behind t c.tail.unread).length)
          (Block.enter ⟨t.loc, false, false, none⟩ ((Query.behind t c.tail.unread).holds env) ::
            blocks)) := by
  obtain ⟨hu, hm, -⟩ := Cursor.of_marked_cons hc
  have hl : c.tail.lastLine = t.lastLine := lastLine_tail hu
  have hs : FilterStep.next env t c blocks = FilterStep.openBlock env t c.tail blocks := by
    cases blocks with
    | nil => rw [FilterStep.next, hm]; rfl
    | cons b outer =>
      rw [FilterStep.next, if_neg (kind_of_marked hc), hk b rfl, hm]
      rfl
  rw [passOutcome_cons hu, hs]
  exact outcome_byCondition hl

end

/-! ## Steps in dropped segments -/

/-- The block in a segment that is dropped, in which `depth` blocks are open. -/
def Block.skipping (b : Block) (depth : Nat) : Block := { b with dropping := some depth }

section
variable {c : Cursor} {b : Block} {outer : List Block} {ms : List Marked}

/-- A stream that ends in a block fails at the `#if` of the block, wherever it is cut. -/
theorem passOutcome_cut {eof : Option Token}
    (hc : c.marked = eof.toList.map (·, none)) (he : ∀ t ∈ eof, t.kind = .eof) :
    passOutcome env c (b :: outer) = ⟨[], some (FilterStep.openAtEnd b)⟩ := by
  cases eof with
  | none => rw [passOutcome_nil (Cursor.unread_eq_nil hc)]; rfl
  | some t =>
    obtain ⟨hu, -, -⟩ := Cursor.of_marked_cons hc
    rw [passOutcome_cons hu, FilterStep.next, if_pos (he t rfl)]
    rfl

theorem passOutcome_skipped (hc : c.marked = (t, m) :: ms) (ht : t.kind ≠ .eof) :
    passOutcome env c (b.skipping depth :: outer) =
      (FilterStep.inDropped env m t c.tail (b.skipping depth) outer depth).outcome env t c.tail
        (b.skipping depth :: outer) := by
  obtain ⟨hu, hm, -⟩ := Cursor.of_marked_cons hc
  rw [passOutcome_cons hu, FilterStep.next, if_neg ht, hm]
  rfl

theorem passOutcome_branch (hc : c.marked = (t, some m) :: ms) (hm : m ≠ .ifMarker)
    (hd : b.dropping = none ∨ b.dropping = some 0) :
    passOutcome env c (b :: outer) =
      (FilterStep.branch env m t c.tail b outer).outcome env t c.tail (b :: outer) := by
  obtain ⟨hu, hm', -⟩ := Cursor.of_marked_cons hc
  rw [passOutcome_cons hu, FilterStep.next, if_neg (kind_of_marked hc), hm']
  rcases hd with hd | hd <;> rw [hd] <;> cases m <;> first | rfl | exact (hm rfl).elim

end

/-! ## Dropped outlines -/

theorem Cursor.of_block {c : Cursor}
    (hc : c.marked = (Outline.block opener body branches rest).marked ++ more) :
    c.tail.marked = body.marked ++ (branches.marked ++ (rest.marked ++ more)) ∧
      (c.tail.drop body.marked.length).marked = branches.marked ++ (rest.marked ++ more) ∧
      ((c.tail.drop body.marked.length).drop branches.marked.length).marked = rest.marked ++ more ∧
      c.drop (Outline.block opener body branches rest).marked.length =
        ((c.tail.drop body.marked.length).drop branches.marked.length).drop rest.marked.length := by
  obtain ⟨-, -, h₁⟩ := Cursor.of_marked_cons hc
  replace h₁ : c.tail.marked = body.marked ++ (branches.marked ++ (rest.marked ++ more)) := by
    rw [h₁, List.append_eq, List.append_assoc, List.append_assoc]
  have h₂ := Cursor.marked_drop_append h₁
  refine ⟨h₁, h₂, Cursor.marked_drop_append h₂, ?_⟩
  rw [Outline.marked, List.length_cons, List.length_append, List.length_append, Cursor.drop_succ,
    Cursor.drop_add, Cursor.drop_add]

theorem Cursor.of_segment {c : Cursor} {body : Outline} {next : Branches}
    (hc : c.marked = ((t, m) :: (body.marked ++ next.marked)) ++ more) :
    c.tail.marked = body.marked ++ (next.marked ++ more) ∧
      (c.tail.drop body.marked.length).marked = next.marked ++ more ∧
      c.drop ((t, m) :: (body.marked ++ next.marked)).length =
        (c.tail.drop body.marked.length).drop next.marked.length := by
  obtain ⟨-, -, h₁⟩ := Cursor.of_marked_cons hc
  replace h₁ : c.tail.marked = body.marked ++ (next.marked ++ more) := by
    rw [h₁, List.append_eq, List.append_assoc]
  refine ⟨h₁, Cursor.marked_drop_append h₁, ?_⟩
  rw [List.length_cons, List.length_append, Cursor.drop_succ, Cursor.drop_add]

section
variable {b : Block} {outer : List Block}

mutual

/-- A pass reads over an outline in a dropped segment without a trace. -/
theorem Outline.skip {c : Cursor} {d n : Nat} :
    (s : Outline) → s.Plain → s.Fits more → c.marked = s.marked ++ more → n ≤ s.lead →
    passOutcome env (c.drop n) (b.skipping d :: outer) =
      passOutcome env (c.drop s.marked.length) (b.skipping d :: outer)
  | .done, _, _, _, hn => by
    obtain rfl := Nat.le_zero.mp hn
    rfl
  | .token t rest, hp, hf, hc, hn => by
    obtain ⟨-, -, hc'⟩ := Cursor.of_marked_cons hc
    cases n with
    | succ n => exact Outline.skip rest hp.2 hf hc' (Nat.le_of_succ_le_succ hn)
    | zero =>
      rw [Cursor.drop_zero, passOutcome_skipped hc hp.1]
      exact Outline.skip (n := 0) rest hp.2 hf hc' (Nat.zero_le _)
  | .block opener body branches rest, hp, hf, hc, hn => by
    obtain rfl := Nat.le_zero.mp hn
    obtain ⟨hpb, hpr, hps⟩ := hp
    obtain ⟨hfb, hfr, hfs⟩ := hf
    obtain ⟨hc₁, hc₂, hc₃, hlen⟩ := Cursor.of_block hc
    rw [hlen, Cursor.drop_zero, passOutcome_skipped hc (kind_of_marked hc)]
    calc passOutcome env (c.tail.drop 0) (b.skipping (d + 1) :: outer)
      _ = _ := body.skip hpb hfb hc₁ (Nat.zero_le _)
      _ = _ := branches.skip hpr hfr hc₂
      _ = _ := rest.skip (n := 0) hps hfs hc₃ (Nat.zero_le _)

theorem Branches.skip {c : Cursor} {d : Nat} :
    (br : Branches) → br.Plain → br.Fits more → c.marked = br.marked ++ more →
    passOutcome env c (b.skipping (d + 1) :: outer) =
      passOutcome env (c.drop br.marked.length) (b.skipping d :: outer)
  | .close t, _, _, hc => by
    rw [passOutcome_skipped hc (kind_of_marked hc)]
    rfl
  | .cut eof, _, ⟨hm, he⟩, hc => by
    subst hm
    have hc' := Cursor.marked_drop_append hc
    rw [List.append_nil] at hc
    rw [passOutcome_cut hc he, passOutcome_nil (Cursor.unread_eq_nil hc')]
    rfl
  | .orIf t body more, hp, hf, hc | .orElse t body more, hp, hf, hc => by
    obtain ⟨hc₁, hc₂, hlen⟩ := Cursor.of_segment hc
    rw [Branches.marked, hlen, passOutcome_skipped hc (kind_of_marked hc)]
    calc passOutcome env (c.tail.drop 0) (b.skipping (d + 1) :: outer)
      _ = _ := body.skip hp.1 hf.1 hc₁ (Nat.zero_le _)
      _ = _ := more.skip hp.2 hf.2 hc₂

end

end

/-! ## Kept outlines -/

theorem Block.enter_of_taken {b : Block} {holds : Bool} (h : b.taken = true) :
    b.enter holds = b.skipping 0 := by
  rw [enter, h, Bool.not_true, Bool.and_false]
  rfl

theorem Block.enter_of_untaken {b : Block} {holds : Bool} (h : b.taken = false) :
    b.enter holds = if holds then b.keep else b.skipping 0 := by
  rw [enter, h, Bool.not_false, Bool.and_true]
  rfl

/-- Behind a segment that has been kept a pass only checks the order of the markers. -/
theorem Branches.run_later {c : Cursor} {b : Block} {outer : List Block} (ht : b.taken = true)
    (hd : b.dropping = none ∨ b.dropping = some 0) (br : Branches) (hp : br.Plain)
    (hf : br.Fits more) (hc : c.marked = br.marked ++ more) :
    passOutcome env c (b :: outer) = (outcome env (br.later b.opener b.elseMet)).andThen
      (passOutcome env (c.drop br.marked.length) outer) := by
  cases br with
  | close t =>
    rw [passOutcome_branch hc (by decide) hd]
    rfl
  | cut eof =>
    obtain ⟨hm, he⟩ := hf
    subst hm
    rw [Branches.marked, List.append_nil] at hc
    rw [passOutcome_cut hc he]
    rfl
  | orIf t body more =>
    obtain ⟨hc₁, hc₂, hlen⟩ := Cursor.of_segment hc
    rw [passOutcome_branch hc (by decide) hd, FilterStep.branch, Branches.marked, hlen,
      Branches.later]
    cases hb : b.elseMet with
    | true => rfl
    | false =>
      rw [if_neg Bool.false_ne_true, if_pos ht, if_neg Bool.false_ne_true, List.nil_append]
      calc passOutcome env (c.tail.drop 0) (b.skipping 0 :: outer)
        _ = _ := body.skip hp.1 hf.1 hc₁ (Nat.zero_le _)
        _ = _ := Branches.run_later (b := b.skipping 0) ht (.inr rfl) more hp.2 hf.2 hc₂
        _ = _ := by rw [← hb]; rfl
  | orElse t body more =>
    obtain ⟨hc₁, hc₂, hlen⟩ := Cursor.of_segment hc
    rw [passOutcome_branch hc (by decide) hd, FilterStep.branch, Branches.marked, hlen,
      Branches.later]
    cases hb : b.elseMet with
    | true => rfl
    | false =>
      rw [if_neg Bool.false_ne_true, if_neg Bool.false_ne_true, List.nil_append,
        Block.enter_of_taken (b := { b with elseMet := true }) ht]
      exact (body.skip hp.1 hf.1 hc₁ (Nat.zero_le _)).trans
        (Branches.run_later (b := Block.skipping { b with elseMet := true } 0) ht (.inr rfl) more
          hp.2 hf.2 hc₂)
  termination_by structural br

mutual

/-- A pass over an outline in a kept segment brings what the trace of the outline brings. -/
theorem Outline.run {c : Cursor} {blocks : List Block} {n : Nat} (hk : Keeping blocks) :
    (s : Outline) → s.Guarded → blocks = [] ∨ s.Plain → s.Fits more →
    c.marked = s.marked ++ more → n ≤ s.lead →
    passOutcome env (c.drop n) blocks = (outcome env (s.events env n)).andThen
      (passOutcome env (c.drop s.marked.length) blocks)
  | .done, _, _, _, _, hn => by
    obtain rfl := Nat.le_zero.mp hn
    rfl
  | .token t rest, hg, hp, hf, hc, hn => by
    obtain ⟨-, -, hc'⟩ := Cursor.of_marked_cons hc
    have hp' : blocks = [] ∨ rest.Plain := hp.imp_right And.right
    cases n with
    | succ n => exact Outline.run hk rest hg hp' hf hc' (Nat.le_of_succ_le_succ hn)
    | zero =>
      have ih := Outline.run (n := 0) hk rest hg hp' hf hc' (Nat.zero_le _)
      rw [Cursor.drop_zero] at ih
      rw [Cursor.drop_zero, passOutcome_token hc hk (hp.imp_right And.left), ih, Outline.events,
        outcome_cons, Outcome.andThen_assoc]
      rfl
  | .block opener body branches rest, hg, hp, hf, hc, hn => by
    obtain rfl := Nat.le_zero.mp hn
    obtain ⟨hpb, hpr, hgs⟩ := hg
    obtain ⟨hfb, hfr, hfs⟩ := hf
    obtain ⟨hc₁, hc₂, hc₃, hlen⟩ := Cursor.of_block hc
    obtain ⟨hu, -, -⟩ := Cursor.of_marked_cons hc
    have hq := Query.behind_of_marked hc₁ hfr (lastLine_tail hu)
    have hl := Query.length_le hc₁ hfr (lastLine_tail hu)
    have ih := Outline.run (n := 0) hk rest hgs (hp.imp_right (·.2.2)) hfs hc₃ (Nat.zero_le _)
    rw [hlen, Cursor.drop_zero, passOutcome_opener hc hk, hq, Outline.events, outcome_cons,
      outcome_append, Outcome.andThen_assoc, Outcome.andThen_assoc, ← ih, Cursor.drop_zero,
      Block.enter_of_untaken rfl]
    congr 1
    cases (Query.ofSegment opener body branches).holds env with
    | true =>
      rw [if_pos rfl, if_pos rfl, outcome_append, Outcome.andThen_assoc]
      refine (Outline.run (.of_keep _ _) body hpb.guarded (.inr hpb) hfb hc₁ hl).trans ?_
      exact congrArg _ (Branches.run_later (b := Block.keep _) rfl (.inl rfl) branches hpr hfr hc₂)
    | false =>
      rw [if_neg Bool.false_ne_true, if_neg Bool.false_ne_true]
      refine (body.skip hpb hfb hc₁ hl).trans ?_
      exact Branches.run (b := Block.skipping ⟨opener.loc, false, false, none⟩ 0) rfl rfl (.inr rfl)
        branches hpr hfr hc₂

/-- A pass over the branches of a block brings what their trace brings. -/
theorem Branches.run {c : Cursor} {b : Block} {outer : List Block} (ht : b.taken = false)
    (he : b.elseMet = false) (hd : b.dropping = none ∨ b.dropping = some 0) :
    (br : Branches) → br.Plain → br.Fits more → c.marked = br.marked ++ more →
    passOutcome env c (b :: outer) = (outcome env (br.events env b.opener)).andThen
      (passOutcome env (c.drop br.marked.length) outer)
  | .close t, _, _, hc => by
    rw [passOutcome_branch hc nofun hd]
    rfl
  | .cut eof, _, ⟨hm, he⟩, hc => by
    subst hm
    rw [List.append_nil] at hc
    rw [passOutcome_cut hc he]
    rfl
  | .orIf t body more, hp, hf, hc => by
    obtain ⟨hc₁, hc₂, hlen⟩ := Cursor.of_segment hc
    obtain ⟨hu, -, -⟩ := Cursor.of_marked_cons hc
    have hq := Query.behind_of_marked hc₁ hf.2 (lastLine_tail hu)
    have hl := Query.length_le hc₁ hf.2 (lastLine_tail hu)
    rw [passOutcome_branch hc nofun hd, FilterStep.branch, he, ht, Branches.marked, hlen,
      Branches.events]
    refine (outcome_byCondition (lastLine_tail hu)).trans ?_
    rw [hq, outcome_cons, Outcome.andThen_assoc, Block.enter_of_untaken ht]
    congr 1
    cases (Query.ofSegment t body more).holds env with
    | true =>
      rw [if_pos rfl, if_pos rfl, outcome_append, Outcome.andThen_assoc]
      refine (Outline.run (.of_keep _ _) body hp.1.guarded (.inr hp.1) hf.1 hc₁ hl).trans ?_
      rw [← he]
      exact congrArg _ (Branches.run_later (b := b.keep) rfl (.inl rfl) more hp.2 hf.2 hc₂)
    | false =>
      rw [if_neg Bool.false_ne_true, if_neg Bool.false_ne_true]
      refine (body.skip hp.1 hf.1 hc₁ hl).trans ?_
      exact Branches.run (b := b.skipping 0) ht he (.inr rfl) more hp.2 hf.2 hc₂
  | .orElse t body more, hp, hf, hc => by
    obtain ⟨hc₁, hc₂, hlen⟩ := Cursor.of_segment hc
    rw [passOutcome_branch hc nofun hd, FilterStep.branch, he, Branches.marked, hlen,
      Branches.events, outcome_append, Outcome.andThen_assoc, if_neg Bool.false_ne_true,
      Block.enter_of_untaken (b := { b with elseMet := true }) ht, if_pos rfl]
    refine (Outline.run (n := 0) (.of_keep _ _) body hp.1.guarded (.inr hp.1) hf.1 hc₁
      (Nat.zero_le _)).trans ?_
    exact congrArg _ (Branches.run_later (b := Block.keep _) rfl (.inl rfl) more hp.2 hf.2 hc₂)

end

/-! ## Whole streams -/

theorem Outline.run_start {s : Outline} (hg : s.Guarded) (hf : s.Fits more)
    (hm : classify ts = s.marked ++ more) :
    passOutcome env (.start ts) [] = (outcome env (s.events env 0)).andThen
      (passOutcome env ((Cursor.start ts).drop s.marked.length) []) :=
  s.run (n := 0) (by simp [Keeping]) hg (.inl rfl) hf hm (Nat.zero_le _)

theorem Outline.run_whole {s : Outline} (hg : s.Guarded) (hf : s.Fits [])
    (hm : classify ts = s.marked) :
    passOutcome env (.start ts) [] = outcome env (s.events env 0) := by
  rw [← List.append_nil s.marked] at hm
  have hend := Cursor.unread_eq_nil (Cursor.marked_drop_append (c := .start ts) hm)
  rw [s.run_start hg hf hm, passOutcome_nil hend]
  exact Outcome.andThen_empty _

end HashIf
