import HashIf.Proofs.Condition.Stepwise
import HashIf.Proofs.Filter.Run

/-! The pass as a program of loops that call one another: one over the stream, one over the branches
of a block, and one over the tokens of a branch, kept or dropped. The loops take their tokens one at
a time, and a token taken at the end of the stream would halt them so. From wherever a pass stands
they end as `filterFrom` does, given enough depth for their calls. -/

namespace HashIf

/-! ## Loops -/

/-- Where a pass stands: the cursor, and the tokens kept so far. -/
structure Pass where
  cursor : Cursor
  kept : Array Token

/-- Steps of a pass. -/
abbrev Passing := Stepwise Pass

namespace Passing

open Stepwise (never fail ofExcept)

/-- Steps that read tokens, within a pass. -/
def reading (m : Reading α) : Passing α := ExceptT.mk fun s =>
  (m.ending s.cursor).map fun r => (r.1, { s with cursor := r.2 })

def take : Passing Token := reading Reading.take

def keep (t : Token) : Passing Unit := modify fun s => { s with kept := s.kept.push t }

def marker? : Passing (Option Marker) := return (← get).cursor.marker?

def structural (loc : Location) (fault : StructureFault) : Passing α :=
  fail (.diagnostic (.structural loc fault))

section
variable (env : Environment)

/-- Reads the condition behind a marker, and gives its truth. -/
def truth (depth : Nat) (t : Token) : Passing Bool := do
  ofExcept ((← reading (Reading.parse t depth)).evaluate env)

/-- Drops tokens up to the marker that ends the branch, in which `inner` blocks are open. -/
def skipBody (depth : Nat) (opener : Location) (inner : Nat) : Passing Unit :=
  match depth with
  | 0 => never
  | depth + 1 => do
    if (← get).cursor.atEof then structural opener .openBlock
    else
      match ← marker?, inner with
      | some .ifMarker, inner => do
        let _ ← take
        skipBody depth opener (inner + 1)
      | some _, 0 => return ()
      | some .endMarker, inner + 1 => do
        let _ ← take
        skipBody depth opener inner
      | _, inner => do
        let _ ← take
        skipBody depth opener inner

mutual

/-- Keeps tokens up to the marker that ends the branch. -/
def emitBody (depth : Nat) (opener : Location) : Passing Unit :=
  match depth with
  | 0 => never
  | depth + 1 => do
    if (← get).cursor.atEof then structural opener .openBlock
    else
      match ← marker? with
      | some .ifMarker => do
        block depth
        emitBody depth opener
      | some _ => return ()
      | none => do
        keep (← take)
        emitBody depth opener

/-- Goes through the branches of a block behind the first, from the marker of the next one on. -/
def branches (depth : Nat) (opener : Location) (taken elseMet : Bool) : Passing Unit :=
  match depth with
  | 0 => never
  | depth + 1 => do
    let m ← marker?
    let t ← take
    match m with
    | some .elifMarker =>
      if elseMet then structural t.loc .elifAfterElse
      else if taken then do
        skipBody depth opener 0
        branches depth opener taken elseMet
      else do
        let taken ← truth env depth t
        (if taken then emitBody depth opener else skipBody depth opener 0)
        branches depth opener taken elseMet
    | some .elseMarker =>
      if elseMet then structural t.loc .repeatedElse
      else do
        (if taken then skipBody depth opener 0 else emitBody depth opener)
        branches depth opener true true
    | _ => return ()

def block (depth : Nat) : Passing Unit :=
  match depth with
  | 0 => never
  | depth + 1 => do
    let t ← take
    let taken ← truth env depth t
    (if taken then emitBody depth t.loc else skipBody depth t.loc 0)
    branches depth t.loc taken false

end

def stream (depth : Nat) : Passing Unit :=
  match depth with
  | 0 => never
  | depth + 1 => do
    if (← get).cursor.atEnd then return ()
    else
      match ← marker? with
      | none => do
        keep (← take)
        stream depth
      | some .ifMarker => do
        block env depth
        stream depth
      | some m => do
        let t ← take
        structural t.loc (.unmatched m)

/-- The rest of the current branch of a block. -/
def body (depth : Nat) (b : Block) : Passing Unit :=
  match b.dropping with
  | none => emitBody env depth b.opener
  | some inner => skipBody depth b.opener inner

/-- An open block with the depths left to its current branch and to the branches behind that. -/
structure Frame where
  block : Block
  within : Nat
  behind : Nat

/-- The rest of a pass in open blocks, the innermost first. -/
def unwind (depth : Nat) : List Frame → Passing Unit
  | [] => stream env depth
  | f :: outer => do
    body env f.within f.block
    branches env f.behind f.block.opener f.block.taken f.block.elseMet
    unwind depth outer

def resume (depth : Nat) (blocks : List Block) : Passing Unit :=
  unwind env depth (blocks.map (⟨·, depth, depth⟩))

end

end Passing

/-! ## The end of a pass -/

/-- The end of a pass as one of the loops. -/
def Filtered.ending (r : Filtered) : Except Halt Unit × Pass :=
  (match r.failure with
    | none => .ok ()
    | some f => .error (.failure f), ⟨r.cursor, r.tokens.toArray⟩)

section
variable {env : Environment} {c : Cursor} {kept : Array Token}

/-- The end of a pass that goes on by a step at the token `t`. -/
def FilterStep.ending (env : Environment) (c : Cursor) (kept : Array Token) (t : Token)
    (blocks : List Block) : FilterStep → Except Halt Unit × Pass
  | .keep => (filterFrom env (kept.push t) c.tail blocks).ending
  | .drop skipped blocks => (filterFrom env kept (c.tail.drop skipped) blocks).ending
  | .fail f read => (.error (.failure f), ⟨c.drop read, kept⟩)

theorem ending_filterFrom (hu : c.unread = t :: ts) (blocks : List Block) :
    (filterFrom env kept c blocks).ending =
      (FilterStep.next env t c blocks).ending env c kept t blocks := by
  rw [filterFrom_cons hu]
  cases FilterStep.next env t c blocks <;> rfl

namespace Passing

@[simp] theorem ending_reading {m : Reading α} {s : Pass} :
    (reading m).ending s = (m.ending s.cursor).map fun r => (r.1, { s with cursor := r.2 }) := rfl

theorem ending_take (h : c.unread = t :: ts) :
    take.ending ⟨c, kept⟩ = some (.ok t, ⟨c.tail, kept⟩) := by
  simp [take, Reading.take, Cursor.read?, h]

theorem ending_keep : (keep t).ending ⟨c, kept⟩ = some (.ok (), ⟨c, kept.push t⟩) := rfl

theorem ending_marker? : marker?.ending ⟨c, kept⟩ = some (.ok c.marker?, ⟨c, kept⟩) := rfl

@[simp] theorem ending_structural (s : Pass) :
    (structural (α := α) loc fault).ending s =
      some (.error (.failure (.diagnostic (.structural loc fault))), s) := rfl

/-! ## Steps of the loops

A token takes the loops one call deeper at most, but the parser several: five for each token are
enough for both. -/

/-- The depths are enough for `length` tokens. -/
structure Deep (length depth : Nat) (frames : List Frame) : Prop where
  stream : length * 5 + 8 ≤ depth
  blocks : ∀ f ∈ frames, length * 5 + 8 ≤ f.within ∧ length * 5 + 8 ≤ f.behind

theorem Deep.mono (h : Deep length depth frames) (hl : shorter ≤ length) :
    Deep shorter depth frames where
  stream := by have := h.stream; omega
  blocks f hf := by have := h.blocks f hf; omega

theorem deep_cons : Deep length depth (⟨b, within, behind⟩ :: frames) ↔
    length * 5 + 8 ≤ within ∧ length * 5 + 8 ≤ behind ∧ Deep length depth frames := by
  constructor
  · intro h
    obtain ⟨⟨hw, hb⟩, hf⟩ := List.forall_mem_cons.mp h.blocks
    exact ⟨hw, hb, h.stream, hf⟩
  · rintro ⟨hw, hb, h⟩
    exact ⟨h.stream, List.forall_mem_cons.mpr ⟨⟨hw, hb⟩, h.blocks⟩⟩

/-- From the cursor on the loops end as a pass does, given depth for `length` tokens. -/
def Goes (env : Environment) (length : Nat) (c : Cursor) : Prop :=
  ∀ kept depth frames, Deep length depth frames →
    (unwind env depth frames).ending ⟨c, kept⟩ =
      some (filterFrom env kept c (frames.map Frame.block)).ending

theorem body_kept {b : Block} (h : b.dropping = none) :
    body env depth b = emitBody env depth b.opener := by
  rw [body, h]

theorem body_dropped {b : Block} {inner : Nat} (h : b.dropping = some inner) :
    body env depth b = skipBody depth b.opener inner := by
  rw [body, h]

theorem unwind_enter (b : Block) (ht : b.taken = false) (holds : Bool) :
    unwind env depth (⟨b.enter holds, n, n⟩ :: outer) = (do
      (if holds then emitBody env n b.opener else skipBody n b.opener 0)
      branches env n b.opener holds b.elseMet
      unwind env depth outer) := by
  cases holds <;> simp [unwind, body, Block.enter, Block.keep, Block.drop, ht]

section
variable (hu : c.unread = t :: ts) (hgo : ∀ k, Goes env ts.length (c.tail.drop k))

include hu hgo

/-- Behind a marker, where a condition is read by which the block goes on in a new branch. -/
theorem ending_truth (b : Block) (ht : b.taken = false) (hd : Deep ts.length depth outer)
    (hn : ts.length * 5 + 8 ≤ n) :
    (truth env n t >>= fun holds => do
      (if holds then emitBody env n b.opener else skipBody n b.opener 0)
      branches env n b.opener holds b.elseMet
      unwind env depth outer).ending ⟨c.tail, kept⟩ =
      some ((FilterStep.byCondition env t c.tail
        fun holds => b.enter holds :: outer.map Frame.block).ending env c kept t blocks) := by
  have hlen : (Header.ofCursor t c.tail).tokens.length ≤ ts.length := by
    simpa [Header.ofCursor, hu] using (prefix_headerTokens c.tail.lastLine c.tail.unread).length_le
  have h : (Reading.parse t n).ending c.tail =
      some ((c.tail.condition t).1.mapError Halt.failure, c.tail.drop (c.tail.condition t).2) :=
    Reading.parse_agrees (by omega) c.tail rfl
  simp only [← unwind_enter b ht, truth, FilterStep.byCondition]
  rcases hc : c.tail.condition t with ⟨e | cond, read⟩
  · rw [hc] at h
    simp [h, FilterStep.ending, Except.mapError, Nat.add_comm 1, Cursor.drop]
  · rw [hc] at h
    cases he : cond.evaluate env with
    | error f => simp [h, he, FilterStep.ending, Except.mapError, Nat.add_comm 1, Cursor.drop]
    | ok holds =>
      simp only [Stepwise.ending_bind, ending_reading, h, Option.map_some, Option.bind_some,
        Stepwise.ending_ofExcept, he, Except.mapError]
      exact hgo read kept depth _ (deep_cons.mpr ⟨hn, hn, hd⟩)

/-- At the marker of the next branch of the innermost block. -/
theorem ending_branches (hm : c.marker? = some m) (hi : m ≠ .ifMarker) (b : Block)
    (hd : Deep (ts.length + 1) depth outer) (hb : (ts.length + 1) * 5 + 8 ≤ behind) :
    (branches env behind b.opener b.taken b.elseMet >>= fun _ => unwind env depth outer).ending
        ⟨c, kept⟩ =
      some ((FilterStep.branch env m t c.tail b (outer.map Frame.block)).ending env c kept t
        blocks) := by
  obtain ⟨n, rfl⟩ : ∃ n, behind = n + 1 := Nat.exists_eq_add_one_of_ne_zero (by omega)
  replace hd : Deep ts.length depth outer := hd.mono (Nat.le_succ _)
  have hnew (b : Block) : Deep ts.length depth (⟨b, n, n⟩ :: outer) :=
    deep_cons.mpr ⟨by omega, by omega, hd⟩
  rw [branches, bind_assoc, Stepwise.ending_bind_ok ending_marker?, bind_assoc,
    Stepwise.ending_bind_ok (ending_take hu), hm]
  cases m with
  | ifMarker => exact (hi rfl).elim
  | endMarker => exact hgo 0 kept depth outer hd
  | elseMarker =>
    show Stepwise.ending ((if b.elseMet then _ else _) >>= _) _ =
      some (FilterStep.ending env c kept t _ (if b.elseMet then _ else _))
    by_cases he : b.elseMet = true
    · rw [if_pos he, if_pos he]
      rfl
    · rw [if_neg he, if_neg he, bind_assoc]
      refine Eq.trans ?_ (hgo 0 kept depth _ (hnew _))
      obtain ⟨opener, taken, elseMet, dropping⟩ := b
      cases taken <;> rfl
  | elifMarker =>
    show Stepwise.ending ((if b.elseMet then _ else if b.taken then _ else _) >>= _) _ =
      some (FilterStep.ending env c kept t _ (if b.elseMet then _ else if b.taken then _ else _))
    by_cases he : b.elseMet = true
    · rw [if_pos he, if_pos he]
      rfl
    by_cases ht : b.taken = true
    · rw [if_neg he, if_neg he, if_pos ht, if_pos ht, bind_assoc]
      exact hgo 0 kept depth _ (hnew b.drop)
    · rw [if_neg he, if_neg he, if_neg ht, if_neg ht]
      simp only [bind_assoc]
      exact ending_truth hu hgo b (Bool.eq_false_iff.mpr ht) hd (by omega)

/-- At a marker that opens a block in the open blocks `outer`. -/
theorem ending_block (hd : Deep ts.length depth outer) (hn : ts.length * 5 + 9 ≤ n) :
    (block env n >>= fun _ => unwind env depth outer).ending ⟨c, kept⟩ =
      some ((FilterStep.openBlock env t c.tail (outer.map Frame.block)).ending env c kept t
        blocks) := by
  obtain ⟨m, rfl⟩ : ∃ m, n = m + 1 := Nat.exists_eq_add_one_of_ne_zero (by omega)
  rw [block, bind_assoc, Stepwise.ending_bind_ok (ending_take hu)]
  simp only [bind_assoc]
  exact ending_truth hu hgo ⟨t.loc, false, false, none⟩ rfl hd (by omega)

theorem ending_top (hd : Deep (ts.length + 1) depth []) :
    (unwind env depth []).ending ⟨c, kept⟩ =
      some ((FilterStep.atTop env c.marker? t c.tail).ending env c kept t []) := by
  have hn := hd.stream
  obtain ⟨n, rfl⟩ : ∃ n, depth = n + 1 := Nat.exists_eq_add_one_of_ne_zero (by omega)
  replace hd : Deep ts.length n [] := ⟨by omega, nofun⟩
  have hc : c.atEnd = false := by simp [Cursor.atEnd, hu]
  rw [unwind, stream, Stepwise.ending_bind_ok Stepwise.ending_get]
  show Stepwise.ending (if c.atEnd then _ else _) _ = _
  rw [hc, if_neg Bool.false_ne_true, Stepwise.ending_bind_ok ending_marker?]
  cases c.marker? with
  | none =>
    rw [Stepwise.ending_bind_ok (ending_take hu), Stepwise.ending_bind_ok ending_keep]
    exact hgo 0 (kept.push t) n [] hd
  | some m =>
    cases m with
    | ifMarker => exact ending_block hu hgo hd (by omega)
    | elifMarker | elseMarker | endMarker =>
      rw [Stepwise.ending_bind_ok (ending_take hu)]
      rfl

/-- At a token of a branch that is kept. -/
theorem ending_kept (he : c.atEof = false) (hf : f.block.dropping = none)
    (hd : Deep (ts.length + 1) depth (f :: outer)) :
    (unwind env depth (f :: outer)).ending ⟨c, kept⟩ =
      some ((FilterStep.inKept env c.marker? t c.tail f.block (outer.map Frame.block)).ending env c
        kept t ((f :: outer).map Frame.block)) := by
  obtain ⟨b, within, behind⟩ := f
  obtain ⟨hw, hb, hout⟩ := deep_cons.mp hd
  obtain ⟨n, rfl⟩ : ∃ n, within = n + 1 := Nat.exists_eq_add_one_of_ne_zero (by omega)
  have hrest (n : Nat) : unwind env depth (⟨b, n, behind⟩ :: outer) =
      emitBody env n b.opener >>= fun _ =>
        branches env behind b.opener b.taken b.elseMet >>= fun _ => unwind env depth outer := by
    rw [unwind, body_kept hf]
  replace hd : Deep ts.length depth (⟨b, n, behind⟩ :: outer) :=
    deep_cons.mpr ⟨by omega, by omega, hout.mono (Nat.le_succ _)⟩
  rw [hrest, emitBody, bind_assoc, Stepwise.ending_bind_ok Stepwise.ending_get]
  show Stepwise.ending ((if c.atEof then _ else _) >>= _) _ = _
  rw [he, if_neg Bool.false_ne_true, bind_assoc, Stepwise.ending_bind_ok ending_marker?]
  cases hm : c.marker? with
  | none =>
    show ((take >>= fun t => keep t >>= fun _ => emitBody env n b.opener) >>= _).ending _ = _
    rw [bind_assoc, Stepwise.ending_bind_ok (ending_take hu), bind_assoc,
      Stepwise.ending_bind_ok ending_keep, ← hrest]
    exact hgo 0 (kept.push t) depth _ hd
  | some m =>
    cases m with
    | ifMarker =>
      show ((block env n >>= fun _ => emitBody env n b.opener) >>= _).ending _ = _
      rw [bind_assoc, ← hrest]
      exact ending_block hu hgo hd (by omega)
    | elifMarker | elseMarker | endMarker => exact ending_branches hu hgo hm (by decide) b hout hb

/-- At a token of a branch that is dropped. -/
theorem ending_dropped {inner : Nat} (he : c.atEof = false) (hf : f.block.dropping = some inner)
    (hd : Deep (ts.length + 1) depth (f :: outer)) :
    (unwind env depth (f :: outer)).ending ⟨c, kept⟩ =
      some ((FilterStep.inDropped env c.marker? t c.tail f.block (outer.map Frame.block)
        inner).ending env c kept t ((f :: outer).map Frame.block)) := by
  obtain ⟨⟨opener, taken, elseMet, dropping⟩, within, behind⟩ := f
  obtain ⟨hw, hb, hout⟩ := deep_cons.mp hd
  obtain ⟨n, rfl⟩ : ∃ n, within = n + 1 := Nat.exists_eq_add_one_of_ne_zero (by omega)
  cases hf
  have hskip (inner : Nat) :
      ((take >>= fun _ => skipBody n opener inner) >>= fun _ =>
          branches env behind opener taken elseMet >>= fun _ => unwind env depth outer).ending
          ⟨c, kept⟩ =
        some (filterFrom env kept c.tail
          (⟨opener, taken, elseMet, some inner⟩ :: outer.map Frame.block)).ending := by
    rw [bind_assoc, Stepwise.ending_bind_ok (ending_take hu)]
    exact hgo 0 kept depth (⟨⟨opener, taken, elseMet, some inner⟩, n, behind⟩ :: outer)
      (deep_cons.mpr ⟨by omega, by omega, hout.mono (Nat.le_succ _)⟩)
  rw [unwind, body_dropped rfl, skipBody, bind_assoc, Stepwise.ending_bind_ok Stepwise.ending_get]
  show Stepwise.ending ((if c.atEof then _ else _) >>= _) _ = _
  rw [he, if_neg Bool.false_ne_true, bind_assoc, Stepwise.ending_bind_ok ending_marker?]
  cases hm : c.marker? with
  | none => cases inner <;> exact hskip _
  | some m =>
    cases m with
    | ifMarker => exact hskip (inner + 1)
    | elifMarker | elseMarker | endMarker =>
      cases inner with
      | zero =>
        exact ending_branches hu hgo hm (by decide) ⟨opener, taken, elseMet, some 0⟩ hout hb
      | succ inner => exact hskip _

end

theorem ending_openAtEnd (h : c.atEof = true) (hw : f.within ≠ 0) :
    (unwind env depth (f :: outer)).ending ⟨c, kept⟩ =
      some (.error (.failure (FilterStep.openAtEnd f.block)), ⟨c, kept⟩) := by
  obtain ⟨n, hn⟩ := Nat.exists_eq_succ_of_ne_zero hw
  refine Stepwise.ending_bind_error ?_
  rw [hn]
  cases hd : f.block.dropping with
  | none =>
    rw [body_kept hd, emitBody]
    simp [h, FilterStep.openAtEnd]
  | some inner =>
    rw [body_dropped hd, skipBody]
    simp [h, FilterStep.openAtEnd]

/-- A loop takes a token, and goes on behind it as the pass does. -/
theorem goes_cons (hu : c.unread = t :: ts) (hgo : ∀ k, Goes env ts.length (c.tail.drop k)) :
    Goes env (ts.length + 1) c := by
  intro kept depth frames hd
  rw [ending_filterFrom hu]
  cases frames with
  | nil => exact ending_top hu hgo hd
  | cons f outer =>
    have he : c.atEof = decide (t.kind = .eof) := by simp [Cursor.atEof, hu]
    rw [List.map_cons, FilterStep.next]
    by_cases ht : t.kind = .eof
    · rw [if_pos ht]
      have hw := (hd.blocks f (List.mem_cons_self ..)).1
      exact ending_openAtEnd (he.trans (decide_eq_true ht)) (by omega)
    rw [if_neg ht]
    cases hf : f.block.dropping with
    | none => exact ending_kept hu hgo (he.trans (decide_eq_false ht)) hf hd
    | some inner => exact ending_dropped hu hgo (he.trans (decide_eq_false ht)) hf hd

theorem goes (env : Environment) (c : Cursor) : Goes env c.unread.length c := by
  induction c using Cursor.forward with
  | nil c hu =>
    intro kept depth frames hd
    rw [filterFrom_nil hu]
    cases frames with
    | nil =>
      have hn := hd.stream
      obtain ⟨n, rfl⟩ : ∃ n, depth = n + 1 := Nat.exists_eq_add_one_of_ne_zero (by omega)
      rw [unwind, stream]
      simp [Cursor.atEnd, hu, Filtered.ending]
    | cons f outer =>
      have hw := (hd.blocks f (List.mem_cons_self ..)).1
      rw [ending_openAtEnd (by simp [Cursor.atEof, hu]) (by omega)]
      rfl
  | cons c t ts hu ih =>
    rw [hu]
    refine goes_cons hu fun k kept depth frames hd => ih k kept depth frames (hd.mono ?_)
    simp [hu]

/-- Enough depth is some for every token that is left. -/
theorem resume_ends (env : Environment) (c : Cursor) (kept : Array Token) (blocks : List Block) :
    Stepwise.Ends (fun depth => resume env depth blocks) ⟨c, kept⟩
      (filterFrom env kept c blocks).ending := by
  refine ⟨c.unread.length * 5 + 8, fun depth hd => ?_⟩
  have hb : (blocks.map fun b => Frame.mk b depth depth).map Frame.block = blocks := by
    simp [Function.comp_def]
  have h := goes env c kept depth (blocks.map (⟨·, depth, depth⟩)) ⟨hd, by simp [hd]⟩
  rwa [hb] at h

end Passing

end

/-! ## Reading on at the end -/

/-- Nothing reads on where a header or the stream is over. Calls of the parser on one cursor, in any
order and whatever became of those before, read only tokens of the header in front of the first
call: none of them begins a line or stands for the end of the source. A pass may go on from any
cursor in any open blocks. Given enough depth both end as the steps on headers and the pass by
single steps do, and never for want of a token. -/
theorem reads_within_header (d : Token) (c : Cursor) :
    (∀ calls : List HeaderCall, ∃ n,
      Stepwise.Ends (fun depth => HeaderCall.run d depth calls) c
          (.ok ((HeaderCall.answers d calls c).1.map (·.mapError .failure)), c.drop n) ∧
        (HeaderCall.answers d calls c).2 = c.drop n ∧
        (∀ k < n, (c.drop k).atHeaderEnd = false) ∧
        .error .exhausted ∉ (HeaderCall.answers d calls c).1.map (·.mapError Halt.failure)) ∧
    ∀ (env : Environment) (kept : Array Token) (blocks : List Block),
      Stepwise.Ends (fun depth => Passing.resume env depth blocks) ⟨c, kept⟩
          (filterFrom env kept c blocks).ending ∧
        (filterFrom env kept c blocks).ending.1 ≠ .error .exhausted := by
  refine ⟨fun calls => ?_, fun env kept blocks => ⟨Passing.resume_ends env c kept blocks, ?_⟩⟩
  · obtain ⟨n, hn, hc⟩ := HeaderCall.answers_within d calls (c := c) rfl
    have hwithin (k : Nat) (hk : k < n) : (c.drop k).atHeaderEnd = false :=
      Header.not_atEnd_of_lt (d := d) rfl (Nat.lt_of_lt_of_le hk hn)
    refine ⟨n, ?_, hc, hwithin, fun h => ?_⟩
    · rw [← hc]
      exact ⟨_, fun depth hd => HeaderCall.ending_run d calls rfl hd⟩
    · obtain ⟨r, -, hr⟩ := List.mem_map.mp h
      cases r <;> cases hr
  · unfold Filtered.ending
    cases (filterFrom env kept c blocks).failure <;> nofun

end HashIf
