import HashIf.Proofs.Condition.Reading
import HashIf.Proofs.Filter.Run
import Mathlib

/-! Selection: a pass keeps of every block the first segment whose condition is true, or else the
`#else` segment, and nothing that is not kept has a say in it. -/

namespace HashIf

/-! ## Conditions that hold in an environment -/

namespace Query

variable {q q' : Query}

theorem truth_of_tokens (h : q.header.tokens = q'.header.tokens) (hq : q.truth env = .ok b) :
    q'.truth env = .ok b ∧ q'.length = q.length := by
  obtain ⟨m, ts, stop⟩ := q
  obtain ⟨m', ts', stop'⟩ := q'
  obtain rfl : ts = ts' := h
  simp only [truth, parsed, length] at hq ⊢
  cases hp : (Header.parse stop m ts).result with
  | error f => rw [hp] at hq; cases hq
  | ok cond =>
    rw [hp] at hq
    have agree : (Header.parse stop m ts).Agree (Header.parse stop' m' ts) := Header.parse_agree
    obtain ⟨hp', hr⟩ := agree.of_ok hp
    rw [hp', hr]
    exact ⟨hq, rfl⟩

theorem holds_of_truth (h : q.truth env = .ok b) : q.holds env = b := by rw [holds, h]

end Query

section
variable (env : Environment)

/-! ## Selected tokens and consulted conditions -/

mutual

/-- The tokens that an outline stands for, without its first `skipped` tokens: its own, and for
every block what the segment stands for that is selected. -/
def Outline.kept : (skipped : Nat) → Outline → List Token
  | _, .done => []
  | 0, .token t rest => t :: rest.kept 0
  | skipped + 1, .token _ rest => rest.kept skipped
  | _, .block opener body branches rest =>
    let q := Query.ofSegment opener body branches
    (if q.holds env then body.kept q.length else branches.kept) ++ rest.kept 0

def Branches.kept : Branches → List Token
  | .close _ | .cut _ => []
  | .orIf t body more =>
    let q := Query.ofSegment t body more
    if q.holds env then body.kept q.length else more.kept
  | .orElse _ body _ => body.kept 0

end

mutual

/-- The conditions that the selection in an outline depends on, in the order of the stream. -/
def Outline.consulted : Outline → List Query
  | .done => []
  | .token _ rest => rest.consulted
  | .block opener body branches rest =>
    let q := Query.ofSegment opener body branches
    q :: ((if q.holds env then body.consulted else branches.consulted) ++ rest.consulted)

def Branches.consulted : Branches → List Query
  | .close _ | .cut _ => []
  | .orIf t body more =>
    let q := Query.ofSegment t body more
    q :: if q.holds env then body.consulted else more.consulted
  | .orElse _ body _ => body.consulted

end

end

/-! ## Outlines that differ where nothing is selected -/

mutual

/-- Two outlines, each without its first `skipped` tokens, have the same tokens outside blocks, the
same headers that are consulted and alike segments that are selected. Nothing relates the segments
that are not selected, nor the headers behind a condition that is true. -/
inductive Outline.Alike (env : Environment) : (skipped : Nat) → Outline → Outline → Prop
  | done : Outline.Alike env n .done .done
  | token (hr : rest.Alike env 0 rest') :
    Outline.Alike env 0 (.token t rest) (.token t rest')
  | header (hr : rest.Alike env n rest') :
    Outline.Alike env (n + 1) (.token t rest) (.token t' rest')
  | selected (ht : (Query.ofSegment opener body branches).header.tokens =
      (Query.ofSegment opener' body' branches').header.tokens)
    (hq : (Query.ofSegment opener body branches).holds env = true)
    (hs : body.Alike env (Query.ofSegment opener body branches).length body')
    (hr : rest.Alike env 0 rest') :
    Outline.Alike env n (.block opener body branches rest) (.block opener' body' branches' rest')
  | passed (ht : (Query.ofSegment opener body branches).header.tokens =
      (Query.ofSegment opener' body' branches').header.tokens)
    (hq : (Query.ofSegment opener body branches).holds env = false)
    (hs : branches.Alike env branches') (hr : rest.Alike env 0 rest') :
    Outline.Alike env n (.block opener body branches rest) (.block opener' body' branches' rest')

/-- Two blocks neither of whose first segments is selected are alike behind them. -/
inductive Branches.Alike (env : Environment) : Branches → Branches → Prop
  | close : Branches.Alike env (.close t) (.close t')
  | selected (ht : (Query.ofSegment t body more).header.tokens =
      (Query.ofSegment t' body' more').header.tokens)
    (hq : (Query.ofSegment t body more).holds env = true)
    (hs : body.Alike env (Query.ofSegment t body more).length body') :
    Branches.Alike env (.orIf t body more) (.orIf t' body' more')
  | passed (ht : (Query.ofSegment t body more).header.tokens =
      (Query.ofSegment t' body' more').header.tokens)
    (hq : (Query.ofSegment t body more).holds env = false) (hs : more.Alike env more') :
    Branches.Alike env (.orIf t body more) (.orIf t' body' more')
  | orElse (hs : body.Alike env 0 body') :
    Branches.Alike env (.orElse t body more) (.orElse t' body' more')

end

section
variable {env : Environment}

/-! ## Traces select -/

theorem Branches.keptOf_later {opener : Location} {elseMet : Bool} (br : Branches) :
    keptOf (br.later opener elseMet) = [] := by
  cases br with
  | close _ | cut _ => rfl
  | orIf _ _ more | orElse _ _ more =>
    rw [later, keptOf_append, more.keptOf_later, List.append_nil]
    cases elseMet <;> rfl
  termination_by structural br

theorem Branches.queries_later {opener : Location} {elseMet : Bool} (br : Branches) :
    (br.later opener elseMet).filterMap Event.query? = [] := by
  cases br with
  | close _ | cut _ => rfl
  | orIf _ _ more | orElse _ _ more =>
    rw [later, List.filterMap_append, more.queries_later, List.append_nil]
    cases elseMet <;> rfl
  termination_by structural br

mutual

theorem Outline.keptOf_events : (n : Nat) → (s : Outline) →
    keptOf (s.events env n) = s.kept env n
  | _, .done => by simp [Outline.events, Outline.kept, keptOf]
  | 0, .token t rest => congrArg (t :: ·) (rest.keptOf_events 0)
  | n + 1, .token t rest => rest.keptOf_events n
  | n, .block opener body branches rest => by
    have hr := rest.keptOf_events 0
    rw [Outline.events, Outline.kept, keptOf_consult, keptOf_append, hr]
    congr 1
    split
    · rw [keptOf_append, body.keptOf_events, branches.keptOf_later, List.append_nil]
    · exact branches.keptOf_events

theorem Branches.keptOf_events {opener : Location} : (br : Branches) →
    keptOf (br.events env opener) = br.kept env
  | .close _ | .cut _ => rfl
  | .orIf t body more => by
    rw [Branches.events, Branches.kept, keptOf_consult]
    split
    · rw [keptOf_append, body.keptOf_events, more.keptOf_later, List.append_nil]
    · exact more.keptOf_events
  | .orElse _ body more => by
    rw [Branches.events, Branches.kept, keptOf_append, body.keptOf_events, more.keptOf_later,
      List.append_nil]

end

mutual

theorem Outline.queries_events : (n : Nat) → (s : Outline) →
    (s.events env n).filterMap Event.query? = s.consulted env
  | _, .done => by simp [Outline.events, Outline.consulted]
  | 0, .token t rest => rest.queries_events 0
  | n + 1, .token t rest => rest.queries_events n
  | n, .block opener body branches rest => by
    rw [Outline.events, Outline.consulted, List.filterMap_cons]
    refine congrArg (_ :: ·) ?_
    rw [List.filterMap_append, rest.queries_events 0]
    congr 1
    split
    · rw [List.filterMap_append, body.queries_events, branches.queries_later, List.append_nil]
    · exact branches.queries_events

theorem Branches.queries_events {opener : Location} : (br : Branches) →
    (br.events env opener).filterMap Event.query? = br.consulted env
  | .close _ | .cut _ => rfl
  | .orIf t body more => by
    rw [Branches.events, Branches.consulted, List.filterMap_cons]
    refine congrArg (_ :: ·) ?_
    split
    · rw [List.filterMap_append, body.queries_events, more.queries_later, List.append_nil]
    · exact more.queries_events
  | .orElse _ body more => by
    rw [Branches.events, Branches.consulted, List.filterMap_append, body.queries_events,
      more.queries_later, List.append_nil]

end

/-! ## Proper outlines -/

theorem Branches.Proper.faultsOf_later {opener : Location} {b : Branches} (h : b.Proper) :
    faultsOf (b.later opener false) = [] := by
  cases b with
  | close _ => rfl
  | cut _ => cases h
  | orIf _ _ more => exact Branches.Proper.faultsOf_later (b := more) h.2
  | orElse _ _ _ =>
    obtain ⟨_, _, hc⟩ := h
    subst hc
    rfl
  termination_by structural b

mutual

theorem Outline.Proper.faultsOf_events : {n : Nat} → {s : Outline} → s.Proper →
    faultsOf (s.events env n) = []
  | _, .done, _ => by simp [Outline.events, faultsOf]
  | 0, .token _ rest, h => Outline.Proper.faultsOf_events (s := rest) h
  | n + 1, .token _ rest, h => Outline.Proper.faultsOf_events (s := rest) h
  | n, .block opener body branches rest, h => by
    rw [Outline.events, faultsOf_consult, faultsOf_append, h.2.2.faultsOf_events, List.append_nil]
    split
    · rw [faultsOf_append, h.1.faultsOf_events, h.2.1.faultsOf_later, List.append_nil]
    · exact h.2.1.faultsOf_events

theorem Branches.Proper.faultsOf_events {opener : Location} : {br : Branches} → br.Proper →
    faultsOf (br.events env opener) = []
  | .close _, _ => rfl
  | .orIf _ body more, h => by
    rw [Branches.events, faultsOf_consult]
    split
    · rw [faultsOf_append, h.1.faultsOf_events, h.2.faultsOf_later, List.append_nil]
    · exact h.2.faultsOf_events
  | .orElse _ body _, ⟨h, t, hc⟩ => by
    subst hc
    rw [Branches.events, faultsOf_append, h.faultsOf_events]
    rfl

end

/-! ## Alike outlines -/

/-- Where one of two headers with the same tokens has a truth, both have and are equally long. -/
theorem Query.alike {q q' : Query} (ht : q.header.tokens = q'.header.tokens)
    (hd : ∃ b, q.truth env = .ok b) :
    (∃ b, q'.truth env = .ok b) ∧ q'.holds env = q.holds env ∧ q'.length = q.length := by
  obtain ⟨b, hb⟩ := hd
  obtain ⟨hb', hl⟩ := truth_of_tokens ht hb
  exact ⟨⟨b, hb'⟩, (holds_of_truth hb').trans (holds_of_truth hb).symm, hl⟩

mutual

/-- Outlines that differ only where nothing is selected stand for the same tokens, and what is
consulted has a truth in both if it has one in the first. -/
theorem Outline.kept_of_alike : (s : Outline) → s.Alike env n s' →
    Decided env (s.consulted env) →
    s'.kept env n = s.kept env n ∧ Decided env (s'.consulted env)
  | .done, h, hq => by
    cases h
    exact ⟨rfl, hq⟩
  | .token t rest, h, hq => by
    cases h with
    | header hr => exact Outline.kept_of_alike rest hr hq
    | token hr =>
      obtain ⟨hk, hd⟩ := Outline.kept_of_alike rest hr hq
      exact ⟨congrArg (t :: ·) hk, hd⟩
  | .block opener body branches rest, h, hd => by
    obtain ⟨hd, hds⟩ := List.forall_mem_cons.mp hd
    obtain ⟨hds, hdr⟩ := List.forall_mem_append.mp hds
    cases h with
    | selected ht hq hs hr =>
      obtain ⟨hd', hq', hl⟩ := Query.alike ht hd
      rw [if_pos hq] at hds
      obtain ⟨hkr, hdr'⟩ := Outline.kept_of_alike rest hr hdr
      obtain ⟨hks, hds'⟩ := Outline.kept_of_alike body hs hds
      rw [Outline.kept, Outline.kept, Outline.consulted, hq', if_pos hq, if_pos hq, if_pos hq, hl,
        hks, hkr]
      exact ⟨rfl, List.forall_mem_cons.mpr ⟨hd', List.forall_mem_append.mpr ⟨hds', hdr'⟩⟩⟩
    | passed ht hq hs hr =>
      obtain ⟨hd', hq', -⟩ := Query.alike ht hd
      replace hq := ne_true_of_eq_false hq
      rw [if_neg hq] at hds
      obtain ⟨hkr, hdr'⟩ := Outline.kept_of_alike rest hr hdr
      obtain ⟨hks, hds'⟩ := Branches.kept_of_alike branches hs hds
      rw [Outline.kept, Outline.kept, Outline.consulted, hq', if_neg hq, if_neg hq, if_neg hq, hks,
        hkr]
      exact ⟨rfl, List.forall_mem_cons.mpr ⟨hd', List.forall_mem_append.mpr ⟨hds', hdr'⟩⟩⟩

theorem Branches.kept_of_alike : (br : Branches) → br.Alike env br' →
    Decided env (br.consulted env) →
    br'.kept env = br.kept env ∧ Decided env (br'.consulted env)
  | .close _, h, hd => by
    cases h
    exact ⟨rfl, hd⟩
  | .cut _, h, _ => by cases h
  | .orIf t body more, h, hd => by
    obtain ⟨hd, hds⟩ := List.forall_mem_cons.mp hd
    cases h with
    | selected ht hq hs =>
      obtain ⟨hd', hq', hl⟩ := Query.alike ht hd
      rw [if_pos hq] at hds
      obtain ⟨hks, hds'⟩ := Outline.kept_of_alike body hs hds
      rw [Branches.kept, Branches.kept, Branches.consulted, hq', if_pos hq, if_pos hq, if_pos hq,
        hl, hks]
      exact ⟨rfl, List.forall_mem_cons.mpr ⟨hd', hds'⟩⟩
    | passed ht hq hs =>
      obtain ⟨hd', hq', -⟩ := Query.alike ht hd
      replace hq := ne_true_of_eq_false hq
      rw [if_neg hq] at hds
      obtain ⟨hks, hds'⟩ := Branches.kept_of_alike more hs hds
      rw [Branches.kept, Branches.kept, Branches.consulted, hq', if_neg hq, if_neg hq, if_neg hq,
        hks]
      exact ⟨rfl, List.forall_mem_cons.mpr ⟨hd', hds'⟩⟩
  | .orElse t body more, h, hd => by
    cases h with
    | orElse hs => exact Outline.kept_of_alike body hs hd

end

/-! ## Selection -/

theorem filterTokens_of_decided {s : Outline} (hs : s.Proper) (hm : classify ts = s.marked)
    (he : EofLast s.marked) (hd : Decided env (s.consulted env)) :
    filterTokens env ts = .ok (s.kept env 0) := by
  have hd' : ∀ q ∈ consultedOf (s.events env 0), ∃ b, q.truth env = .ok b := fun q hq =>
    hd q (s.queries_events 0 ▸ (List.takeWhile_sublist _).filterMap _ |>.subset hq)
  have hf := outcome_failure hd'
  rw [hs.faultsOf_events] at hf
  rw [filterTokens_eq, Outline.run_whole (hs.closed.guarded he) hs.closed.fits hm, Outcome.result,
    hf, outcome_tokens hf, s.keptOf_events]
  rfl

/-- A pass over a stream with a proper outline keeps what the outline stands for, if every condition
that is consulted has a truth. No other stream whose outline differs only where nothing is selected
comes out differently. -/
theorem filterTokens_of_proper {s : Outline} (hs : s.Proper) (hm : classify ts = s.marked)
    (he : EofLast s.marked) (hd : Decided env (s.consulted env)) :
    filterTokens env ts = .ok (s.kept env 0) ∧
      ∀ ts' s', s'.Proper → classify ts' = s'.marked → EofLast s'.marked → s.Alike env 0 s' →
        filterTokens env ts' = .ok (s.kept env 0) := by
  refine ⟨filterTokens_of_decided hs hm he hd, fun ts' s' hs' hm' he' ha => ?_⟩
  obtain ⟨hk, hd'⟩ := Outline.kept_of_alike s ha hd
  rw [filterTokens_of_decided hs' hm' he' hd', hk]

end

/-- The segment of the condition `undefined x` that stands for `a`. -/
def Outline.ifUndefined : Outline :=
  .token (.onLine 1 .undefinedWord "undefined") (.token (.onLine 1 .identifier "x")
    (.token (.onLine 2 .identifier "a") .done))

/-- A block whose `#elif` segment is not looked at if `x` is undefined. -/
def Outline.withUnread (segment : Outline) : Outline :=
  .block (.onLine 1 .hashWord "#if") .ifUndefined
    (.orIf (.onLine 3 .hashWord "#elif") segment (.close (.onLine 9 .hashWord "#end")))
    (.token (.onLine 10 .eof "") .done)

def Query.ifUndefined : Query :=
  ofSegment (.onLine 1 .hashWord "#if") .ifUndefined
    (.orIf (.onLine 3 .hashWord "#elif") .done (.close (.onLine 9 .hashWord "#end")))

/-- Neither `#elif` without a condition nor a block without one behind it matters. -/
theorem filterTokens_withUnread :
    let kept := [Token.onLine 2 .identifier "a", .onLine 10 .eof ""]
    let inner := Outline.block (.onLine 4 .hashWord "#if") .done
      (.close (.onLine 5 .hashWord "#end")) .done
    filterTokens .empty (Outline.withUnread .done).tokens = .ok kept ∧
      filterTokens .empty (Outline.withUnread inner).tokens = .ok kept := by
  intro kept inner
  have hq : Query.ifUndefined.truth .empty = .ok true := by cbv
  have hl : Query.ifUndefined.length = 2 := by cbv
  have hc : (Outline.withUnread .done).consulted .empty = [.ifUndefined] := by cbv
  have hd : Decided .empty ((Outline.withUnread .done).consulted .empty) := by
    intro q' h
    rw [hc, List.mem_singleton] at h
    exact ⟨true, h ▸ hq⟩
  have hs : (Outline.withUnread .done).Proper := ⟨trivial, ⟨trivial, trivial⟩, trivial⟩
  have hs' : (Outline.withUnread inner).Proper :=
    ⟨trivial, ⟨⟨trivial, trivial, trivial⟩, trivial⟩, trivial⟩
  have ha : (Outline.withUnread .done).Alike .empty 0 (.withUnread inner) := by
    refine .selected (by cbv) (Query.holds_of_truth hq) ?_ (.token .done)
    exact hl ▸ .header (.header (.token .done))
  have hk : (Outline.withUnread .done).kept .empty 0 = kept := by cbv
  rw [← hk]
  have hm : classify (Outline.withUnread .done).tokens = (Outline.withUnread .done).marked := by
    decide
  have h := filterTokens_of_proper hs hm (by decide) hd
  exact ⟨h.1, h.2 _ _ hs' (by decide) (by decide) ha⟩

end HashIf
