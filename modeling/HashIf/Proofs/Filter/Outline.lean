import HashIf.Filter

/-! Outlines: the block structure of a token stream, read off its markers alone.

    outline := (token | block)*
    block   := '#if' outline ('#elif' outline | '#else' outline)* '#end'

A block whose `#end` is missing is cut where the stream ends. -/

namespace HashIf

/-! ## Marked streams -/

abbrev Marked := Token × Option Marker

/-- A token of which only the kind, the text and the line matter. -/
def Token.onLine (line : Int) (kind : Kind) (lexeme : String) : Token :=
  ⟨kind, lexeme, ⟨"", 0, line, 0, 0⟩⟩

namespace Cursor

/-- The unread tokens, each with the marker that it is. -/
def marked (c : Cursor) : List Marked := classifyFrom c.lastLine c.unread

theorem map_fst_marked (c : Cursor) : c.marked.map Prod.fst = c.unread := by
  obtain ⟨l, ts⟩ := c
  induction ts generalizing l with
  | nil => rfl
  | cons t ts ih => exact congrArg (t :: ·) (ih t.lastLine)

theorem unread_eq_nil {c : Cursor} (h : c.marked = []) : c.unread = [] := by
  rw [← map_fst_marked, h, List.map_nil]

theorem of_marked_cons {c : Cursor} (h : c.marked = (t, m) :: ms) :
    c.unread = t :: c.tail.unread ∧ c.marker? = m ∧ c.tail.marked = ms := by
  obtain ⟨l, ts⟩ := c
  cases ts with
  | nil => cases h
  | cons u ts =>
    obtain ⟨hh, rfl⟩ := List.cons.inj h
    cases hh
    exact ⟨rfl, rfl, rfl⟩

@[simp] theorem drop_zero (c : Cursor) : c.drop 0 = c := rfl

theorem drop_succ (c : Cursor) (n : Nat) : c.drop (n + 1) = c.tail.drop n := rfl

theorem drop_add (c : Cursor) (m n : Nat) : c.drop (m + n) = (c.drop m).drop n := by
  induction m generalizing c with
  | zero => rw [Nat.zero_add, drop_zero]
  | succ m ih => rw [Nat.succ_add, drop_succ, drop_succ, ih]

@[simp] theorem marked_tail (c : Cursor) : c.tail.marked = c.marked.tail := by
  obtain ⟨l, ts⟩ := c
  cases ts <;> rfl

@[simp] theorem marked_drop (c : Cursor) (n : Nat) : (c.drop n).marked = c.marked.drop n := by
  induction n generalizing c with
  | zero => rfl
  | succ n ih => rw [drop_succ, ih, marked_tail, List.drop_tail]

theorem marked_drop_append {c : Cursor} (h : c.marked = ms ++ more) :
    (c.drop ms.length).marked = more := by
  rw [marked_drop, h, List.drop_left]

theorem of_marker {c : Cursor} (h : c.unread = t :: ts) (hm : c.marker? = some m) :
    c.lastLine < t.loc.line ∧ t.kind = .hashWord := by
  simp only [marker?, h, Token.directiveWord?] at hm
  split at hm
  · next hl =>
    split at hm
    · next hk => exact ⟨hl, hk⟩
    · cases hm
  · cases hm

end Cursor

/-! ## Outlines -/

mutual

/-- The block structure of a stretch of a token stream. -/
inductive Outline
  | done
  | token (t : Token) (rest : Outline)
  | block (opener : Token) (body : Outline) (branches : Branches) (rest : Outline)

/-- A block behind its first segment: its further segments, and its `#end`. A block that is cut
has none; at most the token for the end of the source follows its last segment. -/
inductive Branches
  | close (t : Token)
  | cut (eof : Option Token)
  | orIf (t : Token) (body : Outline) (more : Branches)
  | orElse (t : Token) (body : Outline) (more : Branches)

end

mutual

/-- The tokens of an outline in order, each with the marker that it is. -/
def Outline.marked : Outline → List Marked
  | .done => []
  | .token t rest => (t, none) :: rest.marked
  | .block opener body branches rest =>
    (opener, some .ifMarker) :: (body.marked ++ (branches.marked ++ rest.marked))

def Branches.marked : Branches → List Marked
  | .close t => [(t, some .endMarker)]
  | .cut eof => eof.toList.map (·, none)
  | .orIf t body more => (t, some .elifMarker) :: (body.marked ++ more.marked)
  | .orElse t body more => (t, some .elseMarker) :: (body.marked ++ more.marked)

end

def Outline.tokens (s : Outline) : List Token := s.marked.map Prod.fst

def Branches.first? : Branches → Option Token
  | .close t | .orIf t _ _ | .orElse t _ _ => some t
  | .cut eof => eof

/-! ## Well-formed outlines -/

mutual

def Outline.Closed : Outline → Prop
  | .done => True
  | .token _ rest => rest.Closed
  | .block _ body branches rest => body.Closed ∧ branches.Closed ∧ rest.Closed

def Branches.Closed : Branches → Prop
  | .close _ => True
  | .cut _ => False
  | .orIf _ body more => body.Closed ∧ more.Closed
  | .orElse _ body more => body.Closed ∧ more.Closed

end

mutual

/-- Every block has its `#end` and at most one `#else`, behind every `#elif`. -/
def Outline.Proper : Outline → Prop
  | .done => True
  | .token _ rest => rest.Proper
  | .block _ body branches rest => body.Proper ∧ branches.Proper ∧ rest.Proper

/-- The further segments begin with `#elif` but for the last, which may begin with `#else`. -/
def Branches.Proper : Branches → Prop
  | .close _ => True
  | .cut _ => False
  | .orIf _ body more => body.Proper ∧ more.Proper
  | .orElse _ body more => body.Proper ∧ ∃ t, more = .close t

end

mutual

/-- Behind a block that is cut nothing is left, `more` being what follows the outline. -/
def Outline.Fits (more : List Marked) : Outline → Prop
  | .done => True
  | .token _ rest => rest.Fits more
  | .block _ body branches rest =>
    body.Fits (branches.marked ++ (rest.marked ++ more)) ∧
      branches.Fits (rest.marked ++ more) ∧ rest.Fits more

def Branches.Fits (more : List Marked) : Branches → Prop
  | .close _ => True
  | .cut eof => more = [] ∧ ∀ t ∈ eof, t.kind = .eof
  | .orIf _ body rest => body.Fits (rest.marked ++ more) ∧ rest.Fits more
  | .orElse _ body rest => body.Fits (rest.marked ++ more) ∧ rest.Fits more

end

mutual

/-- No token of the outline stands for the end of the source, but for one where it is cut. -/
def Outline.Plain : Outline → Prop
  | .done => True
  | .token t rest => t.kind ≠ .eof ∧ rest.Plain
  | .block _ body branches rest => body.Plain ∧ branches.Plain ∧ rest.Plain

def Branches.Plain : Branches → Prop
  | .close _ | .cut _ => True
  | .orIf _ body more => body.Plain ∧ more.Plain
  | .orElse _ body more => body.Plain ∧ more.Plain

end

/-- No token in a block stands for the end of the source, but for one where it is cut. -/
def Outline.Guarded : Outline → Prop
  | .done => True
  | .token _ rest => rest.Guarded
  | .block _ body branches rest => body.Plain ∧ branches.Plain ∧ rest.Guarded

/-- Only the last token, if any, stands for the end of the source. -/
def EofLast (ms : List Marked) : Prop := ∀ x ∈ ms.dropLast, x.1.kind ≠ .eof

instance (ms : List Marked) : Decidable (EofLast ms) :=
  inferInstanceAs (Decidable (∀ x ∈ ms.dropLast, x.1.kind ≠ .eof))

theorem EofLast.right (h : EofLast (as ++ bs)) : EofLast bs := by
  intro x hx
  cases bs with
  | nil => cases hx
  | cons b bs =>
    refine h x ?_
    rw [List.dropLast_append_of_ne_nil (by simp)]
    exact List.mem_append_right _ hx

theorem EofLast.left (h : EofLast (as ++ bs)) (hb : bs ≠ []) : ∀ x ∈ as, x.1.kind ≠ .eof := by
  intro x hx
  refine h x ?_
  rw [List.dropLast_append_of_ne_nil hb]
  exact List.mem_append_left _ hx

theorem Branches.Closed.marked_ne_nil {br : Branches} (h : br.Closed) : br.marked ≠ [] := by
  cases br with
  | cut => exact h.elim
  | close | orIf | orElse => simp [Branches.marked]

mutual

theorem Outline.Proper.closed : {s : Outline} → s.Proper → s.Closed
  | .done, _ => trivial
  | .token _ rest, h => Outline.Proper.closed (s := rest) h
  | .block .., h => ⟨h.1.closed, h.2.1.closed, h.2.2.closed⟩

theorem Branches.Proper.closed : {br : Branches} → br.Proper → br.Closed
  | .close _, _ => trivial
  | .orIf .., h => ⟨h.1.closed, h.2.closed⟩
  | .orElse .., ⟨h, _, ht⟩ => ⟨h.closed, ht ▸ trivial⟩

end

mutual

theorem Outline.Closed.fits : {s : Outline} → s.Closed → s.Fits more
  | .done, _ => trivial
  | .token _ rest, h => Outline.Closed.fits (s := rest) h
  | .block .., h => ⟨h.1.fits, h.2.1.fits, h.2.2.fits⟩

theorem Branches.Closed.fits : {br : Branches} → br.Closed → br.Fits more
  | .close _, _ => trivial
  | .orIf .., h | .orElse .., h => ⟨h.1.fits, h.2.fits⟩

end

mutual

theorem Outline.Fits.closed (hm : more ≠ []) : {s : Outline} → s.Fits more → s.Closed
  | .done, _ => trivial
  | .token _ rest, h => Outline.Fits.closed hm (s := rest) h
  | .block .., h =>
    have hr : _ ++ more ≠ [] := List.append_ne_nil_of_right_ne_nil _ hm
    ⟨h.1.closed (List.append_ne_nil_of_right_ne_nil _ hr), h.2.1.closed hr, h.2.2.closed hm⟩

theorem Branches.Fits.closed (hm : more ≠ []) : {br : Branches} → br.Fits more → br.Closed
  | .close _, _ => trivial
  | .cut _, h => (hm h.1).elim
  | .orIf .., h | .orElse .., h =>
    ⟨h.1.closed (List.append_ne_nil_of_right_ne_nil _ hm), h.2.closed hm⟩

end

mutual

theorem Outline.plain_of_marked : {s : Outline} → (∀ x ∈ s.marked, x.1.kind ≠ .eof) → s.Plain
  | .done, _ => trivial
  | .token .., h =>
    ⟨h _ List.mem_cons_self, Outline.plain_of_marked fun x hx => h x (List.mem_cons_of_mem _ hx)⟩
  | .block .., h =>
    ⟨Outline.plain_of_marked fun x hx => h x (by simp [Outline.marked, hx]),
      Branches.plain_of_marked fun x hx => h x (by simp [Outline.marked, hx]),
      Outline.plain_of_marked fun x hx => h x (by simp [Outline.marked, hx])⟩

theorem Branches.plain_of_marked : {br : Branches} → (∀ x ∈ br.marked, x.1.kind ≠ .eof) → br.Plain
  | .close _, _ | .cut _, _ => trivial
  | .orIf .., h | .orElse .., h =>
    ⟨Outline.plain_of_marked fun x hx => h x (by simp [Branches.marked, hx]),
      Branches.plain_of_marked fun x hx => h x (by simp [Branches.marked, hx])⟩

end

theorem Branches.Closed.plain : {br : Branches} → br.Closed → EofLast br.marked → br.Plain
  | .close _, _, _ => trivial
  | .orIf _ body more, h, he | .orElse _ body more, h, he =>
    have he : EofLast ([_] ++ (body.marked ++ more.marked)) := he
    have he := he.right
    ⟨Outline.plain_of_marked (he.left h.2.marked_ne_nil), Branches.Closed.plain h.2 he.right⟩

theorem Outline.Closed.guarded : {s : Outline} → s.Closed → EofLast s.marked → s.Guarded
  | .done, _, _ => trivial
  | .token _ rest, h, he =>
    have he : EofLast ([_] ++ rest.marked) := he
    Outline.Closed.guarded (s := rest) h he.right
  | .block _ body branches rest, h, he => by
    have he : EofLast ([_] ++ (body.marked ++ (branches.marked ++ rest.marked))) := he
    replace he := he.right
    have hb := h.2.1.marked_ne_nil
    refine ⟨Outline.plain_of_marked (he.left (List.append_ne_nil_of_left_ne_nil hb _)), ?_,
      Outline.Closed.guarded h.2.2 he.right.right⟩
    by_cases hr : rest.marked = []
    · rw [hr, List.append_nil] at he
      exact h.2.1.plain he.right
    · exact Branches.plain_of_marked (he.right.left hr)

theorem Outline.Plain.guarded : {s : Outline} → s.Plain → s.Guarded
  | .done, _ => trivial
  | .token _ rest, h => Outline.Plain.guarded (s := rest) h.2
  | .block _ _ _ rest, h => ⟨h.1, h.2.1, Outline.Plain.guarded (s := rest) h.2.2⟩

end HashIf
