import HashIf.Proofs.Filter.Outline

/-! Readers: a stream behind a buffer of one token. Tokens are taken from the stream one by one, and
the buffer holds the one that comes next. A reader shows what a cursor shows, and it has taken one
token more than have been read, if there is one more. -/

namespace HashIf

/-- A stream that is read through a buffer: the tokens that have not been taken from it, the number
of those that have, the token in the buffer and whether it begins a line, and the line where the
token taken last ends. -/
structure Reader where
  source : List Token
  taken : Nat
  buffer : Option Token
  startsLine : Bool
  lastLine : Int

namespace Reader

/-- Takes the next token of the stream into the buffer. -/
def fill (r : Reader) : Reader :=
  match r.source with
  | [] => { r with buffer := none, startsLine := false }
  | t :: ts => ⟨ts, r.taken + 1, some t, r.lastLine < t.loc.line, t.lastLine⟩

def start (ts : List Token) : Reader := fill ⟨ts, 0, none, false, 0⟩

/-- The reader when `n` tokens have been read from the buffer. -/
def advance (r : Reader) : Nat → Reader
  | 0 => r
  | n + 1 => r.fill.advance n

/-- The directive marker that the token in the buffer is. -/
def marker? (r : Reader) : Option Marker :=
  match r.buffer with
  | some t => if r.startsLine then t.directiveWord? else none
  | none => none

/-- A reader of a stream of `n` tokens that stands where the cursor does, with the next token, if
there is one, in its buffer. -/
structure Shows (n : Nat) (c : Cursor) (r : Reader) : Prop where
  buffer : r.buffer = c.next?
  startsLine : r.startsLine = c.startsLine
  source : r.source = c.unread.tail
  lastLine : r.lastLine = c.tail.lastLine
  taken : r.taken + r.source.length = n

variable {r : Reader} {c : Cursor}

/-- The marker is the one that the cursor shows. -/
theorem Shows.marker? (h : r.Shows n c) : r.marker? = c.marker? := by
  obtain ⟨l, ts⟩ := c
  rw [Reader.marker?, h.buffer, h.startsLine]
  cases ts with
  | nil => rfl
  | cons t ts =>
    simp only [Cursor.next?, Cursor.startsLine, Cursor.marker?, List.head?_cons, decide_eq_true_eq]

theorem shows_fill (hs : r.source = c.unread) (hl : r.lastLine = c.lastLine)
    (ht : r.taken + r.source.length = n) : r.fill.Shows n c := by
  obtain ⟨l, ts⟩ := c
  obtain ⟨source, taken, buffer, startsLine, lastLine⟩ := r
  cases hs
  cases hl
  cases ts with
  | nil => exact ⟨rfl, rfl, rfl, rfl, ht⟩
  | cons t ts =>
    refine ⟨rfl, rfl, rfl, rfl, ?_⟩
    rw [← ht]
    simp only [fill, List.length_cons]
    omega

theorem Shows.advance (h : r.Shows n c) (m : Nat) : (r.advance m).Shows n (c.drop m) := by
  induction m generalizing r c with
  | zero => exact h
  | succ m ih =>
    refine ih (shows_fill ?_ h.lastLine h.taken)
    rw [h.source, Cursor.unread_tail]

theorem shows_start (ts : List Token) : (start ts).Shows ts.length (.start ts) :=
  shows_fill rfl rfl (Nat.zero_add _)

/-- A reader that stands behind `m` tokens of a stream has taken one more, if there is one. -/
theorem Shows.taken_drop {ts : List Token} (h : r.Shows ts.length ((Cursor.start ts).drop m)) :
    r.taken = min (m + 1) ts.length := by
  have hs := congrArg List.length h.source
  have ht := h.taken
  have hlen : (Cursor.start ts).unread.length = ts.length := rfl
  rw [Cursor.unread_drop, List.length_tail, List.length_drop, hlen] at hs
  omega

/-- What a cursor says of the tokens taken is so. -/
theorem Shows.pulled_drop {ts : List Token} (h : r.Shows ts.length ((Cursor.start ts).drop m)) :
    ((Cursor.start ts).drop m).pulled ts.length = r.taken := by
  have hlen : (Cursor.start ts).unread.length = ts.length := rfl
  rw [h.taken_drop, Cursor.pulled, Cursor.unread_drop, List.length_drop, hlen]
  omega

end Reader

end HashIf
