import HashIf.Condition.Evaluation
import HashIf.Condition.Header

/-! The filter: a pass over a token stream that keeps the tokens of taken branches and drops
markers, headers and the tokens of other branches. The first branch of a block whose condition
holds is taken, and no condition after it is looked at. -/

namespace HashIf

/-! ## Blocks -/

/-- An open block: where its `#if` stands, whether a branch of it has been taken, whether its
`#else` has been met, and, if the current branch is dropped, how many blocks are open in that
branch. -/
structure Block where
  opener : Location
  taken : Bool
  elseMet : Bool
  dropping : Option Nat

namespace Block

def keep (b : Block) : Block := { b with taken := true, dropping := none }

def drop (b : Block) : Block := { b with dropping := some 0 }

/-- The block in a new branch that is kept if it is the first that can be. -/
def enter (b : Block) (holds : Bool) : Block := if holds && !b.taken then b.keep else b.drop

end Block

/-! ## Steps -/

/-- How a pass goes on at its next token: it keeps the token, or drops it along with `skipped`
tokens behind it and goes on in other blocks, or fails behind `read` tokens. -/
inductive FilterStep
  | keep
  | drop (skipped : Nat) (blocks : List Block)
  | fail (f : Failure) (read : Nat)

namespace FilterStep

/-- Reads the condition behind a marker and goes on by its truth. -/
def byCondition (env : Environment) (t : Token) (c : Cursor) (blocks : Bool → List Block) :
    FilterStep :=
  match c.condition t with
  | (.error f, read) => .fail f (1 + read)
  | (.ok cond, read) =>
    match cond.evaluate env with
    | .error f => .fail f (1 + read)
    | .ok holds => .drop read (blocks holds)

/-- Opens a block at its marker, behind which the cursor stands. -/
def openBlock (env : Environment) (t : Token) (c : Cursor) (outer : List Block) : FilterStep :=
  byCondition env t c fun holds => (Block.enter ⟨t.loc, false, false, none⟩ holds) :: outer

def branch (env : Environment) (m : Marker) (t : Token) (c : Cursor) (b : Block)
    (outer : List Block) : FilterStep :=
  match m with
  | .elifMarker =>
    if b.elseMet then .fail (.diagnostic (.structural t.loc .elifAfterElse)) 1
    else if b.taken then .drop 0 (b.drop :: outer)
    else byCondition env t c fun holds => b.enter holds :: outer
  | .elseMarker =>
    if b.elseMet then .fail (.diagnostic (.structural t.loc .repeatedElse)) 1
    else .drop 0 (({ b with elseMet := true }).enter true :: outer)
  | _ => .drop 0 outer

/-- Goes on at a token in a branch that is dropped, in which `depth` blocks are open. -/
def inDropped (env : Environment) (m : Option Marker) (t : Token) (c : Cursor) (b : Block)
    (outer : List Block) (depth : Nat) : FilterStep :=
  match m, depth with
  | some .ifMarker, depth => .drop 0 ({ b with dropping := some (depth + 1) } :: outer)
  | some m, 0 => branch env m t c b outer
  | some .endMarker, depth + 1 => .drop 0 ({ b with dropping := some depth } :: outer)
  | _, _ => .drop 0 (b :: outer)

def inKept (env : Environment) (m : Option Marker) (t : Token) (c : Cursor) (b : Block)
    (outer : List Block) : FilterStep :=
  match m with
  | none => .keep
  | some .ifMarker => openBlock env t c (b :: outer)
  | some m => branch env m t c b outer

def atTop (env : Environment) (m : Option Marker) (t : Token) (c : Cursor) : FilterStep :=
  match m with
  | none => .keep
  | some .ifMarker => openBlock env t c []
  | some m => .fail (.diagnostic (.structural t.loc (.unmatched m))) 1

/-- The fault of a source that ends in a block. -/
def openAtEnd (b : Block) : Failure := .diagnostic (.structural b.opener .openBlock)

/-- Goes on at the token `t`, the next one of the cursor. Blocks are opened only in branches that
are kept, so all but the innermost block are in such a branch. -/
def next (env : Environment) (t : Token) (c : Cursor) : (blocks : List Block) → FilterStep
  | [] => atTop env c.marker? t c.tail
  | b :: outer =>
    if t.kind = .eof then .fail (openAtEnd b) 0
    else match b.dropping with
      | none => inKept env c.marker? t c.tail b outer
      | some depth => inDropped env c.marker? t c.tail b outer depth

end FilterStep

/-! ## Passes -/

/-- What a pass has brought: the tokens kept, the fault that ended it if one did, and the cursor
where it ended. -/
structure Filtered where
  tokens : List Token
  failure : Option Failure
  cursor : Cursor

/-- Runs a pass from a cursor on in open blocks, the innermost first, the tokens kept before it
being given. -/
def filterFrom (env : Environment) (kept : Array Token) (c : Cursor) (blocks : List Block) :
    Filtered :=
  match _h : c.unread with
  | [] => ⟨kept.toList, blocks.head?.map FilterStep.openAtEnd, c⟩
  | t :: _ =>
    match FilterStep.next env t c blocks with
    | .keep => filterFrom env (kept.push t) c.tail blocks
    | .drop skipped blocks => filterFrom env kept (c.tail.drop skipped) blocks
    | .fail f read => ⟨kept.toList, some f, c.drop read⟩
  termination_by c.unread.length
  decreasing_by all_goals
    simp only [Cursor.unread_drop, Cursor.unread_tail, _h, List.tail_cons, List.length_drop,
      List.length_cons]
    omega

def filterPass (env : Environment) (c : Cursor) : Filtered := filterFrom env #[] c []

/-- The tokens of a stream that a pass keeps. -/
def filterTokens (env : Environment) (ts : List Token) : Except Failure (List Token) :=
  let r := filterPass env (.start ts)
  match r.failure with
  | some f => .error f
  | none => .ok r.tokens

/-- The results of passes one after another, each from where the one before ended. -/
def filterPasses (env : Environment) (c : Cursor) : Nat → List Filtered
  | 0 => []
  | n + 1 =>
    let r := filterPass env c
    r :: filterPasses env r.cursor n

end HashIf
