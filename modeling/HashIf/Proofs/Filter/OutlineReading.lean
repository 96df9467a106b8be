import HashIf.Proofs.Filter.Outline

/-! Reading outlines off marked streams: every stream begins with an outline, which ends where the
stream does or in front of a marker that no block is open for. -/

namespace HashIf

/-! ## Nesting -/

/-- The number of blocks that are open behind a marked stream in which `d` blocks are open before
it, unless a marker of a block is met where none is open. -/
def nesting : (d : Nat) → List Marked → Option Nat
  | d, [] => some d
  | d, (_, none) :: ms => nesting d ms
  | d, (_, some .ifMarker) :: ms => nesting (d + 1) ms
  | 0, (_, some _) :: _ => none
  | d + 1, (_, some .endMarker) :: ms => nesting d ms
  | d + 1, (_, some _) :: ms => nesting (d + 1) ms

/-- The markers `#if` and `#end` match, and all other markers are in blocks. -/
def Balanced (ms : List Marked) : Prop := nesting 0 ms = some 0

instance (ms : List Marked) : Decidable (Balanced ms) :=
  inferInstanceAs (Decidable (nesting 0 ms = some 0))

theorem nesting_append (d : Nat) (as bs : List Marked) :
    nesting d (as ++ bs) = (nesting d as).bind (nesting · bs) := by
  induction as generalizing d with
  | nil => rfl
  | cons x as ih =>
    obtain ⟨t, m⟩ := x
    match d, m with
    | d, none => exact ih d
    | d, some .ifMarker => exact ih (d + 1)
    | 0, some .elifMarker | 0, some .elseMarker | 0, some .endMarker => rfl
    | d + 1, some .endMarker => exact ih d
    | d + 1, some .elifMarker | d + 1, some .elseMarker => exact ih (d + 1)

mutual

/-- The number of blocks of an outline that are cut. -/
def Outline.opens : Outline → Nat
  | .done => 0
  | .token _ rest => rest.opens
  | .block _ body branches rest => body.opens + branches.opens + rest.opens

def Branches.opens : Branches → Nat
  | .close _ => 0
  | .cut _ => 1
  | .orIf _ body more | .orElse _ body more => body.opens + more.opens

end

mutual

theorem Outline.closed_iff : (s : Outline) → (s.Closed ↔ s.opens = 0)
  | .done => by simp [Outline.Closed, Outline.opens]
  | .token _ rest => Outline.closed_iff rest
  | .block _ body branches rest => by
    rw [Outline.Closed, Outline.opens, Outline.closed_iff body, Branches.closed_iff branches,
      Outline.closed_iff rest]
    omega

theorem Branches.closed_iff : (br : Branches) → (br.Closed ↔ br.opens = 0)
  | .close _ => by simp [Branches.Closed, Branches.opens]
  | .cut _ => by simp [Branches.Closed, Branches.opens]
  | .orIf _ body more | .orElse _ body more => by
    rw [Branches.Closed, Branches.opens, Outline.closed_iff body, Branches.closed_iff more]
    omega

end

theorem Branches.eq_cut {br : Branches} (h : br.marked = []) : br = .cut none := by
  cases br with
  | cut eof =>
    cases eof with
    | none => rfl
    | some t => cases h
  | close | orIf | orElse => cases h

theorem nesting_segment {body : Outline} {next : Branches}
    (hf : body.Fits (next.marked ++ more)) (hb : ∀ d, nesting d body.marked = some (d + body.opens))
    (hn : nesting (d + 1) next.marked = some (d + next.opens)) :
    nesting (d + 1) (body.marked ++ next.marked) = some (d + (body.opens + next.opens)) := by
  rw [nesting_append, hb, Option.bind_some]
  by_cases hm : next.marked ++ more = []
  · obtain rfl := Branches.eq_cut (List.append_eq_nil_iff.mp hm).1
    exact congrArg some (by rw [Branches.opens]; omega)
  · rw [(Outline.closed_iff body).mp (hf.closed hm), Nat.add_zero, Nat.zero_add, hn]

mutual

theorem Outline.Fits.nesting_marked {d : Nat} : (s : Outline) → s.Fits more →
    nesting d s.marked = some (d + s.opens)
  | .done, _ => rfl
  | .token _ rest, h => Outline.Fits.nesting_marked rest h
  | .block opener body branches rest, ⟨hb, hr, hs⟩ => by
    have hseg := nesting_segment (d := d) hb (fun d => Outline.Fits.nesting_marked body hb)
      (Branches.Fits.nesting_marked branches hr)
    change nesting (d + 1) (body.marked ++ (branches.marked ++ rest.marked)) = _
    rw [← List.append_assoc, nesting_append, hseg, Option.bind_some,
      Outline.Fits.nesting_marked rest hs, Nat.add_assoc, Outline.opens]

theorem Branches.Fits.nesting_marked {d : Nat} : (br : Branches) → br.Fits more →
    nesting (d + 1) br.marked = some (d + br.opens)
  | .close _, _ | .cut none, _ | .cut (some _), _ => rfl
  | .orIf _ body next, ⟨hb, hn⟩ | .orElse _ body next, ⟨hb, hn⟩ =>
    nesting_segment hb (fun _ => Outline.Fits.nesting_marked body hb)
      (Branches.Fits.nesting_marked next hn)

end

/-- An outline that ends with its stream is closed if the stream is balanced. -/
theorem Outline.Fits.balanced_iff {s : Outline} (h : s.Fits more) :
    Balanced s.marked ↔ s.Closed := by
  rw [Balanced, Outline.Fits.nesting_marked s h, Outline.closed_iff, Nat.zero_add, Option.some_inj]

/-! ## Reading -/

/-- Here a segment ends: at the end of the stream or in front of a marker but `#if`. -/
inductive Stops : List Marked → Prop
  | nil : Stops []
  | eof (h : t.kind = .eof) : Stops [(t, none)]
  | marker (h : m ≠ .ifMarker) : Stops ((t, some m) :: ms)

theorem EofLast.tail (h : EofLast (x :: ms)) : EofLast ms := by
  rw [← List.singleton_append] at h
  exact h.right

theorem EofLast.kind (h : EofLast (x :: y :: ms)) : x.1.kind ≠ .eof := h x List.mem_cons_self

mutual

/-- A stream in a block begins with a segment. -/
theorem exists_segment (ms : List Marked) (he : EofLast ms) :
    ∃ (s : Outline) (more : _), ms = s.marked ++ more ∧ s.Plain ∧ s.Fits more ∧ Stops more := by
  match ms with
  | [] => exact ⟨.done, [], rfl, trivial, trivial, .nil⟩
  | (t, none) :: ms =>
    by_cases ht : t.kind = .eof
    · cases ms with
      | nil => exact ⟨.done, _, rfl, trivial, trivial, .eof ht⟩
      | cons y ms => exact (he.kind ht).elim
    · obtain ⟨s, more, rfl, hp, hf, hs⟩ := exists_segment ms he.tail
      exact ⟨.token t s, more, rfl, ⟨ht, hp⟩, hf, hs⟩
  | (t, some .ifMarker) :: ms =>
    obtain ⟨body, more, rfl, hp, hf, hs⟩ := exists_segment ms he.tail
    obtain ⟨branches, more, rfl, hp', hf'⟩ := exists_branches more he.tail.right hs
    obtain ⟨rest, more, rfl, hp'', hf'', hs'⟩ := exists_segment more he.tail.right.right
    refine ⟨.block t body branches rest, more, ?_, ⟨hp, hp', hp''⟩, ⟨hf, hf', hf''⟩, hs'⟩
    simp [Outline.marked]
  | (t, some .elifMarker) :: ms | (t, some .elseMarker) :: ms | (t, some .endMarker) :: ms =>
    exact ⟨.done, _, rfl, trivial, trivial, .marker nofun⟩
  termination_by ms.length

/-- Behind a segment a stream goes on with the branches of the block. -/
theorem exists_branches (ms : List Marked) (he : EofLast ms) (hs : Stops ms) :
    ∃ (br : Branches) (more : _), ms = br.marked ++ more ∧ br.Plain ∧ br.Fits more := by
  cases hs with
  | nil => exact ⟨.cut none, [], rfl, trivial, rfl, by simp⟩
  | @eof t h => exact ⟨.cut (some t), [], rfl, trivial, rfl, by simpa using h⟩
  | @marker m t ms h =>
    match m with
    | .ifMarker => exact (h rfl).elim
    | .endMarker => exact ⟨.close t, ms, rfl, trivial, trivial⟩
    | .elifMarker =>
      obtain ⟨body, more, rfl, hp, hf, hs⟩ := exists_segment ms he.tail
      obtain ⟨br, more, rfl, hp', hf'⟩ := exists_branches more he.tail.right hs
      exact ⟨.orIf t body br, more, by simp [Branches.marked], ⟨hp, hp'⟩, hf, hf'⟩
    | .elseMarker =>
      obtain ⟨body, more, rfl, hp, hf, hs⟩ := exists_segment ms he.tail
      obtain ⟨br, more, rfl, hp', hf'⟩ := exists_branches more he.tail.right hs
      exact ⟨.orElse t body br, more, by simp [Branches.marked], ⟨hp, hp'⟩, hf, hf'⟩
  termination_by ms.length

end

/-- A stream begins with an outline, behind which at most a marker stands that is in no block. -/
theorem exists_outline (ms : List Marked) (he : EofLast ms) :
    ∃ (s : Outline) (more : _), ms = s.marked ++ more ∧ s.Guarded ∧ s.Fits more ∧
      (more = [] ∨ ∃ t m ms', more = (t, some m) :: ms' ∧ m ≠ .ifMarker) := by
  match ms with
  | [] => exact ⟨.done, [], rfl, trivial, trivial, .inl rfl⟩
  | (t, none) :: ms =>
    obtain ⟨s, more, rfl, hg, hf, hs⟩ := exists_outline ms he.tail
    exact ⟨.token t s, more, rfl, hg, hf, hs⟩
  | (t, some .ifMarker) :: ms =>
    obtain ⟨body, more, rfl, hp, hf, hs⟩ := exists_segment ms he.tail
    obtain ⟨branches, more, rfl, hp', hf'⟩ := exists_branches more he.tail.right hs
    obtain ⟨rest, more, rfl, hg, hf'', hs'⟩ := exists_outline more he.tail.right.right
    refine ⟨.block t body branches rest, more, ?_, ⟨hp, hp', hg⟩, ⟨hf, hf', hf''⟩, hs'⟩
    simp [Outline.marked]
  | (t, some .elifMarker) :: ms | (t, some .elseMarker) :: ms | (t, some .endMarker) :: ms =>
    exact ⟨.done, _, rfl, trivial, trivial, .inr ⟨_, _, _, rfl, nofun⟩⟩
  termination_by ms.length

theorem balanced_iff {ms : List Marked} (he : EofLast ms) :
    Balanced ms ↔ ∃ s : Outline, s.Closed ∧ ms = s.marked := by
  constructor
  · intro hb
    obtain ⟨s, more, rfl, -, hf, rfl | ⟨t, m, ms', rfl, hm⟩⟩ := exists_outline ms he
    · rw [List.append_nil] at hb ⊢
      exact ⟨s, hf.balanced_iff.mp hb, rfl⟩
    · have hc := (Outline.closed_iff s).mp (hf.closed (List.cons_ne_nil _ _))
      rw [Balanced, nesting_append, Outline.Fits.nesting_marked s hf, hc] at hb
      cases m with
      | ifMarker => exact (hm rfl).elim
      | elifMarker | elseMarker | endMarker => cases hb
  · rintro ⟨s, hs, rfl⟩
    exact (show s.Fits [] from hs.fits).balanced_iff.mpr hs

end HashIf
