import HashIf.Condition.Header

/-! Locality of parsing. A step looks at no token behind the one in front of which it stops. So on
headers that begin alike it stops in front of the same token and with the same result, unless it
reads all that they have in common. -/

namespace HashIf

/-! ## Steps that meet -/

namespace Parsed

variable {α β : Type} {x : Token} {xs ys ys' : List Token}

/-- Two steps on tokens that have `xs` at their head stop in front of the same token of `xs` with
the same result, or both read all of `xs`. -/
inductive Meets (xs : List Token) {ys ys' : List Token} :
    Parsed α (xs ++ ys) → Parsed α (xs ++ ys') → Prop
  | within {s s'} (hz : z :: zs <:+ xs) : Meets xs ⟨r, z :: zs ++ ys, s⟩ ⟨r, z :: zs ++ ys', s'⟩
  | beyond {p q} (hp : p.rest <:+ ys) (hq : q.rest <:+ ys') : Meets xs p q

theorem rest_andThen (p : Parsed α xs) (k : α → (rest : List Token) → rest <:+ xs → Parsed β rest) :
    (p.andThen k).rest <:+ p.rest := by
  obtain ⟨_ | a, rest, h⟩ := p
  · exact List.suffix_refl rest
  · exact (k a rest h).suffix

namespace Meets

theorem nil {p : Parsed α ([] ++ ys)} {q : Parsed α ([] ++ ys')} : Meets [] p q :=
  .beyond p.suffix q.suffix

theorem pure {a : α} :
    Meets (x :: xs) (.pure a (x :: xs ++ ys)) (.pure a (x :: xs ++ ys')) :=
  .within (List.suffix_refl _)

theorem demand {t : Token} {d : Demand} : Meets (α := α) (x :: xs)
    (.demand t d (x :: xs ++ ys)) (.demand t d (x :: xs ++ ys')) :=
  .within (List.suffix_refl _)

theorem extend {p : Parsed α (z :: zs ++ ys)} {q : Parsed α (z :: zs ++ ys')}
    (h : Meets (z :: zs) p q) (hz : z :: zs <:+ xs) (hp : p.rest <:+ xs ++ ys)
    (hq : q.rest <:+ xs ++ ys') : Meets xs ⟨p.result, p.rest, hp⟩ ⟨q.result, q.rest, hq⟩ := by
  cases h with
  | within hw => exact .within (hw.trans hz)
  | beyond hp hq => exact .beyond hp hq

theorem behind {p : Parsed α (xs ++ ys)} {q : Parsed α (xs ++ ys')} (h : Meets xs p q) :
    @Meets α (x :: xs) ys ys' (p.behind x) (q.behind x) := by
  cases h with
  | within hz => exact .within (hz.trans (List.suffix_cons x xs))
  | beyond hp hq => exact .beyond hp hq

theorem map {p : Parsed α (xs ++ ys)} {q : Parsed α (xs ++ ys')} (f : α → β) (h : Meets xs p q) :
    Meets xs (p.map f) (q.map f) := by
  cases h with
  | within hz => exact .within hz
  | beyond hp hq => exact .beyond hp hq

theorem andThen {p : Parsed α (xs ++ ys)} {q : Parsed α (xs ++ ys')}
    {k : α → (rest : List Token) → rest <:+ xs ++ ys → Parsed β rest}
    {k' : α → (rest : List Token) → rest <:+ xs ++ ys' → Parsed β rest} (h : Meets xs p q)
    (hk : ∀ a z zs hl hl', z :: zs <:+ xs →
      Meets (z :: zs) (k a (z :: zs ++ ys) hl) (k' a (z :: zs ++ ys') hl')) :
    Meets xs (p.andThen k) (q.andThen k') := by
  cases h with
  | beyond hp hq => exact .beyond ((rest_andThen p k).trans hp) ((rest_andThen q k').trans hq)
  | @within z zs r s s' hz =>
    cases r with
    | error f => exact .within hz
    | ok a => exact (hk a z zs s s' hz).extend hz _ _

theorem ite {c : Prop} [Decidable c] {p p' : Parsed α (xs ++ ys)} {q q' : Parsed α (xs ++ ys')}
    (ht : Meets xs p q) (hf : Meets xs p' q') :
    Meets xs (if c then p else p') (if c then q else q') := by
  by_cases hc : c
  · rw [if_pos hc, if_pos hc]; exact ht
  · rw [if_neg hc, if_neg hc]; exact hf

end Meets

end Parsed

/-! ## Parsing -/

namespace Header

open Parsed (Meets)

variable {stop stop' : Token} {ys ys' : List Token}

theorem advance_meets (xs : List Token) :
    Meets xs (advance stop (xs ++ ys)) (advance stop' (xs ++ ys')) := by
  cases xs with
  | nil => exact .nil
  | cons x xs =>
    cases xs with
    | nil => exact .behind .nil
    | cons y xs => exact .behind .pure

theorem expect_meets {kind : Kind} (xs : List Token) :
    Meets xs (expect stop kind d (xs ++ ys)) (expect stop' kind d (xs ++ ys')) := by
  cases xs with
  | nil => exact .nil
  | cons x xs => exact .ite (advance_meets (x :: xs)) .demand

theorem negatedNumber_meets {minus : Token} (xs : List Token) :
    Meets xs (negatedNumber stop minus (xs ++ ys)) (negatedNumber stop' minus (xs ++ ys')) := by
  cases xs with
  | nil => exact .nil
  | cons x xs =>
    refine .ite (.andThen (advance_meets (x :: xs)) fun a z zs _ _ _ => ?_) .demand
    exact .within (List.suffix_refl _)

theorem operand_meets (xs : List Token) :
    Meets xs (operand stop (xs ++ ys)) (operand stop' (xs ++ ys')) := by
  cases xs with
  | nil => exact .nil
  | cons x xs =>
    refine .ite (.behind (negatedNumber_meets xs)) ?_
    cases operandTerm? x with
    | none => exact .demand
    | some term =>
      cases xs with
      | nil => exact .beyond (List.suffix_refl _) (List.suffix_refl _)
      | cons y xs => exact .within (List.suffix_cons x _)

theorem comparisonTail_meets {lhs : Operand} (xs : List Token) :
    Meets xs (comparisonTail stop lhs (xs ++ ys)) (comparisonTail stop' lhs (xs ++ ys')) := by
  cases xs with
  | nil => exact .nil
  | cons x xs =>
    simp only [List.cons_append, comparisonTail]
    cases comparison? x with
    | none => exact .pure
    | some op => exact .behind (.map _ (operand_meets xs))

theorem simplePredicate_meets (xs : List Token) :
    Meets xs (simplePredicate stop (xs ++ ys)) (simplePredicate stop' (xs ++ ys')) := by
  cases xs with
  | nil => exact .nil
  | cons x xs =>
    refine .ite (.behind (.map _ (expect_meets xs))) ?_
    refine .ite (.behind (.map _ (expect_meets xs))) ?_
    exact .andThen (operand_meets (x :: xs)) fun lhs z zs _ _ _ => comparisonTail_meets (z :: zs)

mutual

theorem condition_meets (xs : List Token) :
    Meets xs (condition stop (xs ++ ys)) (condition stop' (xs ++ ys')) := by
  rw [condition, condition]
  exact .andThen (conjunction_meets xs) fun lhs z zs _ _ h => conditionTail_meets lhs (z :: zs)
  termination_by xs.length * 5 + 4
  decreasing_by
  · omega
  · have := h.length_le; omega

theorem conditionTail_meets (lhs : Condition) : (xs : List Token) →
    Meets xs (conditionTail stop lhs (xs ++ ys)) (conditionTail stop' lhs (xs ++ ys'))
  | [] => .nil
  | x :: xs => by
    show @Meets _ (x :: xs) ys ys' (conditionTail stop lhs (x :: (xs ++ ys)))
      (conditionTail stop' lhs (x :: (xs ++ ys')))
    rw [conditionTail, conditionTail]
    refine .ite (.behind ?_) .pure
    exact .andThen (conjunction_meets xs) fun rhs z zs _ _ h => conditionTail_meets _ (z :: zs)
  termination_by xs => xs.length * 5 + 3
  decreasing_by
  · simp only [List.length_cons]; omega
  · have := h.length_le; simp only [List.length_cons] at *; omega

theorem conjunction_meets (xs : List Token) :
    Meets xs (conjunction stop (xs ++ ys)) (conjunction stop' (xs ++ ys')) := by
  rw [conjunction, conjunction]
  exact .andThen (predicate_meets xs) fun lhs z zs _ _ h => conjunctionTail_meets lhs (z :: zs)
  termination_by xs.length * 5 + 2
  decreasing_by
  · omega
  · have := h.length_le; omega

theorem conjunctionTail_meets (lhs : Condition) : (xs : List Token) →
    Meets xs (conjunctionTail stop lhs (xs ++ ys)) (conjunctionTail stop' lhs (xs ++ ys'))
  | [] => .nil
  | x :: xs => by
    show @Meets _ (x :: xs) ys ys' (conjunctionTail stop lhs (x :: (xs ++ ys)))
      (conjunctionTail stop' lhs (x :: (xs ++ ys')))
    rw [conjunctionTail, conjunctionTail]
    refine .ite (.behind ?_) .pure
    exact .andThen (predicate_meets xs) fun rhs z zs _ _ h => conjunctionTail_meets _ (z :: zs)
  termination_by xs => xs.length * 5 + 1
  decreasing_by
  · simp only [List.length_cons]; omega
  · have := h.length_le; simp only [List.length_cons] at *; omega

theorem predicate_meets : (xs : List Token) →
    Meets xs (predicate stop (xs ++ ys)) (predicate stop' (xs ++ ys'))
  | [] => .nil
  | x :: xs => by
    show @Meets _ (x :: xs) ys ys' (predicate stop (x :: (xs ++ ys)))
      (predicate stop' (x :: (xs ++ ys')))
    rw [predicate, predicate]
    refine .ite (.behind ?_) (simplePredicate_meets (x :: xs))
    exact .andThen (condition_meets xs) fun _ z zs _ _ _ => .map _ (expect_meets (z :: zs))
  termination_by xs => xs.length * 5
  decreasing_by simp only [List.length_cons]; omega

end

/-- What is read of a header and to what end is settled by the tokens up to the one in front of
which reading stops. -/
theorem parse_meets {directive : Token} (xs : List Token) :
    Meets xs (parse stop directive (xs ++ ys)) (parse stop' directive (xs ++ ys')) := by
  cases xs with
  | nil => exact .nil
  | cons x xs =>
    refine .andThen (condition_meets (x :: xs)) fun cond z zs _ _ _ => ?_
    refine .ite (.behind ?_) .demand
    cases zs with
    | nil => exact .nil
    | cons y zs => exact .pure

end Header

end HashIf
