import HashIf.Proofs.Environment.Building
import Mathlib

/-! The variables of an environment as a set. Every name is bound once, so environments with the
same variables in another order answer alike, and the variables are known from their names and raw
texts. -/

namespace HashIf

/-! ## Keys -/

section
variable {α β : Type} [BEq α] [LawfulBEq α] {es es' : List (α × β)} {k : α} {v : β}

/-- Where no key occurs twice, the value that is looked up is the one that stands there. -/
theorem mem_iff_lookup (h : (es.map Prod.fst).Nodup) : (k, v) ∈ es ↔ es.lookup k = some v := by
  induction es with
  | nil => simp
  | cons e es ih =>
    obtain ⟨key, value⟩ := e
    obtain ⟨hkey, hes⟩ := List.nodup_cons.mp h
    rw [List.lookup_cons, List.mem_cons, Prod.mk.injEq]
    by_cases hk : k = key
    · subst hk
      have hout : (k, v) ∉ es := fun hm => hkey (List.mem_map.mpr ⟨_, hm, rfl⟩)
      rw [beq_self_eq_true, or_iff_left hout, and_iff_right rfl, Option.some.injEq, eq_comm]
    · rw [beq_false_of_ne hk, or_iff_right fun h => hk h.1]
      exact ih hes

theorem lookup_of_perm (h : (es.map Prod.fst).Nodup) (hp : es.Perm es') (k : α) :
    es.lookup k = es'.lookup k := by
  have h' : (es'.map Prod.fst).Nodup := (hp.map _).nodup_iff.mp h
  apply Option.ext
  intro v
  rw [← mem_iff_lookup h, ← mem_iff_lookup h', hp.mem_iff]

end

/-! ## Variables -/

namespace Variable

/-- The name with the raw text bound to it. -/
def binding (v : Variable) : String × String := (v.name, v.raw)

/-- The datum of a variable follows from its raw text. -/
theorem binding_injective : Function.Injective binding := by
  rintro ⟨name, raw, datum, h⟩ ⟨name', raw', datum', h'⟩ he
  cases he
  cases h.symm.trans h'
  rfl

end Variable

namespace Environment

theorem names_eq (e : Environment) : e.names = (e.entries.map Variable.binding).map Prod.fst := by
  rw [List.map_map]
  rfl

theorem raw?_eq_lookup (e : Environment) (name : String) :
    e.raw? name = (e.entries.map Variable.binding).lookup name := by
  rw [raw?, find?]
  induction e.entries with
  | nil => rfl
  | cons v vs ih =>
    rw [List.map_cons, List.lookup_cons, List.find?_cons]
    by_cases h : v.name = name
    · rw [h, beq_self_eq_true, Variable.binding, h, beq_self_eq_true]
      rfl
    · have h' : (name == v.binding.1) = false := beq_false_of_ne (Ne.symm h)
      rw [beq_false_of_ne h, h']
      exact ih

theorem contains_iff {e : Environment} : e.contains name = true ↔ name ∈ e.names := by
  rw [contains, find?, List.find?_isSome, names, List.mem_map]
  simp only [beq_iff_eq]

/-- The order of the variables does not show in what a name is bound to. -/
theorem raw?_of_perm {e e' : Environment} (h : e.entries.Perm e'.entries) (name : String) :
    e.raw? name = e'.raw? name := by
  rw [raw?_eq_lookup, raw?_eq_lookup]
  refine lookup_of_perm ?_ (h.map _) name
  rw [← names_eq]
  exact e.nodup

/-! ## Environments that are built -/

theorem bindings_of_ofBindings {b : Bindings} (h : ofBindings b = .ok e) :
    e.entries.map Variable.binding = b.entries := by
  rw [ofBindings] at h
  split at h
  · cases h
  · next vs _ =>
    cases h
    exact vs.property

/-- The variables are the built-in bindings with the custom ones on top. -/
theorem bindings_of_build (h : build builtin custom = .ok e) :
    e.entries.map Variable.binding = (builtin.insertAll custom.entries).entries := by
  rw [build] at h
  split at h
  · cases h
  split at h <;> cases h
  next he => exact bindings_of_ofBindings he

end Environment

end HashIf
