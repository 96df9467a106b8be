import HashIf.Environment
import HashIf.Proofs.Number.IntegerShape

/-! When an environment can be made: custom names have to be names, and no raw text may be a decimal
numeral that is too long. -/

namespace HashIf

/-- The raw text of a name is a long decimal numeral. -/
def Bindings.Long (b : Bindings) : Prop := ∃ e ∈ b.entries, LongInteger e.2.toList

def Bindings.Named (b : Bindings) : Prop := ∀ e ∈ b.entries, isName e.1 = true

/-- Among raw texts is a long decimal numeral of `n` digits. -/
def LongAmong (es : List (String × String)) (n : Nat) : Prop :=
  ∃ e ∈ es, LongInteger e.2.toList ∧ decimalCount e.2.toList = n

theorem LongAmong.long {b : Bindings} (h : LongAmong b.entries n) : b.Long := by
  obtain ⟨e, he, hlong, -⟩ := h
  exact ⟨e, he, hlong⟩

/-- The first long decimal numeral among raw texts has `n` digits. -/
inductive FirstLong : List (String × String) → (n : Nat) → Prop
  | head (h : LongInteger e.2.toList) : FirstLong (e :: es) (decimalCount e.2.toList)
  | tail (h : ¬LongInteger e.2.toList) (hn : FirstLong es n) : FirstLong (e :: es) n

namespace FirstLong

theorem among (h : FirstLong es n) : LongAmong es n := by
  induction h with
  | head h => exact ⟨_, List.mem_cons_self, h, rfl⟩
  | tail _ _ ih =>
    obtain ⟨e, he, h⟩ := ih
    exact ⟨e, List.mem_cons_of_mem _ he, h⟩

theorem long {b : Bindings} (h : FirstLong b.entries n) : b.Long := h.among.long

theorem unique (h : FirstLong es n) (h' : FirstLong es n') : n = n' := by
  induction h with
  | head h =>
    cases h' with
    | head => rfl
    | tail hs => exact (hs h).elim
  | tail hs _ ih =>
    cases h' with
    | head h => exact (hs h).elim
    | tail _ h' => exact ih h'

theorem append (hf : ∀ e ∈ front, ¬LongInteger e.2.toList) (h : FirstLong es n) :
    FirstLong (front ++ es) n := by
  induction front with
  | nil => exact h
  | cons e front ih =>
    obtain ⟨he, hf⟩ := List.forall_mem_cons.mp hf
    exact .tail he (ih hf)

end FirstLong

theorem typeEntries_cases (es : List (String × String)) :
    (∃ vs, typeEntries es = .ok vs) ∧ (∀ e ∈ es, ¬LongInteger e.2.toList) ∨
      ∃ n, typeEntries es = .error (.numeral n) ∧ FirstLong es n := by
  induction es with
  | nil => exact .inl ⟨⟨_, rfl⟩, nofun⟩
  | cons e es ih =>
    obtain ⟨name, raw⟩ := e
    rw [typeEntries]
    split
    · next x hx =>
      obtain ⟨rfl, hlong⟩ := Datum.ofString_error_iff.mp hx
      exact .inr ⟨_, rfl, .head hlong⟩
    · next d hd =>
      have hshort : ¬LongInteger raw.toList := fun h => by
        have he := Datum.ofString_error_iff.mpr ⟨rfl, h⟩
        rw [hd] at he
        cases he
      rcases ih with ⟨⟨vs, hvs⟩, hes⟩ | ⟨n, hvs, hn⟩
      · rw [hvs]
        exact .inl ⟨⟨_, rfl⟩, List.forall_mem_cons.mpr ⟨hshort, hes⟩⟩
      · rw [hvs]
        exact .inr ⟨n, rfl, .tail hshort hn⟩

namespace Environment

theorem ofBindings_cases (b : Bindings) :
    (∃ env, ofBindings b = .ok env) ∧ ¬b.Long ∨
      ∃ n, ofBindings b = .error (.numeral n) ∧ FirstLong b.entries n := by
  rw [ofBindings]
  rcases typeEntries_cases b.entries with ⟨⟨vs, hvs⟩, hes⟩ | ⟨n, hvs, hn⟩
  · rw [hvs]
    exact .inl ⟨⟨_, rfl⟩, fun ⟨e, he, h⟩ => hes e he h⟩
  · rw [hvs]
    exact .inr ⟨n, rfl, hn⟩

theorem checkNames_of_named {es : List (String × String)} (h : ∀ e ∈ es, isName e.1 = true) :
    checkNames es = .ok () := by
  induction es with
  | nil => rfl
  | cons e es ih =>
    obtain ⟨he, hes⟩ := List.forall_mem_cons.mp h
    rw [checkNames, if_pos he, ih hes]

/-- With custom names that are names, an environment is made unless a raw text is too long. Then the
first that is tells how many digits it has. -/
theorem build_cases (builtin : Bindings) {custom : Bindings} (h : custom.Named) :
    (∃ env, build builtin custom = .ok env) ∧ ¬(builtin.insertAll custom.entries).Long ∨
      ∃ n, build builtin custom = .error (.limit (.numeral n)) ∧
        FirstLong (builtin.insertAll custom.entries).entries n := by
  rw [build, checkNames_of_named h]
  rcases ofBindings_cases (builtin.insertAll custom.entries) with ⟨⟨env, he⟩, hs⟩ | ⟨n, he, hn⟩
  · exact .inl ⟨⟨env, by rw [he]⟩, hs⟩
  · exact .inr ⟨n, by rw [he], hn⟩

end Environment

/-! ## Definitions -/

theorem mem_bindIn (h : e ∈ bindIn name raw es) : e = (name, raw) ∨ e ∈ es := by
  induction es with
  | nil => exact .inl (List.mem_singleton.mp h)
  | cons x es ih =>
    rw [bindIn] at h
    split at h
    · rcases List.mem_cons.mp h with h | h
      · exact .inl h
      · exact .inr (List.mem_cons_of_mem _ h)
    · rcases List.mem_cons.mp h with rfl | h
      · exact .inr List.mem_cons_self
      · exact (ih h).imp_right (List.mem_cons_of_mem _)

theorem Bindings.Named.insert {b : Bindings} (h : b.Named) (hn : isName name = true) :
    (b.insert name raw).Named := by
  intro e he
  rcases mem_bindIn he with rfl | he
  · exact hn
  · exact h e he

theorem isName_of_parseDefinition (h : parseDefinition text = .ok (name, raw)) :
    isName name = true := by
  simp only [parseDefinition] at h
  split at h
  · next hn =>
    cases h
    exact hn
  · cases h

end HashIf
