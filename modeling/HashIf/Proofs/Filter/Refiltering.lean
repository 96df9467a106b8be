import HashIf.Proofs.Filter.Course
import Mathlib

/-! Refiltering: passes over what a pass has kept. In front of a token that is kept others may be
dropped, and a directive word that stood within its line may then begin one. No other token becomes
a marker, so without such a word a second pass keeps everything, whatever its environment. -/

namespace HashIf

/-! ## Markers by the token in front -/

namespace Cursor

theorem drop_succ_eq_tail (c : Cursor) (n : Nat) : c.drop (n + 1) = (c.drop n).tail :=
  c.drop_add n 1

theorem lastLine_drop_succ {c : Cursor} (h : c.unread[n]? = some u) :
    (c.drop (n + 1)).lastLine = u.lastLine := by
  have hd : (c.drop n).unread.head? = some u := by rwa [unread_drop, List.head?_drop]
  obtain ⟨us, hu⟩ := List.head?_eq_some_iff.mp hd
  rw [drop_succ_eq_tail, lastLine_tail hu]

/-- A token is marked by its word and by the line in front of it. -/
theorem getElem?_marked {c : Cursor} (h : c.marked[n]? = some (t, m?)) :
    c.unread[n]? = some t ∧
      m? = if (c.drop n).lastLine < t.loc.line then t.directiveWord? else none := by
  have hd : (c.drop n).marked.head? = some (t, m?) := by rwa [marked_drop, List.head?_drop]
  obtain ⟨ms, hms⟩ := List.head?_eq_some_iff.mp hd
  obtain ⟨hu, hm, -⟩ := of_marked_cons hms
  constructor
  · rw [← List.head?_drop, ← unread_drop, hu]
    rfl
  · rw [← hm, marker?, hu]

end Cursor

/-! ## Places of what is kept -/

/-- The numbers of the tokens of a stream that a pass keeps. -/
def keptPlaces (env : Environment) (ts : List Token) : List Nat :=
  (courseFrom env 0 (.start ts) []).emissions.map (·.index)

section

variable {places : List Nat} {i j k k' : Nat}

theorem courseFrom_start_within (env : Environment) (ts : List Token) :
    (courseFrom env 0 (.start ts) []).Within (.start ts) 0 :=
  courseFrom_within env rfl (Nat.zero_le _) []

theorem keptPlaces_ordered (env : Environment) (ts : List Token) :
    (keptPlaces env ts).Pairwise (· < ·) :=
  List.pairwise_map.mpr (courseFrom_start_within env ts).ordered

/-- What is kept are the tokens at these places, and they are no markers. -/
theorem keptPlaces_marked (h : filterTokens env ts = .ok os) :
    List.Forall₂ (fun i t => (Cursor.start ts).marked[i]? = some (t, none))
      (keptPlaces env ts) os := by
  have hos : os = (courseFrom env 0 (.start ts) []).emissions.map (·.token) := by
    rw [filterTokens, filterPass, filterFrom_eq_courseFrom env #[] 0] at h
    dsimp only at h
    split at h
    · cases h
    · cases h
      rfl
  rw [hos, keptPlaces, List.forall₂_map_left_iff, List.forall₂_map_right_iff, List.forall₂_same]
  exact fun e he => ((courseFrom_start_within env ts).emitted e he).marked

theorem le_of_ordered (ho : places.Pairwise (· < ·)) (h : places[k]? = some i) : k ≤ i := by
  induction k generalizing i with
  | zero => exact Nat.zero_le i
  | succ k ih =>
    obtain ⟨hk, rfl⟩ := List.getElem?_eq_some_iff.mp h
    have hlt := List.pairwise_iff_getElem.mp ho k (k + 1) (by omega) hk (Nat.lt_succ_self k)
    exact Nat.lt_of_le_of_lt (ih (List.getElem?_eq_getElem _)) hlt

/-- Places that follow on one another in the stream do so among those that are kept. -/
theorem succ_of_ordered (ho : places.Pairwise (· < ·)) (h : places[k]? = some j)
    (h' : places[k']? = some (j + 1)) : k' = k + 1 := by
  obtain ⟨hk, rfl⟩ := List.getElem?_eq_some_iff.mp h
  obtain ⟨hk', hj⟩ := List.getElem?_eq_some_iff.mp h'
  have mono := List.pairwise_iff_getElem.mp ho
  rcases Nat.lt_trichotomy k' (k + 1) with hlt | rfl | hgt
  · rcases Nat.lt_or_eq_of_le (Nat.le_of_lt_succ hlt) with hlt | rfl
    · have := mono k' k hk' hk hlt
      omega
    · omega
  · rfl
  · have := mono k (k + 1) hk (by omega) (Nat.lt_succ_self k)
    have := mono (k + 1) k' (by omega) hk' hgt
    omega

end

/-! ## Exposed words -/

/-- The token with the number `i` is a directive word within its line, and the token in front of it
is not kept. -/
structure Exposed (ts : List Token) (places : List Nat) (i : Nat) (t : Token) (m : Marker) :
    Prop where
  token : ts[i]? = some t
  word : t.directiveWord? = some m
  dropped : ∃ j u, i = j + 1 ∧ ts[j]? = some u ∧ j ∉ places ∧ t.loc.line ≤ u.lastLine

/-- Only exposed words become markers. -/
theorem exposed_of_marked {places : List Nat} {i k : Nat} (ho : places.Pairwise (· < ·))
    (hf : List.Forall₂ (fun i t => (Cursor.start ts).marked[i]? = some (t, none)) places os)
    (hi : places[k]? = some i) (hm : (Cursor.start os).marked[k]? = some (t, some m)) :
    Exposed ts places i t m := by
  have source {k i : Nat} {t : Token} (hi : places[k]? = some i) (ht : os[k]? = some t) :
      (Cursor.start ts).marked[i]? = some (t, none) := by
    obtain ⟨hk, rfl⟩ := List.getElem?_eq_some_iff.mp hi
    obtain ⟨hk', rfl⟩ := List.getElem?_eq_some_iff.mp ht
    exact hf.get hk hk'
  obtain ⟨htk, hmarker⟩ := Cursor.getElem?_marked hm
  obtain ⟨hline, hword⟩ : ((Cursor.start os).drop k).lastLine < t.loc.line ∧
      t.directiveWord? = some m := by
    split at hmarker
    · next hl => exact ⟨hl, hmarker.symm⟩
    · cases hmarker
  obtain ⟨hti, hnone⟩ := Cursor.getElem?_marked (source hi htk)
  have hwithin : t.loc.line ≤ ((Cursor.start ts).drop i).lastLine := by
    split at hnone
    · cases hnone.trans hword
    · next hl => exact Int.not_lt.mp hl
  refine ⟨hti, hword, ?_⟩
  cases i with
  | zero =>
    -- The first token of the stream is also the first that is kept.
    obtain rfl := Nat.le_zero.mp (le_of_ordered ho hi)
    exact absurd hline (Int.not_lt.mpr hwithin)
  | succ j =>
    have hlt : j + 1 < ts.length := (List.getElem?_eq_some_iff.mp hti).1
    have hj : ts[j]? = some ts[j] := List.getElem?_eq_getElem (Nat.lt_of_succ_lt hlt)
    rw [Cursor.lastLine_drop_succ hj] at hwithin
    refine ⟨j, ts[j], rfl, hj, fun hmem => ?_, hwithin⟩
    -- If the token in front is kept, it stands in front of this one in both streams.
    obtain ⟨k', hk'⟩ := List.getElem?_of_mem hmem
    obtain rfl := succ_of_ordered ho hk' hi
    have hlt' : k' < os.length := hf.length_eq ▸ (List.getElem?_eq_some_iff.mp hk').1
    have hu : os[k']? = some os[k'] := List.getElem?_eq_getElem hlt'
    have hsame : ts[j] = os[k'] :=
      Option.some.inj (hj.symm.trans (Cursor.getElem?_marked (source hk' hu)).1)
    rw [Cursor.lastLine_drop_succ hu, ← hsame] at hline
    exact absurd hline (Int.not_lt.mpr hwithin)

/-- In what a pass keeps only exposed words are markers: directive words within their lines, the
tokens in front of which were dropped. If the token in front of every directive word that is kept
is kept as well, a second pass keeps everything, whatever its environment. -/
theorem filterTokens_refilter (h : filterTokens env ts = .ok os) :
    List.Forall₂ (fun i t => ts[i]? = some t) (keptPlaces env ts) os ∧
      (∀ (k i : Nat) t m, (keptPlaces env ts)[k]? = some i → (classify os)[k]? = some (t, some m) →
        Exposed ts (keptPlaces env ts) i t m) ∧
      ((∀ j ∉ keptPlaces env ts, ∀ t, j + 1 ∈ keptPlaces env ts → ts[j + 1]? = some t →
          t.directiveWord? = none) → ∀ env', filterTokens env' os = .ok os) := by
  have ho := keptPlaces_ordered env ts
  have hf := keptPlaces_marked h
  have hexposed {k i : Nat} {t : Token} {m : Marker} (hi : (keptPlaces env ts)[k]? = some i)
      (hm : (classify os)[k]? = some (t, some m)) : Exposed ts (keptPlaces env ts) i t m :=
    exposed_of_marked ho hf hi hm
  refine ⟨hf.imp fun _ _ hm => (Cursor.getElem?_marked hm).1, fun k i t m => hexposed, ?_⟩
  intro hwords env'
  have hunmarked : ∀ x ∈ classify os, x.2 = none := by
    rintro ⟨t, m?⟩ hx
    cases m? with
    | none => rfl
    | some m =>
      obtain ⟨k, hk⟩ : ∃ k : Nat, (Cursor.start os).marked[k]? = some (t, some m) :=
        List.getElem?_of_mem hx
      have hlt : k < (keptPlaces env ts).length := by
        rw [hf.length_eq]
        exact (List.getElem?_eq_some_iff.mp (Cursor.getElem?_marked hk).1).1
      have hi := List.getElem?_eq_getElem hlt
      obtain ⟨htoken, hword, j, u, hj, -, hdropped, -⟩ := hexposed hi hk
      rw [hj] at hi htoken
      cases hword.symm.trans (hwords j hdropped t (List.mem_of_getElem? hi) htoken)
  rw [filterTokens_eq, passOutcome_unmarked env' (c := .start os) hunmarked]
  rfl

/-- A word behind a header is kept and its header is dropped, so that it is exposed; the word behind
it is not. -/
theorem filterTokens_refilter_exposed :
    let ts := [Token.onLine 1 .hashWord "#if", .onLine 1 .trueWord "true",
      .onLine 1 .thenWord "then", .onLine 1 .hashWord "#else", .onLine 1 .hashWord "#if",
      .onLine 2 .hashWord "#end"]
    let os := [Token.onLine 1 .hashWord "#else", .onLine 1 .hashWord "#if"]
    filterTokens .empty ts = .ok os ∧
      Exposed ts (keptPlaces .empty ts) 3 (.onLine 1 .hashWord "#else") .elseMarker ∧
        (classify os)[1]? = some (.onLine 1 .hashWord "#if", none) := by
  intro ts os
  have h : filterTokens .empty ts = .ok os := by cbv
  have hplaces : keptPlaces .empty ts = [3, 4] := by cbv
  refine ⟨h, (filterTokens_refilter h).2.1 0 3 _ _ ?_ rfl, rfl⟩
  rw [hplaces]
  rfl

end HashIf
