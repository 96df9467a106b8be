import HashIf.Environment.Listing
import HashIf.Proofs.Environment.Entries
import HashIf.Proofs.Environment.Names
import Mathlib

/-! The listing of an environment. The order in which names were bound does not show in it. As long
as no raw text holds a line feed, it has one line for each variable, by name, and the variables can
be read off it. -/

namespace HashIf

/-! ## Order -/

namespace Environment

variable {e e' : Environment}

theorem sorted_perm (e : Environment) : e.sorted.Perm e.entries := List.mergeSort_perm ..

theorem sorted_pairwise (e : Environment) : e.sorted.Pairwise fun v w => v.name < w.name := by
  have hle : e.sorted.Pairwise fun v w => v.name ≤ w.name := by
    have h : e.sorted.Pairwise fun v w => decide (v.name ≤ w.name) = true := by
      apply List.pairwise_mergeSort
      · intro u v w huv hvw
        exact decide_eq_true (le_trans (of_decide_eq_true huv) (of_decide_eq_true hvw))
      · intro v w
        simpa using le_total v.name w.name
    exact h.imp of_decide_eq_true
  have hne : e.sorted.Pairwise fun v w => v.name ≠ w.name :=
    List.pairwise_map.mp (((sorted_perm e).map _).nodup_iff.mpr e.nodup)
  exact hle.imp₂ (fun _ _ => lt_of_le_of_ne) hne

end Environment

/-! ## Lines -/

theorem lineFeed_not_mem_typeName (t : ValueType) : '\n' ∉ t.name.toList := by
  cases t <;> decide

namespace Variable

/-- What the listing says of a variable behind its name. -/
def account (v : Variable) : List Char := v.raw.toList ++ " : ".toList ++ v.type.name.toList

/-- The line of a variable without its line feed. -/
def line (width : Nat) (v : Variable) : List Char :=
  v.name.toList ++ (List.replicate (width - v.name.length) ' ' ++ ' ' :: '=' :: ' ' :: v.account)

theorem toList_listingLine (width : Nat) (v : Variable) :
    (Environment.listingLine width v).toList = v.line width ++ ['\n'] := by
  simp [Environment.listingLine, line, account]

theorem count_line (width : Nat) {v : Variable} (h : isName v.name = true) :
    (v.line width).count '\n' = v.raw.toList.count '\n' := by
  have hname := List.count_eq_zero_of_not_mem (lineFeed_not_mem_of_isName h)
  have htype := List.count_eq_zero_of_not_mem (lineFeed_not_mem_typeName v.type)
  simp [line, account, hname, htype, List.count_replicate]

/-- Behind the raw text stands the name of one of four types, no two of which end alike. -/
theorem raw_of_account {v w : Variable} (h : v.account = w.account) : v.raw = w.raw := by
  apply String.toList_injective
  unfold account at h
  cases hv : v.type <;> cases hw : w.type <;> rw [hv, hw] at h
  case bool.bool | int.int | float.float | string.string =>
    exact List.append_cancel_right (List.append_cancel_right h)
  all_goals
    have hr := congrArg List.reverse h
    simp [ValueType.name] at hr

/-- The name ends at the first blank and what is said of it begins behind the equality sign, however
wide the names are. -/
theorem eq_of_line {v w : Variable} {n m : Nat} (hv : isName v.name = true)
    (hw : isName w.name = true) (h : v.line n = w.line m) : v = w := by
  have spaced (k : Nat) (cs : List Char) : ∀ c ∈ (List.replicate k ' ' ++ ' ' :: cs).head?,
      isNamePart c = false := by
    cases k <;> simp [List.replicate_succ] <;> decide
  have hspan := congrArg (List.span isNamePart) h
  rw [line, line, span_append_of_head (isNamePart_of_isName hv) (spaced _ _),
    span_append_of_head (isNamePart_of_isName hw) (spaced _ _)] at hspan
  obtain ⟨hname, hrest⟩ := Prod.mk.inj hspan
  have gap (k : Nat) (cs : List Char) :
      (List.replicate k ' ' ++ ' ' :: '=' :: cs).dropWhile (· == ' ') = '=' :: cs := by
    rw [List.dropWhile_append_of_pos fun c hc => by rw [List.eq_of_mem_replicate hc]; rfl]
    rfl
  have hdrop := congrArg (List.dropWhile (· == ' ')) hrest
  rw [gap, gap] at hdrop
  injection hdrop with _ hdrop
  injection hdrop with _ haccount
  exact binding_injective (Prod.ext (String.toList_injective hname) (raw_of_account haccount))

/-- A variable the raw text of which is neither a truth value nor a numeral. -/
def ofText (name raw : String) (hw : raw ≠ "true" ∧ raw ≠ "false")
    (hi : isIntegerShape raw.toList = false) (hf : isFloatShape raw.toList = false) : Variable :=
  ⟨name, raw, .string (Text.ofString raw), by simp [Datum.ofString, hw, hi, hf]⟩

end Variable

theorem lineFeed_append_inj {cs ds rest rest' : List Char} (hc : '\n' ∉ cs) (hd : '\n' ∉ ds)
    (h : cs ++ '\n' :: rest = ds ++ '\n' :: rest') : cs = ds ∧ rest = rest' := by
  have before {cs : List Char} (hc : '\n' ∉ cs) : ∀ c ∈ cs, (c != '\n') = true := by
    intro c hm
    rw [bne_iff_ne]
    rintro rfl
    exact hc hm
  have hspan := congrArg (List.span (· != '\n')) h
  rw [span_append_of_head (before hc) (by simp), span_append_of_head (before hd) (by simp)] at hspan
  obtain ⟨rfl, hrest⟩ := Prod.mk.inj hspan
  exact ⟨rfl, (List.cons.inj hrest).2⟩

/-! ## Listings -/

/-- The text is made up of lines that a line feed ends, as many as there are names, and each begins
with its name. -/
inductive LinesBegin : (names : List String) → (text : List Char) → Prop
  | nil : LinesBegin [] []
  | cons (hn : name.toList <+: line) (hl : '\n' ∉ line) (h : LinesBegin names rest) :
    LinesBegin (name :: names) (line ++ '\n' :: rest)

/-- The raw text stands on one line. -/
def Variable.Flat (v : Variable) : Prop := '\n' ∉ v.raw.toList

instance (v : Variable) : Decidable v.Flat := inferInstanceAs (Decidable ('\n' ∉ v.raw.toList))

section
variable {vs ws : List Variable} {n m : Nat}

theorem linesBegin_of_flat (hn : ∀ v ∈ vs, isName v.name = true) (hf : ∀ v ∈ vs, v.Flat) :
    LinesBegin (vs.map (·.name)) (vs.flatMap fun v => v.line n ++ ['\n']) := by
  induction vs with
  | nil => exact .nil
  | cons v vs ih =>
    obtain ⟨hv, hvs⟩ := List.forall_mem_cons.mp hn
    obtain ⟨hf, hfs⟩ := List.forall_mem_cons.mp hf
    rw [List.flatMap_cons, List.append_assoc]
    refine .cons (List.prefix_append ..) ?_ (ih hvs hfs)
    rw [← List.count_eq_zero, Variable.count_line n hv]
    exact List.count_eq_zero_of_not_mem hf

theorem eq_of_lines (hv : ∀ v ∈ vs, isName v.name = true ∧ v.Flat)
    (hw : ∀ v ∈ ws, isName v.name = true ∧ v.Flat)
    (h : (vs.flatMap fun v => v.line n ++ ['\n']) = ws.flatMap fun v => v.line m ++ ['\n']) :
    vs = ws := by
  have flat {v : Variable} (k : Nat) (h : isName v.name = true ∧ v.Flat) : '\n' ∉ v.line k := by
    rw [← List.count_eq_zero, Variable.count_line k h.1]
    exact List.count_eq_zero_of_not_mem h.2
  induction vs generalizing ws with
  | nil =>
    cases ws with
    | nil => rfl
    | cons w ws => simp at h
  | cons v vs ih =>
    cases ws with
    | nil => simp at h
    | cons w ws =>
      obtain ⟨hv, hvs⟩ := List.forall_mem_cons.mp hv
      obtain ⟨hw, hws⟩ := List.forall_mem_cons.mp hw
      simp only [List.flatMap_cons, List.append_assoc, List.singleton_append] at h
      obtain ⟨hline, hrest⟩ := lineFeed_append_inj (flat n hv) (flat m hw) h
      rw [Variable.eq_of_line hv.1 hw.1 hline, ih hvs hws hrest]

theorem count_lines (hn : ∀ v ∈ vs, isName v.name = true) :
    (vs.flatMap fun v => v.line n ++ ['\n']).count '\n' =
      vs.length + (vs.map fun v => v.raw.toList.count '\n').sum := by
  induction vs with
  | nil => rfl
  | cons v vs ih =>
    obtain ⟨hv, hvs⟩ := List.forall_mem_cons.mp hn
    rw [List.flatMap_cons, List.count_append, List.count_append, Variable.count_line n hv, ih hvs,
      List.map_cons, List.sum_cons, List.length_cons, List.count_singleton_self]
    omega

end

namespace Environment

variable {e e' : Environment}

def Named (e : Environment) : Prop := ∀ name ∈ e.names, isName name = true

/-- No raw text holds a line feed. -/
def Flat (e : Environment) : Prop := ∀ v ∈ e.entries, v.Flat

instance (e : Environment) : Decidable e.Named :=
  inferInstanceAs (Decidable (∀ name ∈ e.names, isName name = true))

instance (e : Environment) : Decidable e.Flat :=
  inferInstanceAs (Decidable (∀ v ∈ e.entries, v.Flat))

theorem toList_listing (e : Environment) :
    e.listing.toList = e.sorted.flatMap fun v => v.line e.nameWidth ++ ['\n'] := by
  rw [listing, String.toList_join, List.flatMap_map]
  simp only [Variable.toList_listingLine]

theorem Named.of_sorted (h : e.Named) : ∀ v ∈ e.sorted, isName v.name = true := by
  intro v hv
  exact h _ (List.mem_map.mpr ⟨v, (sorted_perm e).mem_iff.mp hv, rfl⟩)

theorem Flat.of_sorted (h : e.Flat) : ∀ v ∈ e.sorted, v.Flat := by
  intro v hv
  exact h v ((sorted_perm e).mem_iff.mp hv)

theorem count_listing (h : e.Named) : e.listing.toList.count '\n' =
    e.entries.length + (e.entries.map fun v => v.raw.toList.count '\n').sum := by
  rw [toList_listing, count_lines h.of_sorted, (sorted_perm e).length_eq,
    ((sorted_perm e).map _).sum_eq]

/-- The listing of an environment with proper names has as many lines as variables exactly if no raw
text holds a line feed. Then each line begins with its name, the names stand in the order of their
code points, and the variables can be read off the listing. -/
theorem listing_faithful (h : e.Named) :
    (e.listing.toList.count '\n' = e.entries.length ↔ e.Flat) ∧
    (e.Flat → ∃ names : List String, names.Perm e.names ∧ names.Pairwise (· < ·) ∧
      LinesBegin names e.listing.toList) ∧
    ∀ e' : Environment, e'.Named → e.Flat → e'.Flat → e.listing = e'.listing →
      ∀ name, e.raw? name = e'.raw? name := by
  refine ⟨?_, fun hf => ?_, fun e' h' hf hf' hl name => ?_⟩
  · rw [count_listing h, Nat.add_eq_left, List.sum_eq_zero_iff, List.forall_mem_map]
    simp only [List.count_eq_zero]
    rfl
  · refine ⟨e.sorted.map (·.name), (sorted_perm e).map _, ?_, ?_⟩
    · exact List.pairwise_map.mpr (sorted_pairwise e)
    · rw [toList_listing]
      exact linesBegin_of_flat h.of_sorted hf.of_sorted
  · have hs : e.sorted = e'.sorted := by
      apply eq_of_lines
      · exact fun v hv => ⟨h.of_sorted v hv, hf.of_sorted v hv⟩
      · exact fun v hv => ⟨h'.of_sorted v hv, hf'.of_sorted v hv⟩
      · rw [← toList_listing, ← toList_listing, hl]
    apply raw?_of_perm
    exact (sorted_perm e).symm.trans (hs ▸ sorted_perm e')

/-- Two variables, of which the first by name was bound last. -/
def outOfOrder : Environment :=
  ⟨[.ofText "b" "y" (by decide) (by decide) (by decide),
    .ofText "a" "x" (by decide) (by decide) (by decide)], by decide⟩

def inOrder : Environment :=
  ⟨[.ofText "a" "x" (by decide) (by decide) (by decide),
    .ofText "b" "y" (by decide) (by decide) (by decide)], by decide⟩

theorem listing_faithful_outOfOrder :
    outOfOrder.Named ∧ outOfOrder.Flat ∧ inOrder.Named ∧ inOrder.Flat ∧
      outOfOrder.listing.toList.count '\n' = 2 ∧
      (∃ names : List String, names.Perm ["b", "a"] ∧ names.Pairwise (· < ·) ∧
        LinesBegin names outOfOrder.listing.toList) ∧
      outOfOrder.listing = inOrder.listing ∧
      ∀ name, outOfOrder.raw? name = inOrder.raw? name := by
  have hn : outOfOrder.Named ∧ inOrder.Named := by decide
  have hf : outOfOrder.Flat ∧ inOrder.Flat := by decide
  have hl : outOfOrder.listing = inOrder.listing := by cbv
  obtain ⟨hcount, hnames, hread⟩ := listing_faithful hn.1
  exact ⟨hn.1, hf.1, hn.2, hf.2, hcount.mpr hf.1, hnames hf.1, hl, hread inOrder hn.2 hf.1 hf.2 hl⟩

/-- One variable, the raw text of which goes on like the listing of another one. -/
def runOn : Environment :=
  ⟨[.ofText "a" "x : string\nb = y" (by decide) (by decide) (by decide)], by decide⟩

/-- A raw text with a line feed takes two lines, and they read like the lines of two variables. -/
theorem listing_runOn :
    runOn.Named ∧ inOrder.Named ∧ runOn.entries.length = 1 ∧
      runOn.listing.toList.count '\n' = 2 ∧ runOn.listing = inOrder.listing ∧
      runOn.raw? "b" = none ∧ inOrder.raw? "b" = some "y" := by
  have hn : runOn.Named ∧ inOrder.Named := by decide
  have hl : runOn.listing = inOrder.listing := by cbv
  exact ⟨hn.1, hn.2, rfl, by cbv, hl, by decide, by decide⟩

end Environment

end HashIf
