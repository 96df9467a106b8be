import HashIf.CommandLine
import HashIf.Proofs.Environment.Building

/-! Arguments as flags. Options are read from arguments that are a sequence of flags with their
words; the last of several output paths counts, and the last definition of each name. -/

namespace HashIf

/-! ## Flags -/

/-- An option with its argument if it takes one, or a source file. -/
inductive Flag
  | definition (option text : String)
  | output (path : String)
  | listing
  | source (file : String)
  deriving DecidableEq

namespace Flag

def words : Flag → List String
  | definition option text => [option, text]
  | output path => ["-o", path]
  | listing => ["--list-conditionals"]
  | source file => [file]

def output? : Flag → Option String
  | output path => some path
  | _ => none

def source? : Flag → Option String
  | source file => some file
  | _ => none

/-- The name that a flag binds, and its raw text. -/
def binding? : Flag → Option (String × String)
  | definition _ text => (parseDefinition text).toOption
  | _ => none

inductive Valid : Flag → Prop
  | definition (ho : option = "--define" ∨ option = "-D") (h : parseDefinition text = .ok e) :
    Valid (.definition option text)
  | output : Valid (.output path)
  | listing : Valid .listing
  | source (h : ¬file.startsWith "-" = true) : Valid (.source file)

end Flag

/-- The options are what flags ask for, no more than one of them a source file. -/
structure Options.Comprises (o : Options) (fs : List Flag) : Prop where
  source : fs.filterMap Flag.source? = o.source.toList
  output : (fs.filterMap Flag.output?).getLast? = o.output
  listing : .listing ∈ fs ↔ o.listing = true
  definition : ∀ name, (fs.filterMap Flag.binding?).reverse.lookup name =
    o.definitions.entries.lookup name

/-! ## Bindings -/

/-- A key is looked up behind a function that puts a value to it, in its place if it has one. -/
theorem lookup_put {α β : Type} [BEq α] [LawfulBEq α] [DecidableEq α] {key : α} {value : β}
    (put : List (α × β) → List (α × β)) (hnil : put [] = [(key, value)])
    (hcons : ∀ e es, put (e :: es) = if e.1 = key then (key, value) :: es else e :: put es)
    (es : List (α × β)) (k : α) :
    (put es).lookup k = if k = key then some value else es.lookup k := by
  induction es with
  | nil =>
    rw [hnil, List.lookup_cons, List.lookup_nil]
    by_cases h : k = key
    · rw [if_pos h, h, beq_self_eq_true]
    · rw [if_neg h, beq_false_of_ne h]
  | cons e es ih =>
    rw [hcons]
    by_cases he : e.1 = key
    · rw [if_pos he, List.lookup_cons, List.lookup_cons, he]
      by_cases h : k = key
      · rw [if_pos h, h, beq_self_eq_true]
      · rw [if_neg h, beq_false_of_ne h]
    · rw [if_neg he, List.lookup_cons, List.lookup_cons, ih]
      by_cases h : k = key
      · have hk : (k == e.1) = false := beq_false_of_ne (h ▸ Ne.symm he)
        simp only [if_pos h, hk]
      · simp only [if_neg h]

theorem lookup_bindIn (name raw n : String) (es : List (String × String)) :
    (bindIn name raw es).lookup n = if n = name then some raw else es.lookup n :=
  lookup_put (bindIn name raw) rfl (fun _ _ => rfl) es n

/-- Of the bindings in a list the last for a name counts. -/
theorem Bindings.lookup_insertAll (b : Bindings) (es : List (String × String)) (n : String) :
    (b.insertAll es).entries.lookup n = (es.reverse.lookup n).or (b.entries.lookup n) := by
  induction es generalizing b with
  | nil => rfl
  | cons e es ih =>
    have hstep : b.insertAll (e :: es) = (b.insert e.1 e.2).insertAll es := rfl
    rw [hstep, ih, insert, lookup_bindIn, List.reverse_cons, List.lookup_append, Option.or_assoc]
    congr 1
    by_cases h : n = e.1
    · rw [if_pos h, List.lookup_cons, h, beq_self_eq_true]
      rfl
    · rw [if_neg h, List.lookup_cons, beq_false_of_ne h]
      rfl

/-! ## Reading -/

/-- Options that are read on top of others. -/
structure Options.Extends (o' o : Options) (fs : List Flag) : Prop where
  source : o'.source.toList = o.source.toList ++ fs.filterMap Flag.source?
  output : o'.output = ((fs.filterMap Flag.output?).getLast?).or o.output
  listing : o'.listing = (o.listing || fs.contains .listing)
  definitions : o'.definitions = o.definitions.insertAll (fs.filterMap Flag.binding?)

namespace Options.Extends

theorem refl (o : Options) : o.Extends o [] where
  source := (List.append_nil _).symm
  output := rfl
  listing := (Bool.or_false _).symm
  definitions := rfl

theorem trans {o o' o'' : Options} (h : o'.Extends o fs) (h' : o''.Extends o' gs) :
    o''.Extends o (fs ++ gs) where
  source := by rw [h'.source, h.source, List.filterMap_append, List.append_assoc]
  output := by
    rw [h'.output, h.output, List.filterMap_append, List.getLast?_append, Option.or_assoc]
  listing := by
    rw [h'.listing, h.listing, List.contains_append, Bool.or_assoc]
  definitions := by
    rw [h'.definitions, h.definitions, List.filterMap_append, Bindings.insertAll,
      Bindings.insertAll, Bindings.insertAll, List.foldl_append]

theorem delivered (o : Options) (path : String) :
    Extends { o with output := some path } o [.output path] where
  source := (List.append_nil _).symm
  output := rfl
  listing := (Bool.or_false _).symm
  definitions := rfl

theorem defined (o : Options) (option : String) (h : parseDefinition text = .ok (name, raw)) :
    Extends { o with definitions := o.definitions.insert name raw } o
      [.definition option text] where
  source := (List.append_nil _).symm
  output := rfl
  listing := (Bool.or_false _).symm
  definitions := by
    rw [List.filterMap_cons_some (b := (name, raw)) (by rw [Flag.binding?, h]; rfl)]
    rfl

theorem argument {o o' : Options} {option argument : String} (ht : takesArgument option = true)
    (h : o.withArgument option argument = .ok o') :
    ∃ f : Flag, f.words = [option, argument] ∧ f.Valid ∧ o'.Extends o [f] := by
  rw [withArgument] at h
  split at h
  · next ho =>
    cases h
    exact ⟨.output argument, congrArg (· :: [argument]) ho.symm, .output, .delivered o argument⟩
  · next ho =>
    have hoption : option = "--define" ∨ option = "-D" := by
      simpa [takesArgument, ho] using ht
    split at h
    · next name raw hd =>
      cases h
      exact ⟨.definition option argument, rfl, .definition hoption hd, .defined o option hd⟩
    · cases h

theorem listed (o : Options) : Extends { o with listing := true } o [.listing] where
  source := (List.append_nil _).symm
  output := rfl
  listing := (Bool.or_true _).symm
  definitions := rfl

theorem sourced {o : Options} (h : o.source = Option.none) (file : String) :
    Extends { o with source := some file } o [.source file] where
  source := by rw [h]; rfl
  output := rfl
  listing := (Bool.or_false _).symm
  definitions := rfl

end Options.Extends

/-- The arguments are words of flags by which options are read on top of others. -/
def Options.ReadBy (arguments : List String) (o o' : Options) : Prop :=
  ∃ fs, arguments = fs.flatMap Flag.words ∧ (∀ f ∈ fs, f.Valid) ∧ o'.Extends o fs

theorem Options.ReadBy.cons {o o₁ o' : Options} {f : Flag} {rest : List String} (hf : f.Valid)
    (hs : o₁.Extends o [f]) (h : ReadBy rest o₁ o') : ReadBy (f.words ++ rest) o o' := by
  obtain ⟨fs, rfl, hfs, hext⟩ := h
  exact ⟨f :: fs, rfl, List.forall_mem_cons.mpr ⟨hf, hfs⟩, hs.trans hext⟩

theorem Options.readBy_of_read {o : Options} {arguments : List String}
    (h : o.read arguments = .options o') : ReadBy arguments o o' := by
  fun_induction Options.read o arguments with
  | case1 o =>
    cases h
    exact ⟨[], rfl, by simp, .refl _⟩
  | case3 o option ht argument rest o₁ hw ih =>
    obtain ⟨f, hwords, hf, hs⟩ := Extends.argument ht hw
    have hrest : ReadBy (f.words ++ rest) o o' := .cons hf hs (ih h)
    rwa [hwords] at hrest
  | case5 o rest ht ih => exact .cons .listing (.listed o) (ih h)
  | case8 o option rest ht hl hv hs hn ih => exact .cons (.source hs) (.sourced hn option) (ih h)
  | case2 | case4 | case6 | case7 | case9 => cases h

/-- Options that arguments give are those of flags with these words. -/
theorem Options.read_none {o : Options} {arguments : List String}
    (h : Options.none.read arguments = .options o) :
    ∃ fs, arguments = fs.flatMap Flag.words ∧ (∀ f ∈ fs, f.Valid) ∧ o.Comprises fs := by
  obtain ⟨fs, hwords, hvalid, hfs⟩ := readBy_of_read h
  refine ⟨fs, hwords, hvalid, ?_⟩
  constructor
  case source => exact hfs.source.symm
  case output => exact (hfs.output.trans (Option.or_none ..)).symm
  case listing =>
    have hl : o.listing = fs.contains .listing := hfs.listing
    rw [hl, List.contains_iff_mem]
  case definition =>
    intro name
    rw [hfs.definitions, Bindings.lookup_insertAll]
    exact (Option.or_none ..).symm

/-- Without `--version` among them, arguments do not ask for the version. -/
theorem Options.read_ne_version {o : Options} {arguments : List String}
    (h : "--version" ∉ arguments) : o.read arguments ≠ .version := by
  fun_induction Options.read o arguments with
  | case3 o option ht argument rest o₁ hw ih =>
    exact ih fun hm => h (List.mem_cons_of_mem _ (List.mem_cons_of_mem _ hm))
  | case5 o rest ht ih => exact ih fun hm => h (List.mem_cons_of_mem _ hm)
  | case6 o rest ht hl => exact absurd List.mem_cons_self h
  | case8 o option rest ht hl hv hs hn ih => exact ih fun hm => h (List.mem_cons_of_mem _ hm)
  | case1 | case2 | case4 | case7 | case9 => exact nofun

end HashIf
