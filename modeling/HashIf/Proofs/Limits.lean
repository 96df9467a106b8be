import HashIf.CommandLine
import HashIf.FileSystem
import HashIf.Proofs.Environment.Building
import HashIf.Proofs.Filter.Limits
import HashIf.Proofs.Layout.Streaming

/-! How runs end. Conditional compilation gives tokens or a diagnostic with a place, and the command
line an exit code, unless a number goes beyond a limit; for numbers in bindings and in conditions
that are consulted this is not reported. -/

namespace HashIf

/-! ## Conditional compilation -/

/-- Conditional compilation gives tokens, or a diagnostic with a place. -/
def Answers (builtin custom : Bindings) (file source : String) : Prop :=
  ∃ env, Environment.build builtin custom = .ok env ∧
    ((∃ ts, preprocess env file source = .ok ts) ∨
      ∃ d, preprocess env file source = .error (.diagnostic d) ∧ d.loc?.isSome = true)

/-- A raw text, or a condition that is consulted, holds a number beyond a limit. -/
def Oversized (builtin custom : Bindings) (file source : String) : Prop :=
  (builtin.insertAll custom.entries).Long ∨
    ∃ env ts q, Environment.build builtin custom = .ok env ∧ tokenize file source = .ok ts ∧
      Consults env ts q ∧ q.Large env

theorem preprocess_breaksOff_iff (env : Environment) (file source : String) :
    BreaksOff (preprocess env file source) ↔
      ∃ ts q, tokenize file source = .ok ts ∧ Consults env ts q ∧ q.Large env := by
  rw [preprocess]
  cases ht : tokenize file source with
  | error e => simp [BreaksOff]
  | ok ts =>
    simp only [Except.ok.injEq]
    rw [filterTokens_breaksOff_iff (eofLast_of_tokenize ht)]
    constructor
    · rintro ⟨q, hq⟩
      exact ⟨ts, q, rfl, hq⟩
    · rintro ⟨_, q, rfl, hq⟩
      exact ⟨q, hq⟩

theorem preprocess_located (h : preprocess env file source = .error f) : f.Located := by
  rw [preprocess] at h
  split at h
  · cases h
    rfl
  · next ts ht => exact filterTokens_located (eofLast_of_tokenize ht) h

theorem preprocess_cases (env : Environment) (file source : String)
    (h : ¬BreaksOff (preprocess env file source)) :
    (∃ ts, preprocess env file source = .ok ts) ∨
      ∃ d, preprocess env file source = .error (.diagnostic d) ∧ d.loc?.isSome = true := by
  cases hp : preprocess env file source with
  | ok ts => exact .inl ⟨ts, rfl⟩
  | error f =>
    cases f with
    | limit l => exact (h ⟨l, hp⟩).elim
    | diagnostic d => exact .inr ⟨d, rfl, preprocess_located hp⟩

theorem oversized_iff (hb : Environment.build builtin custom = .ok env)
    (hs : ¬(builtin.insertAll custom.entries).Long) :
    Oversized builtin custom file source ↔ BreaksOff (preprocess env file source) := by
  rw [preprocess_breaksOff_iff, Oversized, hb]
  simp [hs]

theorem answers_iff (builtin : Bindings) {custom : Bindings} (hn : custom.Named)
    (file source : String) :
    Answers builtin custom file source ↔ ¬Oversized builtin custom file source := by
  rcases Environment.build_cases builtin hn with ⟨⟨env, hb⟩, hs⟩ | ⟨n, hb, hl⟩
  · rw [oversized_iff hb hs]
    constructor
    · rintro ⟨env', hb', h⟩ ⟨l, hl⟩
      obtain rfl : env = env' := Except.ok.inj (hb.symm.trans hb')
      rcases h with ⟨ts, h⟩ | ⟨d, h, -⟩
      · rw [h] at hl
        cases hl
      · rw [h] at hl
        cases hl
    · exact fun h => ⟨env, hb, preprocess_cases env file source h⟩
  · constructor
    · rintro ⟨env, hb', -⟩
      rw [hb] at hb'
      cases hb'
    · exact fun h => (h (.inl hl.long)).elim

/-! ## The command line -/

theorem Options.withArgument_named {o : Options} (ho : o.definitions.Named)
    (h : o.withArgument option argument = .ok o') : o'.definitions.Named := by
  rw [withArgument] at h
  split at h
  · cases h
    exact ho
  · split at h
    · next name raw hd =>
      cases h
      exact ho.insert (isName_of_parseDefinition hd)
    · cases h

theorem Options.read_named {o : Options} (ho : o.definitions.Named) {arguments : List String}
    (h : o.read arguments = .options o') : o'.definitions.Named := by
  fun_induction Options.read o arguments with
  | case1 o =>
    cases h
    exact ho
  | case3 o option ht argument rest o' hw ih => exact ih (Options.withArgument_named ho hw) h
  | case5 o rest ht ih => exact ih ho h
  | case8 o option rest ht hl hv hs hn ih => exact ih ho h
  | case2 | case4 | case6 | case7 | case9 => cases h

section
variable {σ : Type} (host : Host (StateM σ)) (s : σ)

/-- The run ends with one of the exit codes. -/
def Report.Regular (r : Report) : Prop := ∃ code ≤ 2, r.outcome = .ok code

theorem deliver_regular (output : Option String) (text : String) :
    ((deliver host output text).run s).1.Regular := by
  cases output with
  | none => exact ⟨0, by omega, rfl⟩
  | some path =>
    rw [deliver, StateT.run_bind]
    obtain ⟨r, s'⟩ := (host.writeFile path text).run s
    cases r with
    | ok u => exact ⟨0, by omega, rfl⟩
    | error e => exact ⟨1, by omega, rfl⟩

theorem process_regular_iff (env : Environment) (source : String) (output : Option String)
    (text : String) : ((process host env source output text).run s).1.Regular ↔
      ¬BreaksOff (preprocess env source text) := by
  rw [process, preprocessText_eq]
  cases hp : preprocess env source text with
  | ok ts => exact ⟨fun _ => not_breaksOff_ok, fun _ => deliver_regular host s output _⟩
  | error f =>
    cases f with
    | limit l =>
      refine ⟨?_, fun h => (h breaksOff_limit).elim⟩
      rintro ⟨code, -, h⟩
      cases h
    | diagnostic d => exact ⟨fun _ => not_breaksOff_diagnostic, fun _ => ⟨1, by omega, rfl⟩⟩

/-- The source file, if it can be read as text. -/
def sourceOf (file : String) : Option String :=
  match ((host.readFile file).run s).1 with
  | .error _ => none
  | .ok bytes =>
    match sourceText bytes with
    | .error _ => none
    | .ok source => some source

theorem processFile_regular_iff (env : Environment) (file : String) (output : Option String) :
    ((processFile host env file output).run s).1.Regular ↔
      ∀ source, sourceOf host s file = some source → ¬BreaksOff (preprocess env file source) := by
  rw [processFile, sourceOf, StateT.run_bind]
  obtain ⟨r, s'⟩ := (host.readFile file).run s
  cases r with
  | error e => exact ⟨nofun, fun _ => ⟨1, by omega, rfl⟩⟩
  | ok bytes =>
    change ((match sourceText bytes with
      | .error reason => _
      | .ok source => process host env file output source).run s').1.Regular ↔ _
    cases ht : sourceText bytes with
    | error reason =>
      simp only [ht]
      exact ⟨nofun, fun _ => ⟨1, by omega, rfl⟩⟩
    | ok source =>
      simp only [ht, Option.some.injEq, forall_eq']
      exact process_regular_iff host s' env file output source

theorem runIn_regular_iff (env : Environment) (o : Options) :
    ((runIn host env o).run s).1.Regular ↔ ∀ file source, o.source = some file →
      sourceOf host s file = some source → ¬BreaksOff (preprocess env file source) := by
  rw [runIn]
  cases o.source with
  | none =>
    cases o.listing with
    | false => exact ⟨fun _ => nofun, fun _ => ⟨2, by omega, rfl⟩⟩
    | true => exact ⟨fun _ => nofun, fun _ => ⟨0, by omega, rfl⟩⟩
  | some file =>
    have h : ((processFile host env file o.output).run s).1.Regular ↔ ∀ file' source,
        some file = some file' → sourceOf host s file' = some source →
          ¬BreaksOff (preprocess env file' source) := by
      rw [processFile_regular_iff]
      exact ⟨fun h _ source hf => Option.some.inj hf ▸ h source, fun h source => h file source rfl⟩
    cases o.listing with
    | false => exact h
    | true => exact h

/-- The bindings of options, or a condition of their source, hold a number beyond a limit. -/
def Options.Oversized (platform : Platform) (o : Options) : Prop :=
  ((builtinBindings platform).insertAll o.definitions.entries).Long ∨
    ∃ file source, o.source = some file ∧ sourceOf host s file = some source ∧
      HashIf.Oversized (builtinBindings platform) o.definitions file source

theorem runCommand_regular_iff (platform : Platform) (arguments : List String) :
    ((runCommand host platform arguments).run s).1.Regular ↔
      ∀ o, Options.none.read arguments = .options o → ¬o.Oversized host s platform := by
  rw [runCommand]
  cases hr : Options.none.read arguments with
  | version => exact ⟨fun _ => nofun, fun _ => ⟨0, by omega, rfl⟩⟩
  | error e => exact ⟨fun _ => nofun, fun _ => ⟨2, by omega, rfl⟩⟩
  | options o =>
    simp only [Invocation.options.injEq, forall_eq']
    have hn : o.definitions.Named := Options.read_named (o := .none) nofun hr
    rw [Options.Oversized]
    rcases Environment.build_cases (builtinBindings platform) hn with
      ⟨⟨env, hb⟩, hs⟩ | ⟨n, hb, hl⟩
    · rw [hb]
      refine (runIn_regular_iff host s env o).trans ?_
      simp only [oversized_iff hb hs, hs, false_or, not_exists, not_and]
    · rw [hb]
      refine ⟨?_, fun h => (h (.inl hl.long)).elim⟩
      rintro ⟨code, -, h⟩
      cases h

end

/-! ## Both -/

/-- Conditional compilation gives tokens or a diagnostic with a place, and the command line an exit
code, exactly if no binding and no condition that is consulted holds a number beyond a limit. -/
theorem endings_regular_iff (builtin : Bindings) {custom : Bindings} (hn : custom.Named)
    (file source : String) {σ : Type} (host : Host (StateM σ)) (s : σ) (platform : Platform)
    (arguments : List String) :
    (Answers builtin custom file source ↔ ¬Oversized builtin custom file source) ∧
      (((runCommand host platform arguments).run s).1.Regular ↔
        ∀ o, Options.none.read arguments = .options o → ¬o.Oversized host s platform) :=
  ⟨answers_iff builtin hn file source, runCommand_regular_iff host s platform arguments⟩

/-- A comparison with a string literal beyond the last code point. -/
def beyondLast : String := "#if \"\\u\x7b110000\x7d\" = \"a\"\n#end\n"

def Outline.beyondLast : Outline :=
  .block ⟨.hashWord, "#if", ⟨"a.ml", 0, 1, 1, 3⟩⟩
    (.token ⟨.string, "\"\\u\x7b110000\x7d\"", ⟨"a.ml", 4, 1, 5, 12⟩⟩
      (.token ⟨.symbol "=", "=", ⟨"a.ml", 17, 1, 18, 1⟩⟩
        (.token ⟨.string, "\"a\"", ⟨"a.ml", 19, 1, 20, 3⟩⟩ .done)))
    (.close ⟨.hashWord, "#end", ⟨"a.ml", 23, 2, 1, 4⟩⟩)
    (.token ⟨.eof, "", ⟨"a.ml", 28, 3, 1, 0⟩⟩ .done)

theorem oversized_beyondLast (hb : Environment.build builtin custom = .ok env) :
    Oversized builtin custom "a.ml" beyondLast := by
  have ht : tokenize "a.ml" beyondLast = .ok Outline.beyondLast.tokens := by cbv
  have hm : classify Outline.beyondLast.tokens = Outline.beyondLast.marked ++ [] := by decide
  have hg : Outline.beyondLast.Guarded := by
    simp [Outline.beyondLast, Outline.Guarded, Outline.Plain, Branches.Plain]
  have hf : Outline.beyondLast.Fits [] := by simp [Outline.beyondLast, Outline.Fits, Branches.Fits]
  refine .inr ⟨env, _, _, hb, ht, ⟨_, [], hm, hg, hf, [], _, rfl, rfl⟩, ?_⟩
  exact (Query.truth_breaksOff_iff _).mp ⟨.codePoint, by cbv⟩

def FileSystem.withSource (source : String) : FileSystem :=
  ⟨[], [], [(["a.ml"], source.toUTF8.toList)]⟩

/-- The file is read whole, but its literal is not reported, neither by conditional compilation nor
by the command line. -/
theorem endings_beyondLast :
    Bindings.empty.Named ∧ ¬Answers .empty .empty "a.ml" beyondLast ∧
      ¬((runCommand FileSystem.host {} ["a.ml"]).run (.withSource beyondLast)).1.Regular := by
  have hn : Bindings.empty.Named := nofun
  have h := endings_regular_iff .empty hn "a.ml" beyondLast FileSystem.host
    (.withSource beyondLast) {} ["a.ml"]
  refine ⟨hn, fun ha => h.1.mp ha (oversized_beyondLast rfl), fun hr => ?_⟩
  have ho : Options.none.read ["a.ml"] = .options ⟨some "a.ml", none, .empty, false⟩ := by cbv
  have hs : sourceOf FileSystem.host (.withSource beyondLast) "a.ml" = some beyondLast := by cbv
  refine h.2.mp hr _ ho ?_
  rcases Environment.build_cases (builtinBindings {}) hn with
    ⟨⟨env, hb⟩, -⟩ | ⟨n, -, hl⟩
  · exact .inr ⟨"a.ml", beyondLast, rfl, hs, oversized_beyondLast hb⟩
  · exact .inl hl.long

end HashIf
