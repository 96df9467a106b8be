import HashIf.Proofs.CommandLine.Arguments
import HashIf.Proofs.Limits

/-! Runs of the command line are all or nothing. A run that does not succeed leaves all files as
they are, and one that succeeds delivers the text that survives conditional compilation, whole and
to one place. -/

namespace HashIf

/-! ## Files -/

/-- The files of a host: the bytes of each, and the one that a path stands for when it is written.
Nothing changes when a file is read or when writing is refused. A file that is written takes the
whole text, and no other file changes. -/
structure Storage {σ : Type} (host : Host (StateM σ)) (φ : Type) where
  content : σ → φ → Option (List UInt8)
  place? : σ → String → Option φ
  content_read : ∀ s path, content ((host.readFile path).run s).2 = content s
  place?_read : ∀ s path, place? ((host.readFile path).run s).2 = place? s
  content_refused : ∀ s path text e, ((host.writeFile path text).run s).1 = .error e →
    content ((host.writeFile path text).run s).2 = content s
  content_written : ∀ s path text, ((host.writeFile path text).run s).1 = .ok () →
    ∃ file, place? s path = some file ∧
      content ((host.writeFile path text).run s).2 file = some text.toUTF8.toList ∧
      ∀ other, other ≠ file → content ((host.writeFile path text).run s).2 other = content s other

namespace FileSystem

theorem read_run (fs : FileSystem) (path : String) : ((host.readFile path).run fs).2 = fs := by
  simp only [host, StateT.run]
  cases fs.read path <;> rfl

theorem write_run (fs : FileSystem) (path text : String) : (host.writeFile path text).run fs =
    match fs.target path with
    | .error e => (.error e, fs)
    | .ok names => (.ok (), { fs with files := putFile names text.toUTF8.toList fs.files }) := by
  simp only [host, StateT.run, write]
  cases fs.target path <;> rfl

/-- The files of a file system in memory, by the names that lead to them. -/
def storage : Storage host (List String) where
  content fs names := fs.files.lookup names
  place? fs path := (fs.target path).toOption
  content_read fs path := by rw [read_run]
  place?_read fs path := by rw [read_run]
  content_refused fs path text e h := by
    rw [write_run] at h ⊢
    cases ht : fs.target path with
    | error e => rfl
    | ok names =>
      rw [ht] at h
      cases h
  content_written fs path text h := by
    rw [write_run] at h ⊢
    cases ht : fs.target path with
    | error e =>
      rw [ht] at h
      cases h
    | ok names =>
      have put := lookup_put (putFile names text.toUTF8.toList) rfl (fun _ _ => rfl) fs.files
      refine ⟨names, rfl, ?_, fun other ho => ?_⟩
      · exact (put names).trans (if_pos rfl)
      · exact (put other).trans (if_neg ho)

end FileSystem

/-! ## Runs on a source file -/

section
variable {σ : Type} (host : Host (StateM σ))

theorem run_bind (action : StateM σ α) (next : α → StateM σ β) (s : σ) :
    (action >>= next).run s = (next (action.run s).1).run (action.run s).2 := rfl

/-- The state behind a file that has been read. -/
def behindFile (file : String) (s : σ) : σ := ((host.readFile file).run s).2

/-- The state behind a text that has been written, or refused, after a file has been read. -/
def behindText (file path text : String) (s : σ) : σ :=
  ((host.writeFile path text).run (behindFile host file s)).2

def unreadable (file reason : String) : Report :=
  .failure 1 (errorLine ("cannot read " ++ file ++ ": " ++ reason))

def unwritable (path reason : String) : Report :=
  .failure 1 (errorLine ("cannot write " ++ path ++ ": " ++ reason))

/-- How a run on a source file ends, and in which state. -/
inductive FileRun (env : Environment) (file : String) (output : Option String) (s : σ) :
    Report → σ → Prop
  | unreadable (h : sourceOf host s file = none) :
    FileRun env file output s (unreadable file reason) (behindFile host file s)
  | faulty (h : sourceOf host s file = some text)
    (hp : preprocess env file text = .error (.diagnostic d)) :
    FileRun env file output s (.failure 1 (d.message ++ "\n")) (behindFile host file s)
  | limited (h : sourceOf host s file = some text)
    (hp : preprocess env file text = .error (.limit l)) :
    FileRun env file output s (.broken l) (behindFile host file s)
  | shown (h : sourceOf host s file = some text) (hp : preprocess env file text = .ok ts)
    (ho : output = none) :
    FileRun env file output s (.success (layout ts)) (behindFile host file s)
  | written (h : sourceOf host s file = some text) (hp : preprocess env file text = .ok ts)
    (ho : output = some path)
    (hw : ((host.writeFile path (layout ts)).run (behindFile host file s)).1 = .ok ()) :
    FileRun env file output s (.success "") (behindText host file path (layout ts) s)
  | refused (h : sourceOf host s file = some text) (hp : preprocess env file text = .ok ts)
    (ho : output = some path)
    (hw : ((host.writeFile path (layout ts)).run (behindFile host file s)).1 = .error e) :
    FileRun env file output s (unwritable path e.message)
      (behindText host file path (layout ts) s)

theorem processFile_eq (env : Environment) (file : String) (output : Option String) (s : σ) :
    (processFile host env file output).run s =
      match ((host.readFile file).run s).1 with
      | .error e => (unreadable file e.message, behindFile host file s)
      | .ok bytes =>
        match sourceText bytes with
        | .error reason => (unreadable file reason, behindFile host file s)
        | .ok text => (process host env file output text).run (behindFile host file s) := by
  rw [processFile, run_bind]
  cases ((host.readFile file).run s).1 with
  | error e => rfl
  | ok bytes =>
    dsimp only
    cases sourceText bytes <;> rfl

theorem process_eq (env : Environment) (file : String) (output : Option String) (text : String)
    (s : σ) :
    (process host env file output text).run s =
      match preprocess env file text with
      | .error (.diagnostic d) => (.failure 1 (d.message ++ "\n"), s)
      | .error (.limit l) => (.broken l, s)
      | .ok ts => (deliver host output (layout ts)).run s := by
  rw [process, preprocessText_eq]
  cases preprocess env file text with
  | ok ts => rfl
  | error f => cases f <;> rfl

theorem deliver_eq (output : Option String) (text : String) (s : σ) :
    (deliver host output text).run s =
      match output with
      | none => (.success text, s)
      | some path =>
        match ((host.writeFile path text).run s).1 with
        | .ok () => (.success "", ((host.writeFile path text).run s).2)
        | .error e => (unwritable path e.message, ((host.writeFile path text).run s).2) := by
  cases output with
  | none => rfl
  | some path =>
    rw [deliver, run_bind]
    dsimp only
    cases ((host.writeFile path text).run s).1 <;> rfl

theorem processFile_run (env : Environment) (file : String) (output : Option String) (s : σ) :
    FileRun host env file output s ((processFile host env file output).run s).1
      ((processFile host env file output).run s).2 := by
  rw [processFile_eq]
  cases hr : ((host.readFile file).run s).1 with
  | error e => exact .unreadable (by rw [sourceOf, hr])
  | ok bytes =>
    dsimp only
    cases ht : sourceText bytes with
    | error reason => exact .unreadable (by simp only [sourceOf, hr, ht])
    | ok text =>
      have hs : sourceOf host s file = some text := by simp only [sourceOf, hr, ht]
      dsimp only
      rw [process_eq]
      cases hp : preprocess env file text with
      | error f =>
        cases f with
        | diagnostic d => exact .faulty hs hp
        | limit l => exact .limited hs hp
      | ok ts =>
        dsimp only
        rw [deliver_eq]
        cases ho : output with
        | none => exact .shown hs hp rfl
        | some path =>
          dsimp only
          cases hw : ((host.writeFile path (layout ts)).run (behindFile host file s)).1 with
          | ok u => exact .written hs hp rfl hw
          | error e => exact .refused hs hp rfl hw

/-! ## Runs with arguments -/

/-- The options that arguments give, and the environment of their definitions. -/
structure Invoked (platform : Platform) (arguments : List String) (o : Options)
    (env : Environment) : Prop where
  options : Options.none.read arguments = .options o
  environment : Environment.build (builtinBindings platform) o.definitions = .ok env

theorem Invoked.unique (h : Invoked platform arguments o env)
    (h' : Invoked platform arguments o' env') : o = o' ∧ env = env' := by
  obtain rfl := Invocation.options.inj (h.options.symm.trans h'.options)
  exact ⟨rfl, Except.ok.inj (h.environment.symm.trans h'.environment)⟩

/-- The listing, if it is asked for. -/
def Options.listed (o : Options) (env : Environment) : String :=
  if o.listing then env.listing else ""

theorem Options.listed_cases (o : Options) (env : Environment) :
    o.listed env = "" ∨ o.listed env = env.listing := by
  unfold listed
  split
  · exact .inr rfl
  · exact .inl rfl

theorem runCommand_eq (h : Invoked platform arguments o env) (hs : o.source = some file) (s : σ) :
    (runCommand host platform arguments).run s =
      (.after (o.listed env) ((processFile host env file o.output).run s).1,
        ((processFile host env file o.output).run s).2) := by
  rw [runCommand, h.options]
  dsimp only
  rw [h.environment]
  dsimp only
  rw [runIn, hs, Options.listed]
  cases o.listing with
  | false =>
    show (processFile host env file o.output).run s = _
    rw [if_neg Bool.false_ne_true, Report.after, String.empty_append]
    rfl
  | true => rfl

/-- How a run with arguments ends, and in which state. An idle run has no source file and shows
nothing. -/
inductive CommandRun (platform : Platform) (arguments : List String) (s : σ) : Report → σ → Prop
  | idle (hout : r.stdout = "") (hzero : r.outcome ≠ .ok 0) (hone : r.outcome ≠ .ok 1)
    (hs : ∀ o env, Invoked platform arguments o env → o.source = none) :
    CommandRun platform arguments s r s
  | listed (hi : Invoked platform arguments o env) (hs : o.source = none) :
    CommandRun platform arguments s (.success env.listing) s
  | filed (hi : Invoked platform arguments o env) (hs : o.source = some file)
    (h : FileRun host env file o.output s r s') :
    CommandRun platform arguments s (.after (o.listed env) r) s'

theorem CommandRun.misused
    (hs : ∀ o env, Invoked platform arguments o env → o.source = none) (text : String) (s : σ) :
    CommandRun host platform arguments s (.failure 2 text) s :=
  .idle rfl (by simp [Report.failure]) (by simp [Report.failure]) hs

theorem runCommand_run (platform : Platform) {arguments : List String}
    (h : "--version" ∉ arguments) (s : σ) :
    CommandRun host platform arguments s ((runCommand host platform arguments).run s).1
      ((runCommand host platform arguments).run s).2 := by
  cases ho : Options.none.read arguments with
  | version => exact absurd ho (Options.read_ne_version h)
  | error e =>
    rw [runCommand, ho]
    exact .misused host (fun o env hi => by cases ho.symm.trans hi.options) _ s
  | options o =>
    cases he : Environment.build (builtinBindings platform) o.definitions with
    | error e =>
      have hnone : ∀ o env, Invoked platform arguments o env → o.source = none := by
        intro o' env hi
        cases ho.symm.trans hi.options
        cases he.symm.trans hi.environment
      rw [runCommand, ho]
      dsimp only
      rw [he]
      cases e with
      | binding e => exact .misused host hnone _ s
      | limit l => exact .idle rfl (by simp [Report.broken]) (by simp [Report.broken]) hnone
    | ok env =>
      have hi : Invoked platform arguments o env := ⟨ho, he⟩
      cases hs : o.source with
      | some file =>
        rw [runCommand_eq host hi hs]
        exact .filed hi hs (processFile_run host env file o.output s)
      | none =>
        rw [runCommand, ho]
        dsimp only
        rw [he]
        dsimp only
        rw [runIn, hs]
        cases hl : o.listing with
        | false => exact .misused host (fun o' env' hi' => (hi.unique hi').1 ▸ hs) _ s
        | true => exact .listed hi hs

/-- A run with a source file is a run on it, behind the listing. -/
theorem CommandRun.of_source (h : CommandRun host platform arguments s r s')
    (hi : Invoked platform arguments o env) (hs : o.source = some file) :
    ∃ r', r = .after (o.listed env) r' ∧ FileRun host env file o.output s r' s' := by
  cases h with
  | idle _ _ _ hnone => cases (hnone o env hi).symm.trans hs
  | listed hi' hs' =>
    obtain ⟨rfl, rfl⟩ := hi.unique hi'
    cases hs'.symm.trans hs
  | filed hi' hs' h =>
    obtain ⟨rfl, rfl⟩ := hi.unique hi'
    cases hs'.symm.trans hs
    exact ⟨_, rfl, h⟩

end

/-! ## All or nothing -/

/-- A text is delivered whole: it is shown, or it is all that a file holds. No other file
changes. -/
inductive Delivered {σ φ : Type} {host : Host (StateM σ)} (st : Storage host φ) (s : σ)
    (text : String) : (output : Option String) → (shown : String) → σ → Prop
  | shown (h : st.content s' = st.content s) : Delivered st s text none text s'
  | written (hp : st.place? s path = some file)
    (hf : st.content s' file = some text.toUTF8.toList)
    (ho : ∀ other, other ≠ file → st.content s' other = st.content s other) :
    Delivered st s text (some path) "" s'

/-- Why a run on a source file fails: the file cannot be read, its text is faulty, or what survives
cannot be written. -/
inductive Failing {σ : Type} (host : Host (StateM σ)) (env : Environment) (file : String)
    (output : Option String) (s : σ) : Prop
  | reading (h : sourceOf host s file = none)
  | preprocessing (h : sourceOf host s file = some text)
    (hp : preprocess env file text = .error (.diagnostic d))
  | writing (h : sourceOf host s file = some text) (hp : preprocess env file text = .ok ts)
    (ho : output = some path)
    (hw : ((host.writeFile path (layout ts)).run (behindFile host file s)).1 = .error e)

/-- What holds of the report of a run and of the state behind it. -/
structure AllOrNothing {σ φ : Type} {host : Host (StateM σ)} (st : Storage host φ)
    (platform : Platform) (arguments : List String) (s : σ) (r : Report) (s' : σ) : Prop where
  /-- The options are those of the arguments as flags. -/
  flags : ∀ o, Options.none.read arguments = .options o →
    ∃ fs, arguments = fs.flatMap Flag.words ∧ (∀ f ∈ fs, f.Valid) ∧ o.Comprises fs
  /-- A run without success changes no file, and shows at most the listing. -/
  nothing : r.outcome ≠ .ok 0 → st.content s' = st.content s ∧
    (r.stdout = "" ∨ ∃ o env, Invoked platform arguments o env ∧ r.stdout = env.listing)
  /-- A run with success delivers what survives of the source file, if there is one. -/
  all : r.outcome = .ok 0 → ∃ o env, Invoked platform arguments o env ∧ r.stderr = "" ∧
    (o.source = none → st.content s' = st.content s ∧ r.stdout = env.listing) ∧
    ∀ file, o.source = some file → ∃ text ts shown, sourceOf host s file = some text ∧
      preprocess env file text = .ok ts ∧ Delivered st s (layout ts) o.output shown s' ∧
      r.stdout = o.listed env ++ shown
  failing : r.outcome = .ok 1 ↔ ∃ o env file, Invoked platform arguments o env ∧
    o.source = some file ∧ Failing host env file o.output s
  /-- A faulty text is reported by its diagnostic. -/
  diagnosed : ∀ o env file text d, Invoked platform arguments o env → o.source = some file →
    sourceOf host s file = some text → preprocess env file text = .error (.diagnostic d) →
    r.outcome = .ok 1 ∧ r.stderr = d.message ++ "\n"

section
variable {σ φ : Type} {host : Host (StateM σ)} (st : Storage host φ)

theorem Failing.cases_of_source (h : Failing host env file output s)
    (hs : sourceOf host s file = some text) :
    (∃ d, preprocess env file text = .error (.diagnostic d)) ∨
      ∃ ts path e, preprocess env file text = .ok ts ∧ output = some path ∧
        ((host.writeFile path (layout ts)).run (behindFile host file s)).1 = .error e := by
  cases h with
  | reading hs' => cases hs.symm.trans hs'
  | preprocessing hs' hp =>
    cases hs.symm.trans hs'
    exact .inl ⟨_, hp⟩
  | writing hs' hp ho hw =>
    cases hs.symm.trans hs'
    exact .inr ⟨_, _, _, hp, ho, hw⟩

namespace FileRun

theorem nothing (h : FileRun host env file output s r s') (hr : r.outcome ≠ .ok 0) :
    st.content s' = st.content s ∧ r.stdout = "" := by
  cases h with
  | unreadable | faulty | limited => exact ⟨st.content_read s file, rfl⟩
  | shown | written => exact absurd rfl hr
  | refused hs hp ho hw =>
    exact ⟨(st.content_refused _ _ _ _ hw).trans (st.content_read s file), rfl⟩

theorem all (h : FileRun host env file output s r s') (hr : r.outcome = .ok 0) :
    ∃ text ts, sourceOf host s file = some text ∧ preprocess env file text = .ok ts ∧
      Delivered st s (layout ts) output r.stdout s' ∧ r.stderr = "" := by
  cases h with
  | unreadable | faulty | limited | refused => cases hr
  | shown hs hp ho =>
    subst ho
    exact ⟨_, _, hs, hp, .shown (st.content_read s file), rfl⟩
  | written hs hp ho hw =>
    subst ho
    obtain ⟨f, hplace, hf, hothers⟩ := st.content_written _ _ _ hw
    rw [behindFile, st.place?_read] at hplace
    have hothers (other : φ) (ho : other ≠ f) := (hothers other ho).trans
      (congrFun (st.content_read s file) other)
    exact ⟨_, _, hs, hp, .written hplace hf hothers, rfl⟩

theorem failing_iff (h : FileRun host env file output s r s') :
    r.outcome = .ok 1 ↔ Failing host env file output s := by
  cases h with
  | unreadable hs => exact ⟨fun _ => .reading hs, fun _ => rfl⟩
  | faulty hs hp => exact ⟨fun _ => .preprocessing hs hp, fun _ => rfl⟩
  | refused hs hp ho hw => exact ⟨fun _ => .writing hs hp ho hw, fun _ => rfl⟩
  | limited hs hp =>
    refine ⟨nofun, fun hf => ?_⟩
    rcases hf.cases_of_source hs with ⟨d, hd⟩ | ⟨ts, path, e, ht, -⟩
    · cases hp.symm.trans hd
    · cases hp.symm.trans ht
  | shown hs hp ho =>
    refine ⟨nofun, fun hf => ?_⟩
    rcases hf.cases_of_source hs with ⟨d, hd⟩ | ⟨ts, path, e, -, ho', -⟩
    · cases hp.symm.trans hd
    · cases ho.symm.trans ho'
  | written hs hp ho hw =>
    refine ⟨nofun, fun hf => ?_⟩
    rcases hf.cases_of_source hs with ⟨d, hd⟩ | ⟨ts, path, e, ht, ho', hw'⟩
    · cases hp.symm.trans hd
    · cases hp.symm.trans ht
      cases ho.symm.trans ho'
      cases hw.symm.trans hw'

theorem diagnosed (h : FileRun host env file output s r s')
    (hs : sourceOf host s file = some text)
    (hp : preprocess env file text = .error (.diagnostic d)) :
    r.outcome = .ok 1 ∧ r.stderr = d.message ++ "\n" := by
  cases h with
  | unreadable hs' => cases hs.symm.trans hs'
  | faulty hs' hp' =>
    cases hs.symm.trans hs'
    cases hp.symm.trans hp'
    exact ⟨rfl, rfl⟩
  | limited hs' hp' | shown hs' hp' | written hs' hp' | refused hs' hp' =>
    cases hs.symm.trans hs'
    cases hp.symm.trans hp'

end FileRun

namespace CommandRun

theorem nothing (h : CommandRun host platform arguments s r s') (hr : r.outcome ≠ .ok 0) :
    st.content s' = st.content s ∧
      (r.stdout = "" ∨ ∃ o env, Invoked platform arguments o env ∧ r.stdout = env.listing) := by
  cases h with
  | idle hout => exact ⟨rfl, .inl hout⟩
  | listed => exact absurd rfl hr
  | @filed o env file r s' hi hs h =>
    obtain ⟨hcontent, hout⟩ := h.nothing st hr
    have hstdout : (Report.after (o.listed env) r).stdout = o.listed env := by
      rw [Report.after, hout, String.append_empty]
    refine ⟨hcontent, ?_⟩
    rw [hstdout]
    exact (o.listed_cases env).imp_right fun hl => ⟨o, env, hi, hl⟩

theorem all (h : CommandRun host platform arguments s r s') (hr : r.outcome = .ok 0) :
    ∃ o env, Invoked platform arguments o env ∧ r.stderr = "" ∧
      (o.source = none → st.content s' = st.content s ∧ r.stdout = env.listing) ∧
      ∀ file, o.source = some file → ∃ text ts shown, sourceOf host s file = some text ∧
        preprocess env file text = .ok ts ∧ Delivered st s (layout ts) o.output shown s' ∧
        r.stdout = o.listed env ++ shown := by
  cases h with
  | idle _ hzero => exact absurd hr hzero
  | listed hi hs =>
    refine ⟨_, _, hi, rfl, fun _ => ⟨rfl, rfl⟩, fun file hs' => ?_⟩
    cases hs.symm.trans hs'
  | filed hi hs h =>
    obtain ⟨text, ts, htext, hts, hd, herr⟩ := h.all st hr
    refine ⟨_, _, hi, herr, fun hs' => ?_, fun file' hs' => ?_⟩
    · cases hs.symm.trans hs'
    · cases hs.symm.trans hs'
      exact ⟨text, ts, _, htext, hts, hd, rfl⟩

theorem failing_iff (h : CommandRun host platform arguments s r s') :
    r.outcome = .ok 1 ↔ ∃ o env file, Invoked platform arguments o env ∧
      o.source = some file ∧ Failing host env file o.output s := by
  constructor
  · intro hr
    cases h with
    | idle _ _ hone => exact absurd hr hone
    | listed => cases hr
    | filed hi hs h => exact ⟨_, _, _, hi, hs, h.failing_iff.mp hr⟩
  · rintro ⟨o, env, file, hi, hs, hf⟩
    obtain ⟨r', rfl, h'⟩ := h.of_source host hi hs
    exact h'.failing_iff.mpr hf

theorem diagnosed (h : CommandRun host platform arguments s r s')
    (hi : Invoked platform arguments o env) (hs : o.source = some file)
    (htext : sourceOf host s file = some text)
    (hp : preprocess env file text = .error (.diagnostic d)) :
    r.outcome = .ok 1 ∧ r.stderr = d.message ++ "\n" := by
  obtain ⟨r', rfl, h'⟩ := h.of_source host hi hs
  exact h'.diagnosed htext hp

end CommandRun

/-- Without `--version`, the command line is all or nothing, and agrees with conditional
compilation. -/
theorem runCommand_allOrNothing (platform : Platform) {arguments : List String}
    (h : "--version" ∉ arguments) (s : σ) :
    AllOrNothing st platform arguments s ((runCommand host platform arguments).run s).1
      ((runCommand host platform arguments).run s).2 := by
  have hrun := runCommand_run host platform h s
  constructor
  case flags => exact fun o => Options.read_none
  case nothing => exact hrun.nothing st
  case all => exact hrun.all st
  case failing => exact hrun.failing_iff
  case diagnosed => exact fun o env file text d hi hs htext hp => hrun.diagnosed hi hs htext hp

end

/-- Of two output paths the last one takes the text, and no file is made of the other. -/
theorem runCommand_allOrNothing_lastPath :
    let arguments := ["-o", "c", "a", "-o", "b"]
    let fs : FileSystem := ⟨[], [], [(["a"], [0x6c, 0x65, 0x74])]⟩
    let run := (runCommand FileSystem.host {} arguments).run fs
    "--version" ∉ arguments ∧ run.1.outcome = .ok 0 ∧ run.1.stdout = "" ∧
      run.2.files.lookup ["a"] = some [0x6c, 0x65, 0x74] ∧
      run.2.files.lookup ["b"] = some [0x6c, 0x65, 0x74, 0x0a] ∧
      run.2.files.lookup ["c"] = none := by
  intro arguments fs run
  have hversion : "--version" ∉ arguments := by decide
  have hall := runCommand_allOrNothing FileSystem.storage {} hversion fs
  have hread : Options.none.read arguments = .options ⟨some "a", some "b", .empty, false⟩ := by cbv
  have hbuilt : (Environment.build (builtinBindings {}) .empty).isOk = true := by decide
  obtain ⟨env, henv⟩ : ∃ env, Environment.build (builtinBindings {}) .empty = .ok env := by
    cases he : Environment.build (builtinBindings {}) .empty with
    | error e => rw [he] at hbuilt; cases hbuilt
    | ok env => exact ⟨env, rfl⟩
  have hi : Invoked {} arguments ⟨some "a", some "b", .empty, false⟩ env := ⟨hread, henv⟩
  have hrun : run.1.outcome = .ok 0 := by
    have heq := runCommand_eq FileSystem.host hi rfl fs
    rw [show run = _ from heq]
    cbv
  obtain ⟨o, env', hi', -, -, hfile⟩ := hall.all hrun
  obtain ⟨rfl, rfl⟩ := hi.unique hi'
  obtain ⟨text, ts, shown, htext, hts, hd, hout⟩ := hfile "a" rfl
  have hs : sourceOf FileSystem.host fs "a" = some "let" := by cbv
  cases hs.symm.trans htext
  have hp : preprocess env "a" "let" =
      .ok [⟨.identifier, "let", ⟨"a", 0, 1, 1, 3⟩⟩, ⟨.eof, "", ⟨"a", 3, 1, 4, 0⟩⟩] := by cbv
  have hlayout : layout ts = "let\n" := by
    rw [← Except.ok.inj (hp.symm.trans hts)]
    cbv
  rw [hlayout] at hd
  have hplace : (fs.target "b").toOption = some ["b"] := by cbv
  cases hd with
  | written hb hf hothers =>
    cases hplace.symm.trans hb
    refine ⟨hversion, hrun, hout, ?_, ?_, ?_⟩
    · exact (hothers ["a"] (by decide)).trans (by decide)
    · have hbytes : "let\n".toUTF8.toList = [0x6c, 0x65, 0x74, 0x0a] := by cbv
      exact hf.trans (congrArg some hbytes)
    · exact (hothers ["c"] (by decide)).trans (by decide)

end HashIf
