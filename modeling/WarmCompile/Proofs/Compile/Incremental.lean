import WarmCompile.Digest.Sha256
import WarmCompile.Proofs.Compile.Deliver

/-!
Incremental compiling against compiling everything: over any series of calls, what a caller has
received agrees with a cold compile of what the reader of the last successful call holds.
-/

namespace WarmCompile

/-- One call for a project that is compiled over and over. -/
structure CompileCall (ω : Type) where
  /-- The file asked for; without one, the project is. -/
  file : Option String
  /-- What the reader of the call holds ahead of it. -/
  held : Table String
  /-- What has happened to the system since the call before. -/
  change : ω → ω

namespace Compiler

variable {δ ω : Type} {c : Compiler δ ω} {job : Job}
  {emission : String → String → Except CompileError String}

/-- What a series of calls leaves behind. -/
structure History (δ ω : Type) where
  known : Table δ
  world : ω
  /-- The outputs of all successful calls laid over each other. -/
  received : Output
  /-- The contents that the readers of the calls have held. -/
  contents : List String

namespace History

def start (w : ω) : History δ ω := ⟨.empty, w, .empty, []⟩

def answer [DecidableEq δ] (c : Compiler δ ω) (job : Job) (h : History δ ω)
    (call : CompileCall ω) : Except CompileError Output × Workbench (Table δ) ω :=
  let b := ⟨⟨job.project.sourceFiles, call.held⟩, h.known, call.change h.world⟩
  match call.file with
  | none => c.compileProject job b
  | some path => c.compileFile job path b

def after [DecidableEq δ] (c : Compiler δ ω) (job : Job) (h : History δ ω) (call : CompileCall ω) :
    History δ ω :=
  let (result, b) := h.answer c job call
  { known := b.checker
    world := b.world
    received := match result with
      | .ok out => h.received.overlay out
      | .error _ => h.received
    contents := h.contents ++ b.sources.held.entries.map (·.2) }

def run [DecidableEq δ] (c : Compiler δ ω) (job : Job) (h : History δ ω)
    (calls : List (CompileCall ω)) : History δ ω :=
  calls.foldl (after c job) h

end History

def CollisionFree (c : Compiler δ ω) (contents : List String) : Prop :=
  ∀ x ∈ contents, ∀ y ∈ contents, c.digest x = c.digest y → x = y

instance [DecidableEq δ] (c : Compiler δ ω) (contents : List String) :
    Decidable (c.CollisionFree contents) :=
  inferInstanceAs (Decidable (∀ x ∈ contents, ∀ y ∈ contents, _ → _))

theorem CollisionFree.mono {contents contents' : List String} (h : c.CollisionFree contents)
    (hsub : contents' ⊆ contents) : c.CollisionFree contents' :=
  fun x hx y hy => h x (hsub hx) y (hsub hy)

section

variable {due : String → String → Bool} {b b' : Workbench (Table δ) ω} {out : Output}
  {e : CompileError}

theorem compile_of_ok (h : c.compile job due b = (.ok out, b')) :
    ∃ done, c.Delivery job due job.project.sourceFiles b.sources b'.sources done ∧
      out = outputOf done ∧ b'.checker = c.record b.checker done := by
  unfold compile at h
  split at h
  · cases h
  · rename_i done r w hd
    cases h
    exact ⟨done, delivery_of_ok hd, rfl, rfl⟩

theorem checker_of_compile_error (h : c.compile job due b = (.error e, b')) :
    b'.checker = b.checker := by
  unfold compile at h
  split at h
  · cases h
    rfl
  · cases h

section

variable [DecidableEq δ] {path : String}

theorem compileFile_of_ok (h : c.compileFile job path b = (.ok out, b')) : ∃ done,
    c.Delivery job (fun file content => file == path || c.isStale b.checker file content)
      job.project.sourceFiles b.sources b'.sources done ∧
    out = outputOf done ∧ b'.checker = c.record b.checker done := by
  unfold compileFile at h
  split at h
  · exact compile_of_ok h
  · cases h

theorem checker_of_compileFile_error (h : c.compileFile job path b = (.error e, b')) :
    b'.checker = b.checker := by
  unfold compileFile at h
  split at h
  · exact checker_of_compile_error h
  · cases h
    rfl

end

/-- A cold compile of what a reader holds depends on nothing else. -/
theorem compileProject_of_held {r : SourceReader} {received : Output}
    (hemit : c.Emits job emission) (hfiles : r.files = job.project.sourceFiles)
    (hwithin : ∀ path ∉ job.project.sourceFiles, received.find? path = none)
    (hcode : ∀ file ∈ job.project.sourceFiles, ∃ content code, r.held.find? file = some content ∧
      emission file content = .ok code ∧ received.find? file = some code)
    (known : Table δ) (w : ω) : (c.compileProject job ⟨r, known, w⟩).1 = .ok received := by
  have hemits : ∀ file ∈ job.project.sourceFiles, ∃ content, r.held.find? file = some content ∧
      ∀ w, ∃ code, (c.emit job file content w).1 = .ok code := by
    intro file hf
    obtain ⟨content, code, hheld, hcode, _⟩ := hcode file hf
    exact ⟨content, hheld, fun w => ⟨code, (hemit file content w).trans hcode⟩⟩
  obtain ⟨done, w', hd⟩ := deliver_of_held (fun _ _ => true)
    (fun file hf => hfiles.symm ▸ hf) hemits w
  have hdel := delivery_of_ok hd
  have he : outputOf done = received := by
    refine Table.ext_find? fun path => ?_
    by_cases hp : path ∈ job.project.sourceFiles
    · obtain ⟨content, code, hheld, hcode, hreceived⟩ := hcode path hp
      obtain ⟨_, _, hdone⟩ := hdel.complete path hp
      obtain ⟨content', code', hheld', hcode', hout⟩ := hdel.find?_outputOf hemit (hdone rfl)
      rw [hheld] at hheld'
      cases hheld'
      rw [hcode] at hcode'
      cases hcode'
      rw [hout, hreceived]
    · rw [hwithin path hp]
      refine find?_outputOf_of_not_mem fun hm => ?_
      obtain ⟨d, hdone, he⟩ := List.mem_map.1 hm
      exact hp (he ▸ (hdel.sound d hdone).1)
  simp only [compileProject, compile, hd, he]

end

/-- Each fingerprint is that of a content whose code is what was last received, and nothing was
received but files of the project. -/
structure Faithful (c : Compiler δ ω) (job : Job)
    (emission : String → String → Except CompileError String) (h : History δ ω) : Prop where
  within : ∀ path ∉ job.project.sourceFiles, h.received.find? path = none
  current : ∀ {path digest}, h.known.find? path = some digest →
    ∃ content ∈ h.contents, c.digest content = digest ∧
      ∃ code, emission path content = .ok code ∧ h.received.find? path = some code

theorem faithful_start (w : ω) : c.Faithful job emission (.start w) :=
  ⟨fun _ _ => rfl, nofun⟩

section

variable [DecidableEq δ] {h : History δ ω} {call : CompileCall ω} {out : Output}
  {b : Workbench (Table δ) ω} {e : CompileError}

/-- A call that succeeds delivers at least the files whose content is not the one last delivered. -/
theorem delivery_of_answer (hok : h.answer c job call = (.ok out, b)) :
    ∃ due done, (∀ path content, c.isStale h.known path content → due path content) ∧
      c.Delivery job due job.project.sourceFiles ⟨job.project.sourceFiles, call.held⟩
        b.sources done ∧
      out = outputOf done ∧ b.checker = c.record h.known done := by
  unfold History.answer at hok
  split at hok
  · obtain ⟨done, hd⟩ := compile_of_ok hok
    exact ⟨_, done, fun _ _ _ => rfl, hd⟩
  · obtain ⟨done, hd⟩ := compileFile_of_ok hok
    refine ⟨_, done, fun _ _ hs => ?_, hd⟩
    rw [hs, Bool.or_true]

theorem checker_of_answer_error (herr : h.answer c job call = (.error e, b)) :
    b.checker = h.known := by
  unfold History.answer at herr
  split at herr
  · exact checker_of_compile_error herr
  · exact checker_of_compileFile_error herr

theorem mem_contents_after {path content : String}
    (hheld : (h.answer c job call).2.sources.held.find? path = some content) :
    content ∈ (h.after c job call).contents :=
  List.mem_append_right _ (List.mem_map_of_mem (Table.find?_eq_some_iff.1 hheld))

/-- After a call that succeeds, what was received for a file is the code of what the reader holds:
a file that was not delivered again has the content whose code was last received. -/
theorem Faithful.received_of_ok (hf : c.Faithful job emission h) (hemit : c.Emits job emission)
    (hfree : c.CollisionFree (h.after c job call).contents)
    (hok : h.answer c job call = (.ok out, b)) {file : String}
    (hfile : file ∈ job.project.sourceFiles) :
    ∃ content code, b.sources.held.find? file = some content ∧
      emission file content = .ok code ∧ (h.received.overlay out).find? file = some code := by
  obtain ⟨due, done, hdue, hd, rfl, -⟩ := delivery_of_answer hok
  by_cases hdone : file ∈ done.map (·.path)
  · obtain ⟨content, code, hheld, hcode, hout⟩ := hd.find?_outputOf hemit hdone
    exact ⟨content, code, hheld, hcode, by rw [Table.find?_overlay, hout, Option.some_or]⟩
  · obtain ⟨content, hheld, hcomplete⟩ := hd.complete file hfile
    have hfresh : ¬ c.isStale h.known file content := fun hs => hdone (hcomplete (hdue _ _ hs))
    have hknown : h.known.find? file = some (c.digest content) := by
      simpa [isStale] using hfresh
    obtain ⟨last, hlast, hdigest, code, hcode, hreceived⟩ := hf.current hknown
    have hin : content ∈ (h.after c job call).contents :=
      mem_contents_after (congrArg (·.2.sources.held.find? file) hok |>.trans hheld)
    have he : last = content := hfree last (List.mem_append_left _ hlast) content hin hdigest
    refine ⟨content, code, hheld, he ▸ hcode, ?_⟩
    rw [Table.find?_overlay, find?_outputOf_of_not_mem hdone, Option.none_or, hreceived]

theorem Faithful.after (hf : c.Faithful job emission h) (hemit : c.Emits job emission)
    (call : CompileCall ω) : c.Faithful job emission (h.after c job call) := by
  cases hs : h.answer c job call with
  | mk result b =>
    cases result with
    | error e =>
      have hk := checker_of_answer_error hs
      refine ⟨?_, ?_⟩
      · intro path hp
        simpa [History.after, hs] using hf.within path hp
      · intro path digest hd
        simp only [History.after, hs, hk] at hd ⊢
        obtain ⟨content, hin, hrest⟩ := hf.current hd
        exact ⟨content, List.mem_append_left _ hin, hrest⟩
    | ok out =>
      obtain ⟨due, done, -, hd, rfl, hk⟩ := delivery_of_answer hs
      refine ⟨?_, ?_⟩
      · intro path hp
        have hnot : path ∉ done.map (·.path) := by
          intro hm
          obtain ⟨d, hdone, he⟩ := List.mem_map.1 hm
          exact hp (he ▸ (hd.sound d hdone).1)
        simp only [History.after, hs]
        rw [Table.find?_overlay, find?_outputOf_of_not_mem hnot, Option.none_or, hf.within path hp]
      · intro path digest hp
        simp only [History.after, hs, hk] at hp ⊢
        rw [Table.find?_overlay]
        by_cases hm : path ∈ done.map (·.path)
        · obtain ⟨content, code, hheld, hcode, hout⟩ := hd.find?_outputOf hemit hm
          obtain ⟨content', hheld', hrecord⟩ := hd.find?_record h.known hm
          rw [hheld] at hheld'
          cases hheld'
          rw [hrecord] at hp
          have hin := List.mem_map_of_mem (f := (·.2)) (Table.find?_eq_some_iff.1 hheld)
          exact ⟨content, List.mem_append_right _ hin, Option.some.inj hp, code, hcode,
            by rw [hout, Option.some_or]⟩
        · rw [find?_record_of_not_mem hm] at hp
          obtain ⟨content, hin, hdigest, code, hcode, hreceived⟩ := hf.current hp
          exact ⟨content, List.mem_append_left _ hin, hdigest, code, hcode,
            by rw [find?_outputOf_of_not_mem hm, Option.none_or, hreceived]⟩

theorem Faithful.run (hf : c.Faithful job emission h) (hemit : c.Emits job emission)
    (calls : List (CompileCall ω)) : c.Faithful job emission (h.run c job calls) := by
  induction calls generalizing h with
  | nil => exact hf
  | cons call calls ih => exact ih (hf.after hemit call)

theorem run_concat (h : History δ ω) (calls : List (CompileCall ω)) (call : CompileCall ω) :
    h.run c job (calls ++ [call]) = (h.run c job calls).after c job call := by
  simp only [History.run, List.foldl_append, List.foldl_cons, List.foldl_nil]

/-- After every call that succeeds, whatever was edited and whatever has failed before it, the
outputs received so far, laid over each other, are the code of what the reader of the call holds:
the very output of a cold compile with that reader. -/
theorem received_eq_cold_compile (hemit : c.Emits job emission) (w : ω)
    (calls : List (CompileCall ω)) (call : CompileCall ω)
    (hfree : c.CollisionFree ((History.start w).run c job (calls ++ [call])).contents)
    (hok : (((History.start w).run c job calls).answer c job call).1 = .ok out) :
    let received := ((History.start w).run c job (calls ++ [call])).received
    let reader := (((History.start w).run c job calls).answer c job call).2.sources
    (∀ file ∈ job.project.sourceFiles, ∃ content code, reader.held.find? file = some content ∧
      emission file content = .ok code ∧ received.find? file = some code) ∧
    ∀ known w', (c.compileProject job ⟨reader, known, w'⟩).1 = .ok received := by
  have hf : c.Faithful job emission ((History.start w).run c job calls) :=
    (faithful_start w).run hemit calls
  have hf' := hf.after hemit call
  rw [run_concat] at hfree
  cases ha : ((History.start w).run c job calls).answer c job call with
  | mk result b =>
    rw [ha] at hok
    cases hok
    have hreceived : ((History.start w).run c job (calls ++ [call])).received =
        ((History.start w).run c job calls).received.overlay out := by
      simp only [run_concat, History.after, ha]
    have hcode := fun file (hp : file ∈ job.project.sourceFiles) =>
      hf.received_of_ok hemit hfree ha hp
    obtain ⟨_, _, _, hd, _, _⟩ := delivery_of_answer ha
    rw [← run_concat] at hf'
    rw [← hreceived] at hcode
    exact ⟨hcode, compileProject_of_held hemit hd.reader.files hf'.within hcode⟩

end

/-- A command that gives its input back, and fails on a broken one. -/
def echo : Compiler Digest.Words (List (String × String)) where
  settings := { command := some "echo", args := [], env := .empty }
  host := {
    disk := Disk.ofFiles
    run := fun inv w =>
      (.ok ⟨.code (if inv.input = "broken" then 1 else 0), inv.input.toUTF8.toList, []⟩, w) }
  digest := Digest.ofText

def pair : Job where
  resolver := .plain
  config := ⟨"/p/P.fsproj", "/p", none, "/lib", "Release", true, true, false, .default⟩
  project := ⟨"/p/P.fsproj", ["/p/A.fs", "/p/B.fs"], [], none, [], []⟩

def pairCall (file : Option String) (a b : String) : CompileCall (List (String × String)) :=
  ⟨file, .empty, fun _ => [("/p/A.fs", a), ("/p/B.fs", b)]⟩

/-- The first file is edited and compiled in a call that fails at the second file; it is compiled
again with the next call, which asks for the second file alone. -/
theorem received_eq_cold_compile_echo :
    let calls := [pairCall none "1" "1", pairCall (some "/p/B.fs") "2" "broken"]
    let call := pairCall (some "/p/B.fs") "2" "3"
    let output := Table.ofList [("/p/A.fs", "2"), ("/p/B.fs", "3")]
    (((History.start []).run echo pair calls).answer echo pair call).1 = .ok output ∧
    echo.CollisionFree ((History.start []).run echo pair (calls ++ [call])).contents ∧
    ∀ known w', (echo.compileProject pair
      ⟨(((History.start []).run echo pair calls).answer echo pair call).2.sources, known, w'⟩).1 =
        .ok ((History.start []).run echo pair (calls ++ [call])).received := by
  have hok : (((History.start []).run echo pair
      [pairCall none "1" "1", pairCall (some "/p/B.fs") "2" "broken"]).answer echo pair
      (pairCall (some "/p/B.fs") "2" "3")).1 =
      .ok (Table.ofList [("/p/A.fs", "2"), ("/p/B.fs", "3")]) := by decide +kernel
  have hfree : echo.CollisionFree ((History.start []).run echo pair
      ([pairCall none "1" "1", pairCall (some "/p/B.fs") "2" "broken"] ++
        [pairCall (some "/p/B.fs") "2" "3"])).contents := by decide +kernel
  have hemit : echo.Emits pair (echo.emissionOf pair fun inv => (echo.host.run inv []).1) :=
    emits_of_deterministic (fun _ => rfl) (fun _ _ => rfl)
  exact ⟨hok, hfree, (received_eq_cold_compile hemit [] _ _ hfree hok).2⟩

end Compiler

end WarmCompile
