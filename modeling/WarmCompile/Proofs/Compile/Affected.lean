import WarmCompile.Proofs.Compile.Incremental
import WarmCompile.Proofs.Compile.Refused
import WarmCompile.Proofs.Notes

/-!
What one call compiles. A file compile emits the file that is asked for and those whose content is
not the one from which they were last emitted, and a project compile emits every file; the first
file that fails is what the call fails with, and a call that fails leaves the fingerprints alone.
-/

namespace WarmCompile

theorem SourceReader.extends_of_read (r : SourceReader) (disk : Disk) (path : String) :
    r.Extends (r.read disk path).2 := by
  cases hread : r.read disk path with
  | mk result r' =>
    cases result with
    | ok content => exact extends_read hread
    | error e =>
      unfold read at hread
      split at hread
      · cases hread
        exact .refl r
      · split at hread
        · cases hread
        · split at hread <;> cases hread
          exact .refl r

namespace Compiler

variable {δ ω : Type} {c : Compiler δ ω} {job : Job} {due due' : String → String → Bool}
  {file : String} {files : List String} {r : SourceReader} {w : ω} {s : SourceReader × ω}
  {e : CompileError}

/-! ### One file after another -/

/-- Why a call fails at a file when its turn comes: it cannot be read, or it is due and cannot be
emitted. The state is the reader and the system as the files ahead of it have left them. -/
def fault? (c : Compiler δ ω) (job : Job) (due : String → String → Bool) (s : SourceReader × ω)
    (file : String) : Option CompileError :=
  match (s.1.read (c.host.disk s.2) file).1 with
  | .error e => some e
  | .ok content =>
    if due file content then
      match (c.emit job file content s.2).1 with
      | .error e => some e
      | .ok _ => none
    else none

/-- The state behind a file. -/
def passed (c : Compiler δ ω) (job : Job) (due : String → String → Bool) (s : SourceReader × ω)
    (file : String) : SourceReader × ω :=
  match s.1.read (c.host.disk s.2) file with
  | (.error _, r) => (r, s.2)
  | (.ok content, r) => (r, if due file content then (c.emit job file content s.2).2 else s.2)

/-- The first of the files at which there is a fault, and the fault. -/
def FirstFault (c : Compiler δ ω) (job : Job) (due : String → String → Bool)
    (s : SourceReader × ω) (files : List String) (e : CompileError) : Prop :=
  ∃ before file after, files = before ++ file :: after ∧
    c.fault? job due (before.foldl (c.passed job due) s) file = some e ∧
    ∀ front f back, before = front ++ f :: back →
      c.fault? job due (front.foldl (c.passed job due) s) f = none

theorem firstFault_cons : c.FirstFault job due s (file :: files) e ↔
    c.fault? job due s file = some e ∨ c.fault? job due s file = none ∧
      c.FirstFault job due (c.passed job due s file) files e := by
  constructor
  · rintro ⟨before, f, after, hsplit, hfault, hfirst⟩
    cases before with
    | nil =>
      obtain ⟨rfl, -⟩ := List.cons_eq_cons.1 hsplit
      exact .inl hfault
    | cons head before =>
      obtain ⟨rfl, rfl⟩ := List.cons_eq_cons.1 hsplit
      refine .inr ⟨hfirst [] file before rfl, before, f, after, rfl, hfault, ?_⟩
      rintro front f' back rfl
      exact hfirst (file :: front) f' back rfl
  · rintro (hfault | ⟨hnone, before, f, after, rfl, hfault, hfirst⟩)
    · exact ⟨[], file, files, rfl, hfault, fun front f back h => by simp at h⟩
    · refine ⟨file :: before, f, after, rfl, hfault, fun front f' back h => ?_⟩
      cases front with
      | nil =>
        obtain ⟨rfl, -⟩ := List.cons_eq_cons.1 h
        exact hnone
      | cons head front =>
        obtain ⟨rfl, hrest⟩ := List.cons_eq_cons.1 h
        exact hfirst front f' back hrest

/-- A file that has been emitted goes ahead of what the rest of the delivery brings. -/
theorem deliver_cons : c.deliver job due (file :: files) r w =
    match r.read (c.host.disk w) file with
    | (.error e, r) => (.error e, r, w)
    | (.ok content, r) =>
      if due file content then
        match c.emit job file content w with
        | (.error e, w) => (.error e, r, w)
        | (.ok code, w) =>
          ((c.deliver job due files r w).1.map (⟨file, content, code⟩ :: ·),
            (c.deliver job due files r w).2)
      else c.deliver job due files r w := by
  rw [deliver]
  cases r.read (c.host.disk w) file with
  | mk result r₁ =>
    cases result with
    | error e => rfl
    | ok content =>
      refine if_congr Iff.rfl ?_ rfl
      cases c.emit job file content w with
      | mk result w₁ =>
        cases result with
        | error e => rfl
        | ok code =>
          dsimp only
          cases c.deliver job due files r₁ w₁ with
          | mk result s => cases result <;> rfl

theorem deliver_error_iff : (c.deliver job due files r w).1 = .error e ↔
    c.FirstFault job due (r, w) files e := by
  induction files generalizing r w with
  | nil =>
    refine ⟨nofun, ?_⟩
    rintro ⟨before, file, after, hsplit, -⟩
    simp at hsplit
  | cons file files ih =>
    rw [firstFault_cons, deliver_cons, fault?, passed]
    cases hread : r.read (c.host.disk w) file with
    | mk result r₁ =>
      cases result with
      | error e' => simp
      | ok content =>
        by_cases hdue : due file content = true
        · simp only [if_pos hdue]
          cases hemit : c.emit job file content w with
          | mk result w₁ =>
            cases result with
            | error e' => simp
            | ok code =>
              simp only [reduceCtorEq, false_or, true_and, ← ih]
              cases (c.deliver job due files r₁ w₁).1 <;> simp [Except.map]
        · simp only [if_neg hdue, reduceCtorEq, false_or, true_and, ih]

theorem extends_deliver : r.Extends (c.deliver job due files r w).2.1 := by
  induction files generalizing r w with
  | nil => exact .refl r
  | cons file files ih =>
    have hread := SourceReader.extends_of_read r (c.host.disk w) file
    rw [deliver_cons]
    split
    · rename_i he
      rwa [he] at hread
    · rename_i he
      rw [he] at hread
      split
      · split
        · exact hread
        · exact hread.trans ih
      · exact hread.trans ih

/-- A delivery goes by what is due among the contents that it reads. -/
theorem deliver_congr (h : ∀ file content,
      (c.deliver job due files r w).2.1.held.find? file = some content →
      due file content = due' file content) :
    c.deliver job due' files r w = c.deliver job due files r w := by
  induction files generalizing r w with
  | nil => rfl
  | cons file files ih =>
    rw [deliver_cons] at h ⊢
    rw [deliver_cons]
    cases hread : r.read (c.host.disk w) file with
    | mk result r₁ =>
      rw [hread] at h
      cases result with
      | error e => rfl
      | ok content =>
        have hheld := SourceReader.held_of_read hread
        cases hdue : due file content with
        | true =>
          simp only [hdue, if_true] at h ⊢
          cases hemit : c.emit job file content w with
          | mk result w₁ =>
            rw [hemit] at h
            cases result with
            | error e =>
              have hsame := (h file content hheld).symm
              simp only [hdue, hsame, if_true]
            | ok code =>
              have hsame := (h file content (extends_deliver.held hheld)).symm
              simp only [hdue, hsame, if_true, ih h]
        | false =>
          simp only [hdue, Bool.false_eq_true, if_false] at h ⊢
          have hsame := (h file content (extends_deliver.held hheld)).symm
          simp only [hdue, hsame, Bool.false_eq_true, if_false, ih h]

/-! ### One call -/

section

variable {b b' : Workbench (Table δ) ω} {out : Output}

theorem compile_error_iff : (c.compile job due b).1 = .error e ↔
    c.FirstFault job due (b.sources, b.world) job.project.sourceFiles e := by
  rw [← deliver_error_iff, compile]
  cases c.deliver job due job.project.sourceFiles b.sources b.world with
  | mk result s => cases result <;> simp

theorem sources_of_compile : (c.compile job due b).2.sources =
    (c.deliver job due job.project.sourceFiles b.sources b.world).2.1 := by
  rw [compile]
  cases c.deliver job due job.project.sourceFiles b.sources b.world with
  | mk result s => cases result <;> rfl

theorem compile_congr (h : ∀ file content,
      (c.compile job due b).2.sources.held.find? file = some content →
      due file content = due' file content) :
    c.compile job due b = c.compile job due' b := by
  rw [sources_of_compile] at h
  rw [compile, compile, deliver_congr h]

/-- What becomes of a call in which some files are due. -/
structure Exact (c : Compiler δ ω) (job : Job) (due : String → String → Bool)
    (b : Workbench (Table δ) ω) (answer : Except CompileError Output × Workbench (Table δ) ω) :
    Prop where
  fails : ∀ e, answer.1 = .error e ↔
    c.FirstFault job due (b.sources, b.world) job.project.sourceFiles e
  kept : ∀ e, answer.1 = .error e → answer.2.checker = b.checker
  keys : ∀ out, answer.1 = .ok out → ∃ content : String → String,
    (∀ file ∈ job.project.sourceFiles,
      answer.2.sources.held.find? file = some (content file)) ∧
    ∀ file, file ∈ out.keys ↔ file ∈ job.project.sourceFiles ∧ due file (content file) = true

theorem exact_compile : c.Exact job due b (c.compile job due b) := by
  refine ⟨fun e => compile_error_iff, fun e he => ?_, fun out hout => ?_⟩
  · exact checker_of_compile_error (Prod.ext he rfl)
  · obtain ⟨done, hd, rfl, -⟩ := compile_of_ok (Prod.ext hout rfl)
    have hread : ∀ file ∈ job.project.sourceFiles,
        (c.compile job due b).2.sources.held.find? file =
          some (((c.compile job due b).2.sources.held.find? file).getD "") := by
      intro file hfile
      obtain ⟨content, hheld, -⟩ := hd.complete file hfile
      rw [hheld, Option.getD_some]
    refine ⟨_, hread, fun file => ?_⟩
    rw [Table.mem_keys_iff, isSome_find?_outputOf]
    constructor
    · intro hmem
      obtain ⟨d, hdone, rfl⟩ := List.mem_map.1 hmem
      obtain ⟨hfile, hheld, hdue, -⟩ := hd.sound d hdone
      rw [hheld, Option.getD_some]
      exact ⟨hfile, hdue⟩
    · rintro ⟨hfile, hdue⟩
      obtain ⟨content, hheld, hdone⟩ := hd.complete file hfile
      rw [hheld, Option.getD_some] at hdue
      exact hdone hdue

end

/-! ### One call after another -/

section

variable [DecidableEq δ] {w₀ : ω} {calls : List (CompileCall ω)} {content : String}

/-- The content from which a call that succeeds emits a file. -/
def emittedIn (c : Compiler δ ω) (job : Job) (file : String) (h : History δ ω)
    (call : CompileCall ω) : List String :=
  match h.answer c job call with
  | (.ok out, b) => if file ∈ out.keys then (b.sources.held.find? file).toList else []
  | (.error _, _) => []

/-- The contents from which the successful ones of some calls have emitted a file. -/
def emitted (c : Compiler δ ω) (job : Job) (w : ω) (calls : List (CompileCall ω))
    (file : String) : List String :=
  notesOf (History.after c job) (c.emittedIn job file) (.start w) calls

theorem emitted_concat (call : CompileCall ω) : c.emitted job w₀ (calls ++ [call]) file =
    c.emitted job w₀ calls file ++
      c.emittedIn job file ((History.start w₀).run c job calls) call :=
  notesOf_concat _ _ _ _ _

theorem mem_contents_of_emitted (h : content ∈ c.emitted job w₀ calls file) :
    content ∈ ((History.start w₀).run c job calls).contents := by
  induction calls using List.reverseRecOn with
  | nil => cases h
  | append_singleton calls call ih =>
    rw [emitted_concat, List.mem_append] at h
    rw [run_concat]
    rcases h with h | h
    · exact List.mem_append_left _ (ih h)
    · unfold emittedIn at h
      split at h
      · rename_i out b hanswer
        split at h
        · have hheld : (((History.start w₀).run c job calls).answer c job call).2.sources.held.find?
              file = some content := by
            rw [hanswer]
            exact Option.mem_toList.1 h
          exact mem_contents_after hheld
        · cases h
      · cases h

/-- The fingerprint of a file is that of the content from which it was last emitted. -/
theorem known_run (file : String) : ((History.start w₀).run c job calls).known.find? file =
    (c.emitted job w₀ calls file).getLast?.map c.digest := by
  induction calls using List.reverseRecOn with
  | nil => rfl
  | append_singleton calls call ih =>
    rw [emitted_concat, run_concat, emittedIn, History.after]
    cases hanswer : ((History.start w₀).run c job calls).answer c job call with
    | mk result b =>
      cases result with
      | error e =>
        simp only [List.append_nil]
        rw [checker_of_answer_error hanswer, ih]
      | ok out =>
        obtain ⟨due, done, -, hd, rfl, hchecker⟩ := delivery_of_answer hanswer
        simp only [hchecker, hd.find?_record_eq, ← Table.mem_keys_iff]
        split
        · rename_i hkey
          have hdone := isSome_find?_outputOf.1 (Table.mem_keys_iff.1 hkey)
          obtain ⟨content, hheld, -⟩ := hd.find?_record .empty hdone
          rw [hheld, Option.toList_some, List.getLast?_append, List.getLast?_singleton,
            Option.some_or]
        · rw [List.append_nil, ih]

/-- Where no two contents share a fingerprint, a file is stale if its content is not the one from
which it was last emitted. -/
theorem isStale_run (file : String)
    (hfree : ∀ x ∈ ((History.start w₀).run c job calls).contents,
      c.digest x = c.digest content → x = content) :
    c.isStale ((History.start w₀).run c job calls).known file content =
      decide ((c.emitted job w₀ calls file).getLast? ≠ some content) := by
  rw [isStale, known_run]
  cases hlast : (c.emitted job w₀ calls file).getLast? with
  | none => rfl
  | some last =>
    have hin := mem_contents_of_emitted (List.mem_of_getLast? hlast)
    have hsame : c.digest last = c.digest content ↔ last = content :=
      ⟨hfree last hin, congrArg c.digest⟩
    by_cases heq : last = content
    · simp [heq]
    · simp [heq, hsame]

/-- What a call for a file is to emit: the file itself, and each file that was never emitted or
whose content is not the last one from which it was. -/
def affected (last : String → Option String) (path file content : String) : Bool :=
  decide (file = path ∨ last file ≠ some content)

theorem compileFile_eq_compile {b : Workbench (Table δ) ω} {path : String}
    (hknown : b.checker = ((History.start w₀).run c job calls).known)
    (hfree : c.CollisionFree (((History.start w₀).run c job calls).contents ++
      (c.compileFile job path b).2.sources.held.entries.map (·.2)))
    (hlisted : path ∈ job.project.sourceFiles) : c.compileFile job path b =
      c.compile job (affected (fun file => (c.emitted job w₀ calls file).getLast?) path) b := by
  have hcontains : job.project.contains path = true := by
    simpa [ResolvedProject.contains] using hlisted
  rw [compileFile, if_pos hcontains] at hfree ⊢
  refine compile_congr fun file content hheld => ?_
  have hin := List.mem_map_of_mem (f := (·.2)) (Table.find?_eq_some_iff.1 hheld)
  have hstale := isStale_run file fun x hx =>
    hfree x (List.mem_append_left _ hx) content (List.mem_append_right _ hin)
  rw [hknown, hstale, affected, Bool.decide_or]
  rfl

/-- After any calls, a call for a file that the project does not list is refused and nothing is
read. Any other call emits exactly what is affected, and a project call every file; or else the
first file at which there is a fault is what it fails with, and no fingerprint changes. -/
theorem exact_of_calls {b : Workbench (Table δ) ω} {path : String}
    (hknown : b.checker = ((History.start w₀).run c job calls).known)
    (hfiles : b.sources.files = job.project.sourceFiles)
    (hfree : c.CollisionFree (((History.start w₀).run c job calls).contents ++
      (c.compileFile job path b).2.sources.held.entries.map (·.2))) :
    (∀ q, (c.compileFile job path b).1 = .error (.notInProject q) ↔
      path ∉ job.project.sourceFiles ∧ q = path) ∧
    (path ∉ job.project.sourceFiles → (c.compileFile job path b).2 = b) ∧
    (path ∈ job.project.sourceFiles →
      c.Exact job (affected (fun file => (c.emitted job w₀ calls file).getLast?) path) b
        (c.compileFile job path b)) ∧
    c.Exact job (fun _ _ => true) b (c.compileProject job b) := by
  refine ⟨fun q => ?_, fun hnot => ?_, fun hlisted => ?_, exact_compile⟩
  · exact compileFile_refused_iff (fun file hfile => hfiles ▸ hfile)
  · have hcontains : ¬ job.project.contains path = true := by
      simpa [ResolvedProject.contains] using hnot
    rw [compileFile, if_neg hcontains]
  · rw [compileFile_eq_compile hknown hfree hlisted]
    exact exact_compile

end

def trio : Job where
  resolver := .plain
  config := pair.config
  project := ⟨"/p/P.fsproj", ["/p/A.fs", "/p/B.fs", "/p/C.fs"], [], none, [], []⟩

def trioFiles (a b c : String) : List (String × String) :=
  [("/p/A.fs", a), ("/p/B.fs", b), ("/p/C.fs", c)]

/-- The first file is edited ahead of a call that fails at the third. When the third is mended, a
call for the second emits the first along with it, and the third is what it was. -/
theorem exact_of_calls_trio :
    let calls : List (CompileCall (List (String × String))) := [
      ⟨none, .empty, fun _ => trioFiles "1" "1" "1"⟩,
      ⟨some "/p/C.fs", .empty, fun _ => trioFiles "2" "1" "broken"⟩]
    let b : Workbench (Table Digest.Words) _ := ⟨.ofFiles trio.project.sourceFiles,
      ((History.start []).run echo trio calls).known, trioFiles "2" "1" "1"⟩
    echo.CollisionFree (((History.start []).run echo trio calls).contents ++
      (echo.compileFile trio "/p/B.fs" b).2.sources.held.entries.map (·.2)) ∧
    (echo.compileFile trio "/p/B.fs" b).1 =
      .ok (.ofList [("/p/A.fs", "2"), ("/p/B.fs", "1")]) ∧
    echo.Exact trio (affected (fun file => (echo.emitted trio [] calls file).getLast?) "/p/B.fs") b
      (echo.compileFile trio "/p/B.fs" b) := by
  intro calls b
  have hfree : echo.CollisionFree (((History.start []).run echo trio calls).contents ++
      (echo.compileFile trio "/p/B.fs" b).2.sources.held.entries.map (·.2)) := by decide +kernel
  have hout : (echo.compileFile trio "/p/B.fs" b).1 =
      .ok (.ofList [("/p/A.fs", "2"), ("/p/B.fs", "1")]) := by decide +kernel
  exact ⟨hfree, hout, (exact_of_calls rfl rfl hfree).2.2.1 (by decide)⟩

end Compiler

end WarmCompile
