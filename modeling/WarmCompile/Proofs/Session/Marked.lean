import WarmCompile.Proofs.Session.Scene

/-!
Checkers that can be told apart. A backend works on the checker it is handed and cannot exchange it
for another, so a mark that is given to a checker when it is made stays with it. Marks change nothing
in a run but what is noted of it.
-/

namespace WarmCompile

structure Marked (κ : Type) where
  mark : Nat
  checker : κ

variable {κ ω : Type}

namespace Backend

/-- The backend with its checkers counted off as they are made. -/
def marked (b : Backend κ ω) : Backend (Marked κ) (ω × Nat) where
  crack config w :=
    let (result, w') := b.crack config w.1
    (result, w', w.2)
  createChecker project w :=
    match b.createChecker project w.1 with
    | (.ok checker, w') => (.ok ⟨w.2, checker⟩, w', w.2 + 1)
    | (.error f, w') => (.error f, w', w.2)
  compileProject job bench :=
    let (result, bench') :=
      b.compileProject job ⟨bench.sources, bench.checker.checker, bench.world.1⟩
    (result, ⟨bench'.sources, ⟨bench.checker.mark, bench'.checker⟩, bench'.world, bench.world.2⟩)
  compileFile job path bench :=
    let (result, bench') :=
      b.compileFile job path ⟨bench.sources, bench.checker.checker, bench.world.1⟩
    (result, ⟨bench'.sources, ⟨bench.checker.mark, bench'.checker⟩, bench'.world, bench.world.2⟩)

variable {b : Backend κ ω} {w : ω} {n : Nat} {w' : ω × Nat}

theorem crack_of_marked {config : ProjectConfig} {result : Except Failure ResolvedProject}
    (h : b.marked.crack config (w, n) = (result, w')) :
    b.crack config w = (result, w'.1) ∧ w'.2 = n := by
  cases h
  exact ⟨rfl, rfl⟩

theorem createChecker_of_marked_ok {project : ResolvedProject} {checker : Marked κ}
    (h : b.marked.createChecker project (w, n) = (.ok checker, w')) :
    b.createChecker project w = (.ok checker.checker, w'.1) ∧ checker.mark = n ∧ w'.2 = n + 1 := by
  simp only [marked] at h
  split at h
  · rename_i made w₁ hmade
    cases h
    exact ⟨hmade, rfl, rfl⟩
  · cases h

theorem createChecker_of_marked_error {project : ResolvedProject} {f : Failure}
    (h : b.marked.createChecker project (w, n) = (.error f, w')) :
    b.createChecker project w = (.error f, w'.1) ∧ w'.2 = n := by
  simp only [marked] at h
  split at h
  · cases h
  · rename_i f' w₁ hmade
    cases h
    exact ⟨hmade, rfl⟩

variable {job : Job} {sources : SourceReader} {checker : Marked κ}
  {bench : Workbench (Marked κ) (ω × Nat)} {result : Except Failure Output}

theorem compileProject_of_marked
    (h : b.marked.compileProject job ⟨sources, checker, w, n⟩ = (result, bench)) :
    b.compileProject job ⟨sources, checker.checker, w⟩ =
      (result, ⟨bench.sources, bench.checker.checker, bench.world.1⟩) ∧
    bench.checker.mark = checker.mark ∧ bench.world.2 = n := by
  cases h
  exact ⟨rfl, rfl, rfl⟩

theorem compileFile_of_marked {path : String}
    (h : b.marked.compileFile job path ⟨sources, checker, w, n⟩ = (result, bench)) :
    b.compileFile job path ⟨sources, checker.checker, w⟩ =
      (result, ⟨bench.sources, bench.checker.checker, bench.world.1⟩) ∧
    bench.checker.mark = checker.mark ∧ bench.world.2 = n := by
  cases h
  exact ⟨rfl, rfl, rfl⟩

end Backend

def BackendCall.unmarked : BackendCall (Marked κ) → BackendCall κ
  | .crack config result => .crack config result
  | .createChecker project result => .createChecker project (result.map (·.checker))
  | .compileProject job sources checker result => .compileProject job sources checker.checker result
  | .compileFile job path sources checker result =>
    .compileFile job path sources checker.checker result

def Session.unmarked (s : Session (Marked κ)) : Session κ :=
  ⟨s.config, s.project, s.checker.checker, s.output, s.sources⟩

def Scene.unmarked (scene : Scene (Marked κ)) : Scene κ :=
  ⟨scene.message, scene.calls.map .unmarked, scene.answer⟩

def Turn.marked : Turn ω → Turn (ω × Nat)
  | .handle l => .handle l
  | .edit change => .edit (Prod.map change id)

theorem lettersOf_marked (turns : List (Turn ω)) :
    lettersOf (turns.map .marked) = lettersOf turns := by
  have hsame : (Turn.letter? ∘ Turn.marked : Turn ω → Option Letter) = Turn.letter? := by
    funext t
    cases t <;> rfl
  rw [lettersOf, List.filterMap_map, hsame]
  rfl

namespace Service

def marked (service : Service κ ω) : Service (Marked κ) (ω × Nat) :=
  ⟨service.backend.marked, service.resolver⟩

open Backend in
theorem Plays.unmarked {service : Service κ ω} {session session' : Option (Session (Marked κ))}
    {w w' : ω × Nat} {scene : Scene (Marked κ)}
    (h : service.marked.Plays session w scene session' w') :
    service.Plays (session.map .unmarked) w.1 scene.unmarked (session'.map .unmarked) w'.1 := by
  cases h with
  | refused params e hconfig => exact .refused params e hconfig
  | uncracked params config f w' hconfig hcrack =>
    obtain ⟨hcrack, -⟩ := crack_of_marked hcrack
    exact .uncracked params config f w'.1 hconfig hcrack
  | unmade params config project f w₁ w' hconfig hcrack hcreate =>
    obtain ⟨hcrack, -⟩ := crack_of_marked hcrack
    obtain ⟨hcreate, -⟩ := createChecker_of_marked_error hcreate
    exact .unmade params config project f w₁.1 w'.1 hconfig hcrack hcreate
  | failed params config project checker f w₁ w₂ b hconfig hcrack hcreate hcompile =>
    obtain ⟨hcrack, -⟩ := crack_of_marked hcrack
    obtain ⟨hcreate, -, -⟩ := createChecker_of_marked_ok hcreate
    obtain ⟨hcompile, -, -⟩ := compileProject_of_marked hcompile
    exact .failed params config project checker.checker f w₁.1 w₂.1 _ hconfig hcrack hcreate
      hcompile
  | opened params config project checker output w₁ w₂ b hconfig hcrack hcreate hcompile =>
    obtain ⟨hcrack, -⟩ := crack_of_marked hcrack
    obtain ⟨hcreate, -, -⟩ := createChecker_of_marked_ok hcreate
    obtain ⟨hcompile, -, -⟩ := compileProject_of_marked hcompile
    exact .opened params config project checker.checker output w₁.1 w₂.1 _ hconfig hcrack hcreate
      hcompile
  | idle path hnone =>
    subst hnone
    exact .idle path rfl
  | compiled path s result b hsome hcompile =>
    subst hsome
    obtain ⟨hcompile, -, -⟩ := compileFile_of_marked hcompile
    exact .compiled path s.unmarked result _ rfl hcompile
  | disconnect => exact .disconnect

/-- The scenes of a run with marks are those of the run without. -/
theorem scenes_marked (service : Service κ ω) (session : Option (Session (Marked κ))) (w : ω)
    (n : Nat) (turns : List (Turn ω)) :
    (service.marked.scenes (session, w, n) (turns.map .marked)).map .unmarked =
      service.scenes (session.map .unmarked, w) turns := by
  induction turns generalizing session w n with
  | nil => rfl
  | cons t turns ih =>
    cases t with
    | handle l =>
      have hplays := (plays_scene service.marked session (w, n) l.message).unmarked
      have hscene := hplays.scene_eq
      have hstate := congrArg Prod.snd hplays.handled
      have hrest := ih (service.marked.handle session (w, n) l.message).2.1
        (service.marked.handle session (w, n) l.message).2.2.1
        (service.marked.handle session (w, n) l.message).2.2.2
      refine congrArg₂ List.cons hscene.symm (hrest.trans ?_)
      exact congrArg (fun s => service.scenes s turns) hstate.symm
    | edit change => exact ih session (change w) n

end Service

end WarmCompile
