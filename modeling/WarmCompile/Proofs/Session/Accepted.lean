import WarmCompile.Proofs.Compile.Refused
import WarmCompile.Proofs.Project.Named
import WarmCompile.Proofs.Session.Invisible
import WarmCompile.Proofs.Session.Scene

/-!
Init and compile agree on what a source file is called: the paths that a session lists, and the names
in its project file joined to its directory, are taken for files of the project.
-/

namespace WarmCompile

namespace Service

variable {κ ω : Type} {service : Service κ ω} {s : Option (Session κ) × ω}

/-- An init that succeeds has cracked the project that it lists, and the session is of that
project. -/
theorem opened_of_handle {params : InitParams} {project : ResolvedProject} {output : Output}
    (h : (service.handle s.1 s.2 (.init params)).1 = some (.init (.ok (project, output)))) :
    ∃ config checker w, ProjectConfig.ofInit params.project params.library = .ok config ∧
      service.backend.crack config s.2 = (.ok project, w) ∧
      (service.handle s.1 s.2 (.init params)).2.1 =
        some ⟨config, project, checker, output, project.sourceFiles⟩ := by
  obtain ⟨scene, session', w', hmessage, hplays⟩ := exists_plays service s.1 s.2 (.init params)
  have hhandled := hplays.handled
  rw [hmessage] at hhandled
  rw [hhandled] at h ⊢
  cases hplays with
  | opened params' config project' checker output' w₁ w₂ b hconfig hcrack hcreate hcompile =>
    cases hmessage
    cases h
    exact ⟨config, b.checker, w₁, hconfig, hcrack, rfl⟩
  | _ => cases h

theorem Plays.kept {session : Session κ} {session' : Option (Session κ)} {w w' : ω}
    {scene : Scene κ} (h : service.Plays (some session) w scene session' w')
    (hquiet : scene.opens = false) : ∃ checker, session' = some { session with checker } := by
  cases h with
  | opened => cases hquiet
  | idle path hnone => cases hnone
  | compiled path s result b hsome hcompile =>
    cases hsome
    exact ⟨b.checker, rfl⟩
  | _ => exact ⟨session.checker, rfl⟩

/-- As long as no other init succeeds, the session stays one of the same project. -/
theorem kept_of_scenes {turns : List (Turn ω)} {session : Session κ} (hs : s.1 = some session)
    (hquiet : ∀ scene ∈ service.scenes s turns, scene.opens = false) :
    ∃ checker, (service.state s turns).1 = some { session with checker } := by
  induction turns generalizing s session with
  | nil => exact ⟨session.checker, hs⟩
  | cons t turns ih =>
    cases t with
    | edit change => exact ih (s := service.advance s (.edit change)) hs hquiet
    | handle l =>
      obtain ⟨found, w⟩ := s
      subst hs
      obtain ⟨checker, hfirst⟩ :=
        (plays_scene service (some session) w l.message).kept (hquiet _ List.mem_cons_self)
      obtain ⟨checker', hrest⟩ := ih (s := service.advance (some session, w) (.handle l)) hfirst
        fun scene h => hquiet scene (List.mem_cons_of_mem _ h)
      exact ⟨checker', hrest⟩

end Service

section

variable {δ ω : Type} [DecidableEq δ] (c : Compiler δ ω) (resolver : PathResolver)

/-- A session refuses exactly the paths that do not fold to a source of its project. -/
theorem Session.handle_refused_iff {s : Session (Table δ)}
    (hsources : s.sources = s.project.sourceFiles) (path : String) (w : ω) (q : String) :
    (Service.handle ⟨c.backend, resolver⟩ (some s) w (.compile path)).1 =
        some (.compile (.error (CompileError.notInProject q).message)) ↔
      Path.normalize path ∉ s.project.sourceFiles ∧ q = Path.normalize path := by
  have hrefused : (c.compileFile (s.job ⟨c.backend, resolver⟩) (Path.normalize path)
      ⟨.ofFiles s.sources, s.checker, w⟩).1 = .error (.notInProject q) ↔
        Path.normalize path ∉ s.project.sourceFiles ∧ q = Path.normalize path :=
    Compiler.compileFile_refused_iff fun f hf => hsources ▸ hf
  have hanswer : (Service.handle ⟨c.backend, resolver⟩ (some s) w (.compile path)).1 =
      some (.compile ((Compiler.failing (c.compileFile (s.job ⟨c.backend, resolver⟩)
        (Path.normalize path) ⟨.ofFiles s.sources, s.checker, w⟩)).1.mapError Failure.message)) := rfl
  rw [hanswer, ← hrefused]
  cases hresult : c.compileFile (s.job ⟨c.backend, resolver⟩) (Path.normalize path)
    ⟨.ofFiles s.sources, s.checker, w⟩ with
  | mk result b =>
    cases result with
    | ok output => simp [Compiler.failing, Except.mapError]
    | error e =>
      simp only [Compiler.failing, Except.mapError, Option.some.injEq, Answer.compile.injEq,
        Except.error.injEq]
      constructor
      · exact CompileError.eq_of_message
      · rintro rfl
        rfl

/-- A session takes exactly the paths that fold to a source of its project. -/
theorem Session.handle_takes_iff {s : Session (Table δ)}
    (hsources : s.sources = s.project.sourceFiles) (path : String) (w : ω) :
    (∀ q, (Service.handle ⟨c.backend, resolver⟩ (some s) w (.compile path)).1 ≠
      some (.compile (.error (CompileError.notInProject q).message))) ↔
        Path.normalize path ∈ s.project.sourceFiles := by
  have hrefused := handle_refused_iff c resolver hsources path w
  constructor
  · intro hnever
    by_contra hmissing
    exact hnever _ ((hrefused _).2 ⟨hmissing, rfl⟩)
  · intro hmem q hanswer
    exact ((hrefused q).1 hanswer).1 hmem

/-- Behind an init that succeeds, and until another one does, a file compile takes every path that
the session lists, and every name in its project file joined to its directory. -/
def Taken (params : InitParams) (config : ProjectConfig) : Prop :=
  ∀ (s : Option (Session (Table δ)) × ω) (project : ResolvedProject) (output : Output)
    (between : List (Turn ω)), let service : Service (Table δ) ω := ⟨c.backend, resolver⟩
    (service.handle s.1 s.2 (.init params)).1 = some (.init (.ok (project, output))) →
    (∀ scene ∈ service.scenes (service.handle s.1 s.2 (.init params)).2 between,
      scene.opens = false) →
    ∀ path, (path ∈ project.sourceFiles ∨ ∃ text name,
        (c.host.disk s.2).read config.projectFile = .ok text ∧
        name ∈ Document.names .compile text ∧ Path.Relative name ∧
        path = config.rootDir ++ "/" ++ name) →
      ∀ w q, (service.handle
          (service.state (service.handle s.1 s.2 (.init params)).2 between).1 w (.compile path)).1 ≠
        some (.compile (.error (CompileError.notInProject q).message))

/-- The sources of a project are called the same by whoever joins their names to the directory of
its configuration and by cracking. -/
structure NamesAgree (params : InitParams) (config : ProjectConfig) : Prop where
  joined : ∀ name, Path.Relative name → Path.normalize (config.rootDir ++ "/" ++ name) =
    Path.resolve (Path.parent config.projectFile) name
  recorded : ∀ disk p, config.crack disk = .ok p → ∃ text d,
    disk.read config.projectFile = .ok text ∧ disk.IsProject config.projectFile d ∧
    d.compileItems =
      (Document.names .compile text).map (Path.resolve (Path.parent config.projectFile)) ∧
    d.compileItems ⊆ p.sourceFiles
  folded : ∀ disk p, config.crack disk = .ok p → ∀ f ∈ p.sourceFiles, Path.normalize f = f
  taken : Taken c resolver params config

theorem names_agree {params : InitParams} {config : ProjectConfig}
    (hconfig : ProjectConfig.ofInit params.project params.library = .ok config) :
    NamesAgree c resolver params config := by
  obtain ⟨hroot, hback⟩ := ProjectConfig.of_ofInit hconfig
  have hjoined : ∀ name, Path.Relative name → Path.normalize (config.rootDir ++ "/" ++ name) =
      Path.resolve (Path.parent config.projectFile) name := fun name hname => by
    rw [hroot, Path.normalize_startDir hback hname]
  refine ⟨hjoined, fun disk p h => ProjectConfig.recorded_of_crack hback h,
    fun disk p h f hf => (ProjectConfig.folded_of_crack h f hf).normalize_eq, ?_⟩
  intro s project output between service hopened hquiet path hpath w q
  obtain ⟨config', checker, w', hconfig', hcrack, hsession⟩ := Service.opened_of_handle hopened
  obtain rfl : config' = config := Except.ok.inj (hconfig'.symm.trans hconfig)
  have hcracked := Compiler.crack_of_backend hcrack
  have hlisted : Path.normalize path ∈ project.sourceFiles := by
    obtain hpath | ⟨text, name, hread, hname, hrelative, rfl⟩ := hpath
    · rwa [(ProjectConfig.folded_of_crack hcracked path hpath).normalize_eq]
    · obtain ⟨text', d, hread', -, hitems, hsources⟩ :=
        ProjectConfig.recorded_of_crack hback hcracked
      obtain rfl : text' = text := Except.ok.inj (hread'.symm.trans hread)
      rw [hjoined name hrelative]
      exact hsources (hitems ▸ List.mem_map_of_mem hname)
  obtain ⟨checker', hstate⟩ := Service.kept_of_scenes hsession hquiet
  rw [hstate]
  exact (Session.handle_takes_iff c resolver rfl _ w).2 hlisted q

end

/-- A project whose path is spelled in a roundabout way, as are the names in it. -/
def parcel : List (String × String) :=
  [("p//.//App.fsproj",
      "<Project><Compile Include=\"..\\q/./A.fs\"/><Compile Include=\"B.fs\"/></Project>"),
    ("q/A.fs", "1"), ("p/B.fs", "2")]

def parcelParams : InitParams := ⟨" p\\/./\\App.fsproj\t", "/lib"⟩

/-- The files are edited, and an init fails. -/
def unsettled : List (Turn (List (String × String))) :=
  [.edit fun files => ("p/B.fs", "3") :: files.drop 1, .handle ⟨5, .init parcelParams⟩]

def parcelConfig : ProjectConfig :=
  ⟨"p//.//App.fsproj", "p//./", none, "/lib", "Release", true, true, false, .default⟩

theorem names_agree_parcel :
    let opened := Actor.echoService.handle none parcel (.init parcelParams)
    let project : ResolvedProject :=
      ⟨"p//.//App.fsproj", ["q/A.fs", "p/B.fs"], defaultDefines, none, [], []⟩
    ProjectConfig.ofInit parcelParams.project parcelParams.library = .ok parcelConfig ∧
    NamesAgree Compiler.echo .plain parcelParams parcelConfig ∧
    opened.1 = some (.init (.ok (project, .ofList [("q/A.fs", "1"), ("p/B.fs", "2")]))) ∧
    (∀ scene ∈ Actor.echoService.scenes opened.2 unsettled, scene.opens = false) ∧
    ∀ w q, (Actor.echoService.handle (Actor.echoService.state opened.2 unsettled).1 w
        (.compile ("p//./" ++ "/" ++ "..\\q/./A.fs"))).1 ≠
      some (.compile (.error (CompileError.notInProject q).message)) := by
  intro opened project
  have hconfig : ProjectConfig.ofInit parcelParams.project parcelParams.library =
      .ok parcelConfig := by decide +kernel
  have hopened : opened.1 =
      some (.init (.ok (project, .ofList [("q/A.fs", "1"), ("p/B.fs", "2")]))) := by
    decide +kernel
  have hquiet : ∀ scene ∈ Actor.echoService.scenes opened.2 unsettled, scene.opens = false := by
    decide +kernel
  have hname : "..\\q/./A.fs" ∈ Document.names .compile (parcel.head!).2 := by decide +kernel
  have hagree := names_agree Compiler.echo .plain hconfig
  refine ⟨hconfig, hagree, hopened, hquiet, ?_⟩
  exact hagree.taken (none, parcel) project _ unsettled hopened hquiet _
    (.inr ⟨_, _, rfl, hname, by decide, rfl⟩)

end WarmCompile
