import WarmCompile.Proofs.Compile.Affected
import WarmCompile.Proofs.Project.Closure
import WarmCompile.Proofs.Session.Quiet
import WarmCompile.Proofs.Session.Scene

/-!
The commands that are started in the course of a run, each with the system as it is then. Taking note
of them changes nothing, and each is started for a source of the session's project that has just been
read.
-/

namespace WarmCompile

/-- A command that is started, and the system as it is then. -/
structure Started (ω : Type) where
  world : ω
  invocation : Invocation
  deriving DecidableEq

variable {δ ω : Type}

/-- A host that takes note of the commands that it starts. -/
def Host.logged (host : Host ω) : Host (ω × List (Started ω)) where
  disk s := host.disk s.1
  run inv s :=
    let (result, w) := host.run inv s.1
    (result, w, s.2 ++ [⟨s.1, inv⟩])

def Workbench.withNotes {κ : Type} (b : Workbench κ ω) (notes : List (Started ω)) :
    Workbench κ (ω × List (Started ω)) :=
  ⟨b.sources, b.checker, b.world, notes⟩

namespace Compiler

def logged (c : Compiler δ ω) : Compiler δ (ω × List (Started ω)) where
  settings := c.settings
  host := c.host.logged
  digest := c.digest

/-- A command is started for a path: it is given the path, and what has just been read there. -/
structure Serves (c : Compiler δ ω) (job : Job) (path : String) (start : Started ω) : Prop where
  read : (c.host.disk start.world).read path = .ok start.invocation.input
  command : ∃ program, start.invocation = c.command program path start.invocation.input job

variable {c : Compiler δ ω} {job : Job} {due : String → String → Bool} {path content : String}
  {paths : List String} {r r' : SourceReader} {w : ω}

/-! ### One compile -/

/-- No command is started in emitting a file that has just been read, but for this file. -/
theorem emit_logged (job : Job) (hcontent : (c.host.disk w).read path = .ok content) : ∃ more,
    (∀ notes, c.logged.emit job path content (w, notes) =
      ((c.emit job path content w).1, (c.emit job path content w).2, notes ++ more)) ∧
    ∀ start ∈ more, c.Serves job path start := by
  cases hready : job.resolver.precompiled path with
  | some ready =>
    refine ⟨[], ?_, nofun⟩
    intro notes
    simp only [emit, hready, logged, Host.logged, List.append_nil]
    cases (c.host.disk w).read ready <;> rfl
  | none =>
    cases hcommand : c.settings.command with
    | none =>
      refine ⟨[], ?_, nofun⟩
      intro notes
      simp only [emit, hready, logged, hcommand, List.append_nil]
    | some program =>
      refine ⟨[⟨w, c.command program path content job⟩], ?_, ?_⟩
      · intro notes
        have hrun : c.logged.host.run (c.logged.command program path content job) (w, notes) =
            ((c.host.run (c.command program path content job) w).1,
              (c.host.run (c.command program path content job) w).2,
              notes ++ [⟨w, c.command program path content job⟩]) := rfl
        have hsettings : c.logged.settings = c.settings := rfl
        simp only [emit, hready, hcommand, hsettings, hrun]
        cases c.host.run (c.command program path content job) w with
        | mk result w' => cases result <;> rfl
      · intro start hstart
        rw [List.mem_singleton.1 hstart]
        exact ⟨hcontent, program, rfl⟩

/-- In a delivery of files that have not been read yet, each command is started for one of them. -/
theorem deliver_logged (c : Compiler δ ω) (job : Job) (due : String → String → Bool) (w : ω)
    (hnodup : paths.Nodup) (hheld : ∀ p ∈ paths, r.held.find? p = none) : ∃ more,
    (∀ notes, c.logged.deliver job due paths r (w, notes) =
      ((c.deliver job due paths r w).1, (c.deliver job due paths r w).2.1,
        (c.deliver job due paths r w).2.2, notes ++ more)) ∧
    ∀ start ∈ more, ∃ path ∈ paths, c.Serves job path start := by
  induction paths generalizing r w with
  | nil => exact ⟨[], fun notes => by rw [List.append_nil]; rfl, nofun⟩
  | cons path paths ih =>
    obtain ⟨hnew, hnodup⟩ := List.nodup_cons.1 hnodup
    simp only [deliver_cons]
    have hdisk : ∀ notes, c.logged.host.disk (w, notes) = c.host.disk w := fun notes => rfl
    simp only [hdisk]
    cases hread : r.read (c.host.disk w) path with
    | mk result r₁ =>
      cases result with
      | error e => exact ⟨[], fun notes => by rw [List.append_nil], nofun⟩
      | ok content =>
        have hnone := hheld path List.mem_cons_self
        obtain ⟨hcontent, hsame⟩ := SourceReader.of_read_of_not_held hnone hread
        have hheld₁ : ∀ p ∈ paths, r₁.held.find? p = none := by
          intro p hp
          rw [hsame p fun heq => hnew (heq ▸ hp)]
          exact hheld p (List.mem_cons_of_mem path hp)
        by_cases hdue : due path content = true
        · obtain ⟨first, hemit, hserves⟩ := emit_logged job hcontent
          simp only [if_pos hdue, hemit]
          cases hresult : c.emit job path content w with
          | mk result w₁ =>
            cases result with
            | error e =>
              exact ⟨first, fun notes => rfl, fun start hstart =>
                ⟨path, List.mem_cons_self, hserves start hstart⟩⟩
            | ok code =>
              obtain ⟨more, hrest, hmore⟩ := ih w₁ hnodup hheld₁
              refine ⟨first ++ more, ?_, ?_⟩
              · intro notes
                dsimp only
                rw [hrest, List.append_assoc]
              · intro start hstart
                rcases List.mem_append.1 hstart with hstart | hstart
                · exact ⟨path, List.mem_cons_self, hserves start hstart⟩
                · obtain ⟨p, hp, hserved⟩ := hmore start hstart
                  exact ⟨p, List.mem_cons_of_mem path hp, hserved⟩
        · obtain ⟨more, hrest, hmore⟩ := ih w hnodup hheld₁
          refine ⟨more, ?_, ?_⟩
          · intro notes
            simp only [if_neg hdue, hrest]
          · intro start hstart
            obtain ⟨p, hp, hserved⟩ := hmore start hstart
            exact ⟨p, List.mem_cons_of_mem path hp, hserved⟩

/-- In a compile whose sources are read afresh, each command is started for one of them. -/
theorem compile_logged (c : Compiler δ ω) (hnodup : job.project.sourceFiles.Nodup)
    (due : String → String → Bool) (files : List String) (checker : Table δ) (w : ω) : ∃ more,
    (∀ notes, c.logged.compile job due ⟨.ofFiles files, checker, w, notes⟩ =
      ((c.compile job due ⟨.ofFiles files, checker, w⟩).1,
        (c.compile job due ⟨.ofFiles files, checker, w⟩).2.withNotes (notes ++ more))) ∧
    ∀ start ∈ more, ∃ path ∈ job.project.sourceFiles, c.Serves job path start := by
  obtain ⟨more, hdeliver, hmore⟩ := c.deliver_logged job due (r := .ofFiles files) w hnodup
    fun p hp => rfl
  refine ⟨more, ?_, hmore⟩
  intro notes
  simp only [compile, hdeliver]
  cases c.deliver job due job.project.sourceFiles (.ofFiles files) w with
  | mk result s => cases result <;> rfl

theorem failing_withNotes {α κ : Type} (x : Except CompileError α × Workbench κ ω)
    (notes : List (Started ω)) :
    failing (x.1, x.2.withNotes notes) = ((failing x).1, (failing x).2.withNotes notes) := by
  rcases x with ⟨_ | _, _⟩ <;> rfl

variable [DecidableEq δ]

theorem compileProject_logged (hnodup : job.project.sourceFiles.Nodup) {files : List String}
    {checker : Table δ} {result : Except Failure Output} {b : Workbench (Table δ) ω}
    (h : c.backend.compileProject job ⟨.ofFiles files, checker, w⟩ = (result, b)) : ∃ more,
    (∀ notes, c.logged.backend.compileProject job ⟨.ofFiles files, checker, w, notes⟩ =
      (result, b.withNotes (notes ++ more))) ∧
    ∀ start ∈ more, ∃ path ∈ job.project.sourceFiles, c.Serves job path start := by
  obtain ⟨more, hcompile, hmore⟩ := c.compile_logged hnodup (fun _ _ => true) files checker w
  change failing (c.compileProject job ⟨.ofFiles files, checker, w⟩) = (result, b) at h
  refine ⟨more, ?_, hmore⟩
  intro notes
  have hresult := failing_withNotes (c.compileProject job ⟨.ofFiles files, checker, w⟩) (notes ++ more)
  rw [h] at hresult
  exact (congrArg failing (hcompile notes)).trans hresult

theorem compileFile_logged (hnodup : job.project.sourceFiles.Nodup) {files : List String}
    {checker : Table δ} {result : Except Failure Output} {b : Workbench (Table δ) ω}
    (h : c.backend.compileFile job path ⟨.ofFiles files, checker, w⟩ = (result, b)) : ∃ more,
    (∀ notes, c.logged.backend.compileFile job path ⟨.ofFiles files, checker, w, notes⟩ =
      (result, b.withNotes (notes ++ more))) ∧
    ∀ start ∈ more, ∃ source ∈ job.project.sourceFiles, c.Serves job source start := by
  change failing (c.compileFile job path ⟨.ofFiles files, checker, w⟩) = (result, b) at h
  by_cases hcontains : job.project.contains path = true
  · obtain ⟨more, hcompile, hmore⟩ := c.compile_logged hnodup
      (fun file content => file == path || c.isStale checker file content) files checker w
    refine ⟨more, ?_, hmore⟩
    intro notes
    have hresult := failing_withNotes (c.compileFile job path ⟨.ofFiles files, checker, w⟩)
      (notes ++ more)
    rw [h, compileFile, if_pos hcontains] at hresult
    have hlogged : c.logged.backend.compileFile job path ⟨.ofFiles files, checker, w, notes⟩ =
        failing (c.logged.compileFile job path ⟨.ofFiles files, checker, w, notes⟩) := rfl
    rw [hlogged, compileFile, if_pos hcontains]
    exact (congrArg failing (hcompile notes)).trans hresult
  · rw [compileFile, if_neg hcontains] at h
    cases h
    refine ⟨[], ?_, List.forall_mem_nil _⟩
    intro notes
    have hlogged : c.logged.backend.compileFile job path ⟨.ofFiles files, checker, w, notes⟩ =
        failing (c.logged.compileFile job path ⟨.ofFiles files, checker, w, notes⟩) := rfl
    rw [hlogged, compileFile, if_neg hcontains, List.append_nil]
    rfl

theorem crack_logged {config : ProjectConfig} {result : Except Failure ResolvedProject} {w' : ω}
    (h : c.backend.crack config w = (result, w')) (notes : List (Started ω)) :
    c.logged.backend.crack config (w, notes) = (result, w', notes) := by
  change failing (config.crack (c.host.disk w), w) = _ at h
  change failing (config.crack (c.host.disk w), w, notes) = _
  cases hcrack : config.crack (c.host.disk w) with
  | error e =>
    rw [hcrack] at h
    cases h
    rfl
  | ok p =>
    rw [hcrack] at h
    cases h
    rfl

/-! ### A run of a session -/

/-- A project has been cracked for a configuration that an init can ask for. -/
structure Cracked (c : Compiler δ ω) (config : ProjectConfig) (p : ResolvedProject) : Prop where
  configured : ∃ project library, ProjectConfig.ofInit project library = .ok config
  cracked : ∃ w, config.crack (c.host.disk w) = .ok p

/-- A session is of a project that has been cracked, and reads its sources. -/
structure Holds (c : Compiler δ ω) (s : Session (Table δ)) : Prop where
  cracked : c.Cracked s.config s.project
  sources : s.sources = s.project.sourceFiles

/-- A command is started for a source of a project. -/
def Sound (c : Compiler δ ω) (resolver : PathResolver) (start : Started ω) : Prop :=
  ∃ config p path, c.Cracked config p ∧ path ∈ p.sourceFiles ∧
    c.Serves ⟨resolver, config, p⟩ path start

omit [DecidableEq δ] in
theorem Cracked.nodup {config : ProjectConfig} {p : ResolvedProject} (h : c.Cracked config p) :
    p.sourceFiles.Nodup := by
  obtain ⟨w, hcrack⟩ := h.cracked
  exact ProjectConfig.nodup_sources_of_crack hcrack

omit [DecidableEq δ] in
theorem Cracked.sound {resolver : PathResolver} {config : ProjectConfig} {p : ResolvedProject}
    (h : c.Cracked config p) {starts : List (Started ω)}
    (hserves : ∀ start ∈ starts, ∃ path ∈ p.sourceFiles, c.Serves ⟨resolver, config, p⟩ path start) :
    ∀ start ∈ starts, c.Sound resolver start := by
  intro start hstart
  obtain ⟨path, hpath, hserved⟩ := hserves start hstart
  exact ⟨config, p, path, h, hpath, hserved⟩

theorem cracked_of_backend {params : InitParams} {config : ProjectConfig} {p : ResolvedProject}
    {w' : ω} (hconfig : ProjectConfig.ofInit params.project params.library = .ok config)
    (hcrack : c.backend.crack config w = (.ok p, w')) : c.Cracked config p :=
  ⟨⟨params.project, params.library, hconfig⟩, w, crack_of_backend hcrack⟩

section

variable {resolver : PathResolver} {session session' : Option (Session (Table δ))}
  {scene : Scene (Table δ)} {w' : ω} {m : Message}

/-- On a host that takes notes the same is played, and each command is started for a source of a
project. -/
theorem plays_logged (hsession : ∀ s ∈ session, c.Holds s)
    (h : Service.Plays ⟨c.backend, resolver⟩ session w scene session' w') :
    (∀ s ∈ session', c.Holds s) ∧ ∃ more, (∀ start ∈ more, c.Sound resolver start) ∧
      ∀ notes, Service.Plays ⟨c.logged.backend, resolver⟩ session (w, notes) scene session'
        (w', notes ++ more) := by
  cases h with
  | refused params e hconfig =>
    refine ⟨hsession, [], nofun, ?_⟩
    intro notes
    rw [List.append_nil]
    exact .refused params e hconfig
  | uncracked params config f w' hconfig hcrack =>
    refine ⟨hsession, [], nofun, ?_⟩
    intro notes
    rw [List.append_nil]
    exact .uncracked params config f _ hconfig (crack_logged hcrack notes)
  | unmade params config p f w₁ w' hconfig hcrack hcreate => cases hcreate
  | failed params config p checker f w₁ w₂ b hconfig hcrack hcreate hcompile =>
    have hp := cracked_of_backend hconfig hcrack
    cases hcreate
    obtain ⟨more, hlogged, hmore⟩ := compileProject_logged hp.nodup hcompile
    refine ⟨hsession, more, hp.sound hmore, ?_⟩
    intro notes
    exact .failed params config p .empty f (w₁, notes) (w₁, notes) (b.withNotes (notes ++ more))
      hconfig (crack_logged hcrack notes) rfl (hlogged notes)
  | opened params config p checker output w₁ w₂ b hconfig hcrack hcreate hcompile =>
    have hp := cracked_of_backend hconfig hcrack
    cases hcreate
    obtain ⟨more, hlogged, hmore⟩ := compileProject_logged hp.nodup hcompile
    refine ⟨?_, more, hp.sound hmore, ?_⟩
    · rintro s ⟨⟩
      exact ⟨hp, rfl⟩
    · intro notes
      exact .opened params config p .empty output (w₁, notes) (w₁, notes) (b.withNotes (notes ++ more))
        hconfig (crack_logged hcrack notes) rfl (hlogged notes)
  | idle path hnone =>
    refine ⟨hsession, [], nofun, ?_⟩
    intro notes
    rw [List.append_nil]
    exact .idle path hnone
  | compiled path s result b hsome hcompile =>
    subst hsome
    have hs := hsession s rfl
    obtain ⟨more, hlogged, hmore⟩ := compileFile_logged hs.cracked.nodup hcompile
    refine ⟨?_, more, hs.cracked.sound hmore, ?_⟩
    · rintro s' ⟨⟩
      exact ⟨hs.cracked, hs.sources⟩
    · intro notes
      have hjob : s.job ⟨c.logged.backend, resolver⟩ = s.job ⟨c.backend, resolver⟩ := rfl
      exact .compiled path s result (b.withNotes (notes ++ more)) rfl (hjob ▸ hlogged notes)
  | disconnect =>
    refine ⟨hsession, [], nofun, ?_⟩
    intro notes
    rw [List.append_nil]
    exact .disconnect

/-- A message is handled on a host that takes notes as it is on the host itself, and each command
that is started for it is started for a source of a project. -/
theorem handle_logged (resolver : PathResolver) (hsession : ∀ s ∈ session, c.Holds s) (w : ω)
    (m : Message) :
    (∀ s ∈ (Service.handle ⟨c.backend, resolver⟩ session w m).2.1, c.Holds s) ∧
    ∃ more, (∀ start ∈ more, c.Sound resolver start) ∧
      ∀ notes, Service.handle ⟨c.logged.backend, resolver⟩ session (w, notes) m =
        ((Service.handle ⟨c.backend, resolver⟩ session w m).1,
          (Service.handle ⟨c.backend, resolver⟩ session w m).2.1,
          (Service.handle ⟨c.backend, resolver⟩ session w m).2.2, notes ++ more) := by
  obtain ⟨scene, session', w', rfl, hplays⟩ :=
    Service.exists_plays ⟨c.backend, resolver⟩ session w m
  obtain ⟨hsession', more, hmore, hlogged⟩ := plays_logged hsession hplays
  rw [hplays.handled]
  exact ⟨hsession', more, hmore, fun notes => (hlogged notes).handled⟩

end

/-- The commands that are started in a turn. -/
def startsAt (c : Compiler δ ω) (resolver : PathResolver) (s : Option (Session (Table δ)) × ω) :
    Turn ω → List (Started ω)
  | .handle l => (Service.handle ⟨c.logged.backend, resolver⟩ s.1 (s.2, []) l.message).2.2.2
  | .edit _ => []

/-- The commands that are started in the course of a run. -/
def starts (c : Compiler δ ω) (resolver : PathResolver) (s : Option (Session (Table δ)) × ω)
    (turns : List (Turn ω)) : List (Started ω) :=
  notesOf (Service.advance ⟨c.backend, resolver⟩) (c.startsAt resolver) s turns

/-- Whatever is started in a run is started for a source of a project. -/
theorem sound_of_starts {resolver : PathResolver} {turns : List (Turn ω)}
    {s : Option (Session (Table δ)) × ω} (hsession : ∀ x ∈ s.1, c.Holds x) :
    ∀ start ∈ c.starts resolver s turns, c.Sound resolver start := by
  induction turns generalizing s with
  | nil => exact nofun
  | cons t turns ih =>
    intro start hstart
    obtain hstart | hstart := List.mem_append.1 hstart
    · cases t with
      | edit change => cases hstart
      | handle l =>
        obtain ⟨-, more, hmore, hlogged⟩ := handle_logged resolver hsession s.2 l.message
        rw [startsAt, hlogged] at hstart
        exact hmore start hstart
    · cases t with
      | edit change => exact ih (s := Service.advance _ s (.edit change)) hsession start hstart
      | handle l =>
        obtain ⟨hnext, -⟩ := handle_logged resolver hsession s.2 l.message
        exact ih (s := Service.advance _ s (.handle l)) hnext start hstart

end Compiler

end WarmCompile
