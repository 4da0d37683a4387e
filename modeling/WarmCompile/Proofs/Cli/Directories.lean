import WarmCompile.Cli.Report
import WarmCompile.Proofs.Host.Names
import WarmCompile.Proofs.Session.Accepted
import WarmCompile.Proofs.Text.Blank
import WarmCompile.Serve.Incoming

/-!
Commands that are typed in different directories: an init records the items of a project by the
directory in which it was typed, a compile is looked up by the directory in which it was typed, and
the two meet where both come to the same path.
-/

namespace WarmCompile

/-- What a working directory, the directory of a project file and the name of an item come to, one
joined to the other. -/
def Path.beside (cwd project name : String) : String :=
  normalize (join (join cwd (parent project)) name)

/-- The names of the items in a project file. -/
def Disk.itemNames (disk : Disk) (path : String) : List String :=
  match disk.read path with
  | .ok text => Document.names .compile text
  | .error _ => []

theorem Path.ne_empty_of_isAbsolute {s : String} (h : isAbsolute s.toList = true) : s ≠ "" := by
  rintro rfl
  cases h

/-! ### The project that an init opens -/

section

variable {cwd project library : String} {config : ProjectConfig}
  (hcwd : Path.isAbsolute cwd.toList = true) (hback : '\\' ∉ cwd.toList)
  (hproject : '\\' ∉ project.toList) (hblank : Text.trimmed project = project)
  {base : List Char} (hbase : Path.EndsWith project base)

include hcwd hback hproject hblank hbase

/-- The path of a project file is the one that it was given in the directory where it was typed. -/
theorem ProjectConfig.projectFile_of_typed
    (h : ofInit (Path.absolute cwd project) library = .ok config) :
    config.projectFile = Path.absolute cwd project := by
  have hne := Path.ne_empty_of_isAbsolute hcwd
  have hends := Text.trim_eq_self_iff.1 (String.ofList_inj.1 (hblank.trans String.ofList_toList.symm))
  have htrim : Text.trimmed (Path.absolute cwd project) = Path.absolute cwd project := by
    have hself : Text.trim (Path.absolute cwd project).toList = (Path.absolute cwd project).toList := by
      apply Text.trim_eq_self_iff.2
      constructor
      · intro c hc
        obtain ⟨rest, hrest⟩ := Path.isAbsolute_iff.1 (Path.isAbsolute_absolute hne hcwd project)
        rw [hrest] at hc
        cases hc
        rfl
      · intro c hc
        rw [Path.getLast?_absolute hne hbase] at hc
        exact hends.2 c hc
    rw [Text.trimmed, hself, String.ofList_toList]
  rw [projectFile_of_ofInit h, htrim, Path.forward_of_not_mem (Path.not_mem_absolute hback hproject)]

end

/-! ### What commands ask -/

/-- A directory in which commands are typed: an absolute path that is folded. -/
structure Path.Workplace (cwd : String) : Prop where
  rooted : isAbsolute cwd.toList = true
  folded : Folded cwd

theorem Path.Workplace.ne_empty {cwd : String} (h : Workplace cwd) : cwd ≠ "" :=
  ne_empty_of_isAbsolute h.rooted

/-- A path as it is typed: it is not empty, has no backslash in it and no blank around it. -/
structure Path.Typed (path : String) : Prop where
  ne_empty : path ≠ ""
  not_mem : '\\' ∉ path.toList
  trimmed : Text.trimmed path = path

/-- What the session is asked by a command that is typed in a directory. -/
def Cli.Command.message? (cwd : String) (command : Command) : Option Message :=
  match command.call? cwd with
  | .ok (some call) => call.message?
  | _ => none

theorem Cli.absolute_eq_ok {path : String} (h : path ≠ "") (cwd : String) :
    absolute cwd path = .ok (Path.absolute cwd path) := by
  have hempty : path.isEmpty = false := by simpa using h
  rw [absolute, hempty]
  rfl

theorem Cli.Command.message?_init {project library : String} (hproject : project ≠ "")
    (hlibrary : library ≠ "") (cwd : String) (socket : Option String) (json : Bool) :
    (Command.init project library socket json).message? cwd =
      some (.init ⟨Path.absolute cwd project, Path.absolute cwd library⟩) := by
  rw [message?, call?, absolute_eq_ok hproject, absolute_eq_ok hlibrary]
  rfl

theorem Cli.Command.message?_compile {file : String} (hfile : file ≠ "") (cwd : String)
    (socket : Option String) (json : Bool) : (Command.compile file socket json).message? cwd =
      some (.compile (Path.absolute cwd file)) := by
  rw [message?, call?, absolute_eq_ok hfile]
  rfl

/-! ### Where an init and a compile meet -/

section

variable {δ ω : Type} [DecidableEq δ] (c : Compiler δ ω) (resolver : PathResolver)

/-- A path is one that a project lists, by one of the root's own items or by an item of another
project. -/
inductive Disk.Lists (disk : Disk) (cwd project path : String) : Prop where
  | beside (name : String) (hname : name ∈ disk.itemNames (Path.absolute cwd project))
    (hrelative : Path.Relative name) (hpath : path = Path.beside cwd project name)
  | apart (name : String) (hname : name ∈ disk.itemNames (Path.absolute cwd project))
    (habsolute : ¬ Path.Relative name) (hpath : path = Path.normalize name)
  | referred (other : String) (d : Document) (hother : other ≠ Path.absolute cwd project)
    (hreach : disk.Reaches (Path.absolute cwd project) other) (hproject : disk.IsProject other d)
    (hpath : path ∈ d.compileItems)

/-- What an init asks for that is typed in a directory. -/
def Cli.asked (cwd project library : String) : InitParams :=
  ⟨Path.absolute cwd project, Path.absolute cwd library⟩

/-- How a session of the project that an init has opened takes a compile that is typed in another
directory. -/
structure Session.Meets (service : Service (Table δ) ω) (disk : Disk) (cwd project cwd' file : String)
    (p : ResolvedProject) (session : Option (Session (Table δ))) : Prop where
  looked : ∀ w, ∃ job reader checker result,
    (service.scene (session, w) (.compile (Path.absolute cwd' file))).calls =
      [.compileFile job (Path.resolve cwd' file) reader checker result]
  recorded : ∀ name ∈ disk.itemNames (Path.absolute cwd project), Path.Relative name →
    Path.resolve (Path.parent (Path.absolute cwd project)) name = Path.beside cwd project name ∧
      Path.beside cwd project name ∈ p.sourceFiles
  found : ∀ w, (∀ q, (service.handle session w (.compile (Path.absolute cwd' file))).1 ≠
      some (.compile (.error (CompileError.notInProject q).message))) ↔
    disk.Lists cwd project (Path.resolve cwd' file)

variable {cwd project : String}

/-- What a project lists is what its root lists, or another project that the root leads to. -/
theorem ProjectConfig.mem_sources_iff_lists {config : ProjectConfig} {disk : Disk}
    {p : ResolvedProject} (hroot : config.projectFile = Path.absolute cwd project)
    (hback : '\\' ∉ config.projectFile.toList)
    (hbeside : ∀ name, Path.Relative name →
      Path.resolve (Path.parent (Path.absolute cwd project)) name = Path.beside cwd project name)
    (hcrack : config.crack disk = .ok p) (path : String) :
    path ∈ p.sourceFiles ↔ disk.Lists cwd project path := by
  obtain ⟨text, d, hread, hproject, hitems, hsources⟩ := recorded_of_crack hback hcrack
  rw [hroot] at hread hproject hitems
  have hnames : disk.itemNames (Path.absolute cwd project) = Document.names .compile text := by
    rw [Disk.itemNames, hread]
  constructor
  · intro hpath
    obtain ⟨other, d', hreach, hother, hlisted⟩ := (mem_sources_of_crack hcrack).1 hpath
    rw [Path.forward_of_not_mem hback, hroot] at hreach
    by_cases hsame : other = Path.absolute cwd project
    · subst hsame
      obtain rfl := hother.unique hproject
      rw [hitems] at hlisted
      obtain ⟨name, hname, rfl⟩ := List.mem_map.1 hlisted
      rw [← hnames] at hname
      by_cases hrelative : Path.Relative name
      · exact .beside name hname hrelative (hbeside name hrelative)
      · exact .apart name hname hrelative (Path.resolve_of_not_relative hrelative _)
    · exact .referred other d' hsame hreach hother hlisted
  · intro hlists
    cases hlists with
    | beside name hname hrelative hpath =>
      rw [hpath, ← hbeside name hrelative]
      exact hsources (hitems ▸ List.mem_map_of_mem (hnames ▸ hname))
    | apart name hname habsolute hpath =>
      rw [hpath, ← Path.resolve_of_not_relative habsolute]
      exact hsources (hitems ▸ List.mem_map_of_mem (hnames ▸ hname))
    | referred other d' hother hreach hproject' hpath =>
      apply (mem_sources_of_crack hcrack).2
      rw [Path.forward_of_not_mem hback, hroot]
      exact ⟨other, d', hreach, hproject', hpath⟩

variable {cwd' file library : String}

/-- Behind an init that has succeeded, and until another one does, a compile that is typed in any
directory is looked up by the path that it has there, and it is found if the project lists this
path; the root's own items are listed by the paths that they have where the init was typed. -/
theorem directories_agree (hcwd : Path.Workplace cwd) (hcwd' : Path.Workplace cwd')
    (hproject : Path.Typed project) (hfile : Path.Typed file) (hlibrary : library ≠ "") {t : Tree}
    {there : List String} (hnamed : t.Names project there) (s : Option (Session (Table δ)) × ω)
    (p : ResolvedProject) (output : Output) (between : List (Turn ω)) :
    let service : Service (Table δ) ω := ⟨c.backend, resolver⟩
    let asked := Cli.asked cwd project library
    (service.handle s.1 s.2 (.init asked)).1 = some (.init (.ok (p, output))) →
    (∀ scene ∈ service.scenes (service.handle s.1 s.2 (.init asked)).2 between,
      scene.opens = false) →
    (∀ socket json, (Cli.Command.init project library socket json).message? cwd =
      some (.init asked)) ∧
    (∀ socket json, (Cli.Command.compile file socket json).message? cwd' =
      some (.compile (Path.absolute cwd' file))) ∧
    Session.Meets service (c.host.disk s.2) cwd project cwd' file p
      (service.state (service.handle s.1 s.2 (.init asked)).2 between).1 := by
  intro service asked hopened hquiet
  have hinit := Cli.Command.message?_init hproject.ne_empty hlibrary cwd
  have hcompile := Cli.Command.message?_compile hfile.ne_empty cwd'
  refine ⟨hinit, hcompile, ?_⟩
  obtain ⟨base, hbase⟩ := hnamed.endsWith
  obtain ⟨config, checker, w, hconfig, hcrack, hsession⟩ := Service.opened_of_handle hopened
  obtain ⟨checker', hstate⟩ := Service.kept_of_scenes hsession hquiet
  have hroot := ProjectConfig.projectFile_of_typed hcwd.rooted hcwd.folded.not_mem hproject.not_mem
    hproject.trimmed hbase hconfig
  have hback := (ProjectConfig.of_ofInit hconfig).2
  have hbeside : ∀ name, Path.Relative name →
      Path.resolve (Path.parent (Path.absolute cwd project)) name = Path.beside cwd project name := by
    intro name hname
    exact Path.resolve_parent_absolute hcwd.ne_empty hbase hcwd.folded.not_mem hproject.not_mem hname
  have hlists := ProjectConfig.mem_sources_iff_lists hroot hback hbeside
    (Compiler.crack_of_backend hcrack)
  have hlooked : Path.normalize (Path.absolute cwd' file) = Path.resolve cwd' file :=
    Path.normalize_absolute hcwd'.ne_empty hcwd'.folded.not_mem hfile.not_mem
  rw [hstate]
  constructor
  case looked =>
    intro w
    obtain ⟨result, hcalls⟩ := service.calls_of_compile
      ⟨config, p, checker', output, p.sourceFiles⟩ w (Path.absolute cwd' file)
    rw [hlooked] at hcalls
    exact ⟨_, _, _, result, hcalls⟩
  case recorded =>
    intro name hname hrelative
    exact ⟨hbeside name hrelative, (hlists _).2 (.beside name hname hrelative rfl)⟩
  case found =>
    intro w
    rw [← hlists, ← hlooked]
    exact Session.handle_takes_iff c resolver rfl (Path.absolute cwd' file) w

end

/-- Two directories side by side, in the first of which there is a project with a file of the
second. -/
def neighbours : Tree where
  root := .directory [("home", .directory [
    ("p", .directory [("sub", .emptyDirectory), ("App.fsproj", .file .empty 0o644)]),
    ("q", .directory [("A.fs", .file .empty 0o644)])])]
  cwd := ["home", "p"]

def neighbourFiles : List (String × String) :=
  [("/home/p/sub/../App.fsproj",
      "<Project><Compile Include=\"..\\q/./A.fs\"/><Compile Include=\"B.fs\"/></Project>"),
    ("/home/q/A.fs", "1"), ("/home/p/B.fs", "2")]

theorem directories_agree_neighbours :
    let service := Actor.echoService
    let asked := Cli.asked "/home/p" ".//sub/../App.fsproj" "lib"
    let p : ResolvedProject :=
      ⟨"/home/p/sub/../App.fsproj", ["/home/q/A.fs", "/home/p/B.fs"], defaultDefines, none, [], []⟩
    let opened := service.handle none neighbourFiles (.init asked)
    let between : List (Turn (List (String × String))) :=
      [.edit List.tail, .handle ⟨5, .init asked⟩]
    neighbours.Names ".//sub/../App.fsproj" ["home", "p", "App.fsproj"] ∧
    opened.1 = some (.init (.ok (p, .ofList [("/home/q/A.fs", "1"), ("/home/p/B.fs", "2")]))) ∧
    (∀ scene ∈ service.scenes opened.2 between, scene.opens = false) ∧
    Session.Meets service (Compiler.echo.host.disk neighbourFiles) "/home/p" ".//sub/../App.fsproj"
      "/home/q" "./r/..//A.fs/" p (service.state opened.2 between).1 ∧
    ∀ w q, (service.handle (service.state opened.2 between).1 w
        (.compile (Path.absolute "/home/q" "./r/..//A.fs/"))).1 ≠
      some (.compile (.error (CompileError.notInProject q).message)) := by
  intro service asked p opened between
  have hnamed : neighbours.Names ".//sub/../App.fsproj" ["home", "p", "App.fsproj"] :=
    Tree.names_of_locate (by decide +kernel) ⟨.empty, 0o644, rfl⟩
  have hopened : opened.1 =
      some (.init (.ok (p, .ofList [("/home/q/A.fs", "1"), ("/home/p/B.fs", "2")]))) := by
    decide +kernel
  have hquiet : ∀ scene ∈ service.scenes opened.2 between, scene.opens = false := by
    decide +kernel
  have hp : Path.Workplace "/home/p" := ⟨by decide, Path.folded_iff.2 (by decide +kernel)⟩
  have hq : Path.Workplace "/home/q" := ⟨by decide, Path.folded_iff.2 (by decide +kernel)⟩
  have hproject : Path.Typed ".//sub/../App.fsproj" := ⟨by decide, by decide, by decide +kernel⟩
  have hfile : Path.Typed "./r/..//A.fs/" := ⟨by decide, by decide, by decide +kernel⟩
  have hlibrary : "lib" ≠ "" := by decide
  obtain ⟨-, -, hmeets⟩ := directories_agree Compiler.echo .plain hp hq hproject hfile hlibrary hnamed
    (none, neighbourFiles) p _ between hopened hquiet
  refine ⟨hnamed, hopened, hquiet, hmeets, fun w => (hmeets.found w).2 ?_⟩
  exact .beside "..\\q/./A.fs" (by decide +kernel) (by decide) (by decide +kernel)

end WarmCompile
