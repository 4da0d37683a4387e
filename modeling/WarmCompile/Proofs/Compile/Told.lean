import WarmCompile.Proofs.Compile.Started
import WarmCompile.Proofs.Host.Entered
import WarmCompile.Proofs.Path.Absolute
import WarmCompile.Proofs.Project.Named

/-!
What a command is told by the path that it is given, in the directory that it is started in: the file
that its input has been read from, if the path is absolute or the directory is below the same one as
the directory of the daemon, as far up as the path climbs; otherwise it is not that file.
-/

namespace WarmCompile

/-! ### Projects with absolute paths -/

namespace Path

theorem isAbsolute_parent {s : String} (h : isAbsolute s.toList = true) :
    isAbsolute (parent s).toList = true := by
  obtain hnone | ⟨dir, base, hs, hbase⟩ := base_cases s.toList
  · obtain ⟨rest, hrest⟩ := isAbsolute_iff.1 h
    exact absurd (hrest ▸ List.mem_cons_self) hnone
  · rw [parent, hs, dropWhile_of_append hbase, String.toList_ofList, List.reverse_cons,
      List.reverse_reverse, ← isAbsolute_append dir base, ← hs]
    exact h

theorem isAbsolute_resolve {dir : String} (hdir : isAbsolute dir.toList = true)
    (hback : '\\' ∉ dir.toList) (name : String) : isAbsolute (resolve dir name).toList = true := by
  by_cases hname : Relative name
  · have hproper := proper_descend (proper_ofText hback) (not_mem_forward name)
    have hresolve : resolve dir name =
        String.ofList ((ofText dir.toList).descend (forward name).toList).toText := by
      rw [resolve]
      simp only [hname.isAbsolute_eq, Bool.false_eq_true, if_false]
      apply forward_of_not_mem
      rw [String.toList_ofList]
      exact not_mem_toText hproper
    rw [hresolve, String.toList_ofList, isAbsolute_toText hproper, rooted_descend, ofText,
      rooted_descend]
    exact hdir
  · rw [resolve_of_not_relative hname, isAbsolute_normalize]
    exact isAbsolute_of_not_relative hname

end Path

variable {disk : Disk}

theorem Disk.IsProject.rooted {path : String} {d : Document} (h : disk.IsProject path d)
    (hpath : Path.isAbsolute path.toList = true) (hback : '\\' ∉ path.toList) (item : Document.Item) :
    ∀ f ∈ d.items item, Path.isAbsolute f.toList = true := by
  obtain ⟨text, -, hparse⟩ := h.parsed
  intro f hf
  rw [Document.items_of_parse item hparse] at hf
  obtain ⟨name, -, rfl⟩ := List.mem_map.1 hf
  exact Path.isAbsolute_resolve (Path.isAbsolute_parent hpath) (Path.not_mem_parent hback) name

/-- Whatever is reached from an absolute path is at one. -/
theorem Disk.Reaches.rooted {root path : String} (hroot : Path.isAbsolute root.toList = true)
    (hback : '\\' ∉ root.toList) (h : disk.Reaches root path) :
    Path.isAbsolute path.toList = true ∧ '\\' ∉ path.toList := by
  induction h with
  | refl => exact ⟨hroot, hback⟩
  | tail hreach hrefers ih =>
    obtain ⟨d, hproject, hp⟩ := hrefers
    constructor
    · exact hproject.rooted ih.1 ih.2 .reference _ hp
    · exact (hproject.folded ih.2 _ (List.mem_append_right _ hp)).not_mem

/-- The sources of a project with an absolute path have absolute paths. -/
theorem ProjectConfig.rooted_of_crack {config : ProjectConfig} {p : ResolvedProject}
    (hback : '\\' ∉ config.projectFile.toList) (h : config.crack disk = .ok p)
    (hroot : Path.isAbsolute config.projectFile.toList = true) :
    ∀ f ∈ p.sourceFiles, Path.isAbsolute f.toList = true := by
  intro f hf
  obtain ⟨q, d, hreach, hproject, hf⟩ := (mem_sources_of_crack h).1 hf
  rw [Path.forward_of_not_mem hback] at hreach
  obtain ⟨hq, hqback⟩ := hreach.rooted hroot hback
  exact hproject.rooted hq hqback .compile f hf

/-! ### What a command is told -/

/-- A file is read where it is. -/
theorem Tree.names_of_readText {t : Tree} {path text : String} (h : t.readText path = .ok text) :
    ∃ there, t.Names path there := by
  have hfile : t.isFile path = true := by
    unfold readText readBytes at h
    unfold isFile
    cases hfind : t.find? path with
    | error e =>
      rw [hfind] at h
      cases h
    | ok node =>
      rw [hfind] at h
      cases node with
      | file => rfl
      | directory => cases h
      | socket => cases h
  exact (isFile_iff_names.1 hfile).2

/-- A command that is started for a source of a project is given the path of the source, what is in
the file there, and the directory of the project to start in; there the path names the same file if
and only if it is absolute or climbs to where the directories are the same. -/
structure Told (t : Tree) (inv : Invocation) (config : ProjectConfig) (path : String)
    (there : List String) : Prop where
  argument : inv.args.getLast? = some path
  dir : inv.dir = config.rootDir
  named : t.Names path there
  read : t.readText path = .ok inv.input
  same : ∀ inside, t.enter inv.dir = .ok inside → (inside.Names path there ↔
    Path.isAbsolute path.toList = true ∨
      Tree.above (Path.ofText path.toList).climbs inside.cwd =
        Tree.above (Path.ofText path.toList).climbs t.cwd)
  rooted : Path.isAbsolute config.projectFile.toList = true → Path.isAbsolute path.toList = true

variable {δ ω : Type} [DecidableEq δ]

omit [DecidableEq δ] in
theorem Compiler.told_of_sound {c : Compiler δ ω} {view : ω → Tree}
    (hview : ∀ w, c.host.disk w = (view w).disk) {resolver : PathResolver} {start : Started ω}
    (h : c.Sound resolver start) : ∃ config p path there, c.Cracked config p ∧
      path ∈ p.sourceFiles ∧ Told (view start.world) start.invocation config path there := by
  obtain ⟨config, p, path, hcracked, hpath, hserves⟩ := h
  obtain ⟨project, library, hconfig⟩ := hcracked.configured
  obtain ⟨w, hcrack⟩ := hcracked.cracked
  obtain ⟨program, hinvocation⟩ := hserves.command
  have hread : (view start.world).readText path = .ok start.invocation.input := by
    have hdisk := hserves.read
    rw [hview] at hdisk
    exact hdisk
  obtain ⟨there, hnames⟩ := Tree.names_of_readText hread
  have hfolded := ProjectConfig.folded_of_crack hcrack path hpath
  refine ⟨config, p, path, there, hcracked, hpath, ?_⟩
  constructor
  case argument =>
    rw [hinvocation]
    exact List.getLast?_concat
  case dir =>
    rw [hinvocation]
    rfl
  case named => exact hnames
  case read => exact hread
  case same =>
    intro inside henter
    exact Tree.names_inside_iff hfolded hnames henter
  case rooted =>
    intro hroot
    exact ProjectConfig.rooted_of_crack (ProjectConfig.of_ofInit hconfig).2 hcrack hroot path hpath

/-- Whatever is started in a run is told so. -/
theorem Compiler.told_of_run (c : Compiler δ ω) (resolver : PathResolver) (view : ω → Tree)
    (hview : ∀ w, c.host.disk w = (view w).disk) (w : ω) (turns : List (Turn ω)) :
    ∀ start ∈ c.starts resolver (none, w) turns, ∃ config p path there, c.Cracked config p ∧
      path ∈ p.sourceFiles ∧ Told (view start.world) start.invocation config path there := by
  intro start hstart
  have hnone : ∀ s ∈ (none : Option (Session (Table δ))), c.Holds s := fun s hs => nomatch hs
  exact told_of_sound hview (sound_of_starts hnone start hstart)

/-- A project in a directory below that of the daemon, which has a directory of its own name. -/
def outskirts : Tree where
  root := .directory [("w", .directory [("sub", .directory [
    ("App.fsproj", .file "<Project><Compile Include=\"A.fs\"/></Project>".toUTF8 0o644),
    ("A.fs", .file "1".toUTF8 0o644),
    ("sub", .directory [("A.fs", .file "2".toUTF8 0o644)])])])]
  cwd := ["w"]

/-- A command that gives its input back, on a system that stays as it is. -/
def mirror : Compiler Digest.Words Unit where
  settings := { command := some "mirror", args := ["-"], env := .empty }
  host := {
    disk := fun _ => outskirts.disk
    run := fun inv w => (.ok ⟨.code 0, inv.input.toUTF8.toList, []⟩, w) }
  digest := Digest.ofText

/-- An init as it is started in the outskirts. -/
def outskirtsInit (project : String) : Turn Unit :=
  .handle ⟨1, .init ⟨project, "/lib"⟩⟩

def mirrored (path dir : String) : Started Unit where
  world := ()
  invocation := {
    program := "mirror"
    args := ["-", path]
    dir
    env := [("FABLE_LIBRARY", "/lib"), ("FABLE_DEFINES", ";".intercalate defaultDefines),
      ("FABLE_LANGUAGE", "javascript"), ("FABLE_EXTENSION", ".fs.js")]
    input := "1" }

theorem Compiler.told_of_run_outskirts :
    let turns := [outskirtsInit "/w/sub/App.fsproj", outskirtsInit "sub/App.fsproj"]
    (∀ w, mirror.host.disk w = outskirts.disk) ∧
    mirror.starts .plain (none, ()) turns =
      [mirrored "/w/sub/A.fs" "/w/sub", mirrored "sub/A.fs" "sub"] ∧
    ∀ start ∈ mirror.starts .plain (none, ()) turns, ∃ config p path there,
      mirror.Cracked config p ∧ path ∈ p.sourceFiles ∧
        Told outskirts start.invocation config path there := by
  intro turns
  refine ⟨fun w => rfl, by decide +kernel, ?_⟩
  exact told_of_run mirror .plain (fun _ => outskirts) (fun _ => rfl) () turns

/-- The input of a command is read from one file, and its path names another where it is started. -/
theorem Compiler.misled_outskirts :
    let config : ProjectConfig :=
      ⟨"sub/App.fsproj", "sub", none, "/lib", "Release", true, true, false, .default⟩
    let p : ResolvedProject := ⟨"sub/App.fsproj", ["sub/A.fs"], defaultDefines, none, [], []⟩
    let start := mirrored "sub/A.fs" "sub"
    let inside : Tree := ⟨outskirts.root, ["w", "sub"]⟩
    ProjectConfig.ofInit "sub/App.fsproj" "/lib" = .ok config ∧
    config.crack outskirts.disk = .ok p ∧
    start ∈ mirror.starts .plain (none, ()) [outskirtsInit "sub/App.fsproj"] ∧
    start.invocation.args.getLast? = some "sub/A.fs" ∧ start.invocation.dir = config.rootDir ∧
    outskirts.enter config.rootDir = .ok inside ∧
    outskirts.readText "sub/A.fs" = .ok start.invocation.input ∧
    outskirts.Names "sub/A.fs" ["w", "sub", "A.fs"] ∧
    inside.Names "sub/A.fs" ["w", "sub", "sub", "A.fs"] ∧
    ¬ inside.Names "sub/A.fs" ["w", "sub", "A.fs"] := by
  intro config p start inside
  have hread : outskirts.Names "sub/A.fs" ["w", "sub", "A.fs"] :=
    Tree.names_of_locate (by decide +kernel) ⟨_, _, rfl⟩
  have htold : inside.Names "sub/A.fs" ["w", "sub", "sub", "A.fs"] :=
    Tree.names_of_locate (by decide +kernel) ⟨_, _, rfl⟩
  have henter : outskirts.enter config.rootDir = .ok inside :=
    Tree.enter_eq_ok.2 ⟨rfl, by decide +kernel, _, rfl⟩
  refine ⟨by decide +kernel, by decide +kernel, by decide +kernel, rfl, rfl, henter,
    by decide +kernel, hread, htold, ?_⟩
  intro hnamed
  exact absurd (hnamed.unique htold) (by decide)

end WarmCompile
