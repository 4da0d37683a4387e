import WarmCompile.Proofs.Compile.Started
import WarmCompile.Proofs.Project.Defines

/-!
The symbols of a project on their way to the compiler: what a command finds in its environment can
be cut up into the symbols that the project has been resolved to, unless the settings say otherwise.
-/

namespace WarmCompile

/-- What a program finds under a name in its environment: of several values the last counts. -/
def Invocation.value? (inv : Invocation) (name : String) : Option String :=
  inv.env.reverse.lookup name

/-- Symbols without semicolons can be told apart when they are joined by them. -/
theorem splitOn_intercalate_defines {defines : List String} (hne : defines ≠ [])
    (h : ∀ define ∈ defines, ';' ∉ define.toList) :
    ((";".intercalate defines).toList.splitOn ';').map String.ofList = defines := by
  have hchars : ∀ cs ∈ defines.map String.toList, ';' ∉ cs := by
    intro cs hcs
    obtain ⟨define, hdefine, rfl⟩ := List.mem_map.1 hcs
    exact h define hdefine
  have hjoined : (";".intercalate defines).toList = [';'].intercalate (defines.map String.toList) :=
    String.toList_intercalate
  rw [hjoined, List.splitOn_intercalate ';' hchars (by simpa using hne), List.map_map]
  simp [Function.comp_def]

namespace Compiler

variable {δ ω : Type} {c : Compiler δ ω} {job : Job} {program path content : String}

/-- The settings have the last word on what a command finds. -/
theorem value_command : (c.command program path content job).value? "FABLE_DEFINES" =
    some ((c.settings.env.find? "FABLE_DEFINES").getD (";".intercalate job.project.defines)) := by
  have hown : ∀ library language extension : String,
      [("FABLE_LIBRARY", library), ("FABLE_DEFINES", ";".intercalate job.project.defines),
        ("FABLE_LANGUAGE", language), ("FABLE_EXTENSION", extension)].reverse.lookup
          "FABLE_DEFINES" = some (";".intercalate job.project.defines) := by
    intro library language extension
    simp [Table.lookup_cons]
  rw [Invocation.value?, command, List.reverse_append, List.lookup_append,
    Table.lookup_reverse_entries, hown]
  cases c.settings.env.find? "FABLE_DEFINES" <;> rfl

end Compiler

/-- What a project is set to comes from its own project file alone. -/
structure ResolvedProject.Settled (p : ResolvedProject) (config : ProjectConfig) (disk : Disk) :
    Prop where
  own : ∃ text, disk.read config.projectFile = .ok text ∧ p.SetBy text
  alone : ∀ disk' p', disk'.read config.projectFile = disk.read config.projectFile →
    config.crack disk' = .ok p' → p'.defines = p.defines ∧
      p'.targetFramework = p.targetFramework ∧ p'.otherOptions = p.otherOptions

/-- A command is handed the symbols of a project, unless the settings give it others. -/
structure Handed (settings : CompilerSettings) (p : ResolvedProject) (inv : Invocation) : Prop where
  intact : settings.env.find? "FABLE_DEFINES" = none → ∃ value,
    inv.value? "FABLE_DEFINES" = some value ∧
      (value.toList.splitOn ';').map String.ofList = p.defines
  replaced : ∀ value, settings.env.find? "FABLE_DEFINES" = some value →
    inv.value? "FABLE_DEFINES" = some value

theorem ProjectConfig.settled_of_crack {project library : String} {config : ProjectConfig}
    {disk : Disk} {p : ResolvedProject} (hconfig : ofInit project library = .ok config)
    (h : config.crack disk = .ok p) : p.Settled config disk := by
  refine ⟨setBy_of_crack hconfig h, fun disk' p' hread h' => settings_eq_of_read_eq h h' ?_⟩
  rw [Path.forward_of_not_mem (of_ofInit hconfig).2]
  exact hread

variable {δ ω : Type}

theorem Compiler.handed_of_serves {c : Compiler δ ω} {resolver : PathResolver}
    {config : ProjectConfig} {p : ResolvedProject} {path : String} {start : Started ω}
    (hcracked : c.Cracked config p) (h : c.Serves ⟨resolver, config, p⟩ path start) :
    Handed c.settings p start.invocation := by
  obtain ⟨project, library, hconfig⟩ := hcracked.configured
  obtain ⟨w, hcrack⟩ := hcracked.cracked
  obtain ⟨text, -, hset⟩ := ProjectConfig.setBy_of_crack hconfig hcrack
  obtain ⟨program, hinvocation⟩ := h.command
  have hvalue : start.invocation.value? "FABLE_DEFINES" =
      some ((c.settings.env.find? "FABLE_DEFINES").getD (";".intercalate p.defines)) := by
    rw [hinvocation]
    exact value_command
  constructor
  case intact =>
    intro hnone
    rw [hnone] at hvalue
    refine ⟨_, hvalue, splitOn_intercalate_defines ?_ ?_⟩
    · rw [hset.defines]
      exact List.append_ne_nil_of_left_ne_nil (List.cons_ne_nil _ _) _
    · intro define hdefine
      by_cases hdefault : define ∈ defaultDefines
      · exact (by decide : ∀ d ∈ defaultDefines, ';' ∉ d.toList) define hdefault
      · exact (hset.proper define hdefine hdefault).separate
  case replaced =>
    intro value hsome
    rw [hvalue, hsome]
    rfl

/-- Every project that is cracked is set by its own project file, and every command that is started
in a run is handed the symbols of the project that it is started for. -/
theorem Compiler.handed_of_run [DecidableEq δ] (c : Compiler δ ω) (resolver : PathResolver) (w : ω)
    (turns : List (Turn ω)) :
    (∀ project library config disk p, ProjectConfig.ofInit project library = .ok config →
      config.crack disk = .ok p → p.Settled config disk) ∧
    ∀ start ∈ c.starts resolver (none, w) turns, ∃ config p path, c.Cracked config p ∧
      path ∈ p.sourceFiles ∧ c.Serves ⟨resolver, config, p⟩ path start ∧
      Handed c.settings p start.invocation := by
  constructor
  · intro project library config disk p hconfig hcrack
    exact ProjectConfig.settled_of_crack hconfig hcrack
  · intro start hstart
    have hnone : ∀ s ∈ (none : Option (Session (Table δ))), c.Holds s := fun s hs => nomatch hs
    obtain ⟨config, p, path, hcracked, hpath, hserves⟩ := sound_of_starts hnone start hstart
    exact ⟨config, p, path, hcracked, hpath, hserves, handed_of_serves hcracked hserves⟩

/-- A project that defines one symbol twice, and refers to another that defines more. -/
def lodge : Disk :=
  .ofFiles [("/p/App", "<Project><DefineConstants>$(X); A &#59;B;;A</DefineConstants>" ++
      "<ProjectReference Include=\"Lib\"/><Compile Include=\"A.fs\"/></Project>"),
    ("/p/Lib", "<DefineConstants>LIB</DefineConstants>"), ("/p/A.fs", "1")]

/-- A command in the lodge that gives its input back, with more in its environment. -/
def porter (env : Table String) : Compiler Digest.Words Unit where
  settings := { command := some "porter", args := [], env }
  host := {
    disk := fun _ => lodge
    run := fun inv w => (.ok ⟨.code 0, inv.input.toUTF8.toList, []⟩, w) }
  digest := Digest.ofText

def lodgeInit : Turn Unit :=
  .handle ⟨1, .init ⟨"/p/App", "/lib"⟩⟩

def lodgeDefines : List String :=
  defaultDefines ++ ["A", "B"]

def lodgeConfig : ProjectConfig :=
  ⟨"/p/App", "/p", none, "/lib", "Release", true, true, false, .default⟩

def lodgeProject : ResolvedProject :=
  ⟨"/p/App", ["/p/A.fs"], lodgeDefines, none, [], ["/p/Lib"]⟩

theorem ofInit_lodge : ProjectConfig.ofInit "/p/App" "/lib" = .ok lodgeConfig := by
  decide +kernel

theorem crack_lodge : lodgeConfig.crack lodge = .ok lodgeProject := by
  decide +kernel

/-- What is started for the one source of the project in the lodge. -/
def lodgeStart (env : List (String × String)) : Started Unit where
  world := ()
  invocation := {
    program := "porter"
    args := ["/p/A.fs"]
    dir := "/p"
    env := [("FABLE_LIBRARY", "/lib"), ("FABLE_DEFINES", ";".intercalate lodgeDefines),
      ("FABLE_LANGUAGE", "javascript"), ("FABLE_EXTENSION", ".fs.js")] ++ env
    input := "1" }

theorem Compiler.handed_of_run_lodge :
    ProjectConfig.ofInit "/p/App" "/lib" = .ok lodgeConfig ∧
    lodgeConfig.crack lodge = .ok lodgeProject ∧ lodgeProject.Settled lodgeConfig lodge ∧
    (porter .empty).starts .plain (none, ()) [lodgeInit] = [lodgeStart []] ∧
    ∃ config p path, (porter .empty).Cracked config p ∧ path ∈ p.sourceFiles ∧
      (porter .empty).Serves ⟨.plain, config, p⟩ path (lodgeStart []) ∧
      Handed (porter .empty).settings p (lodgeStart []).invocation := by
  have hstarts : (porter .empty).starts .plain (none, ()) [lodgeInit] = [lodgeStart []] := by
    decide +kernel
  obtain ⟨hsettled, hhanded⟩ := handed_of_run (porter .empty) .plain () [lodgeInit]
  refine ⟨ofInit_lodge, crack_lodge, hsettled _ _ _ _ _ ofInit_lodge crack_lodge, hstarts,
    hhanded _ ?_⟩
  rw [hstarts]
  exact List.mem_singleton_self _

/-- With other symbols in the settings a command is not handed those of the project. -/
theorem Compiler.replaced_lodge :
    let own : Table String := Table.empty.insert "FABLE_DEFINES" "LOCAL"
    let start := lodgeStart [("FABLE_DEFINES", "LOCAL")]
    ProjectConfig.ofInit "/p/App" "/lib" = .ok lodgeConfig ∧
    lodgeConfig.crack lodge = .ok lodgeProject ∧
    (porter own).starts .plain (none, ()) [lodgeInit] = [start] ∧
    (porter own).Serves ⟨.plain, lodgeConfig, lodgeProject⟩ "/p/A.fs" start ∧
    start.invocation.value? "FABLE_DEFINES" = some "LOCAL" ∧
    ("LOCAL".toList.splitOn ';').map String.ofList ≠ lodgeProject.defines := by
  intro own start
  have hserves : (porter own).Serves ⟨.plain, lodgeConfig, lodgeProject⟩ "/p/A.fs" start :=
    ⟨rfl, "porter", rfl⟩
  exact ⟨ofInit_lodge, crack_lodge, by decide +kernel, hserves, by decide +kernel,
    by decide +kernel⟩

end WarmCompile
