import WarmCompile.Path
import WarmCompile.Text.Blank

/-!
How one project is compiled, and what its project file resolves to.
-/

namespace WarmCompile

/-- The language that is emitted. -/
inductive Language where
  | javaScript
  | typeScript
  | python
  | rust
  deriving DecidableEq, Repr, Inhabited

def Language.name : Language → String
  | .javaScript => "javascript"
  | .typeScript => "typescript"
  | .python => "python"
  | .rust => "rust"

inductive Verbosity where
  | silent
  | normal
  | verbose
  deriving DecidableEq, Repr, Inhabited

def Verbosity.name : Verbosity → String
  | .silent => "silent"
  | .normal => "normal"
  | .verbose => "verbose"

/-- The symbols every project is compiled with, ahead of its own. -/
def defaultDefines : List String :=
  ["FABLE_COMPILER", "FABLE_COMPILER_4", "FABLE_COMPILER_JAVASCRIPT"]

structure CompilerOptions where
  language : Language
  defines : List String
  verbosity : Verbosity
  debugMode : Bool
  typedArrays : Bool
  optimizeAst : Bool
  fileExtension : String
  deriving DecidableEq, Repr

def CompilerOptions.default : CompilerOptions :=
  ⟨.javaScript, defaultDefines, .normal, false, true, false, ".fs.js"⟩

/-- How to compile one project. -/
structure ProjectConfig where
  projectFile : String
  rootDir : String
  outDir : Option String
  library : String
  configuration : String
  noRestore : Bool
  noCache : Bool
  noParallelTypeCheck : Bool
  compiler : CompilerOptions
  deriving DecidableEq, Repr

/-- The configuration for a project path and a library path; there is none for a blank project
path. -/
def ProjectConfig.ofInit? (project library : String) : Option ProjectConfig :=
  let file := Path.forward (Text.trimmed project)
  if file.isEmpty then none
  else some {
    projectFile := file
    rootDir := Path.startDir file
    outDir := none
    library := Path.forward (Text.trimmed library)
    configuration := "Release"
    noRestore := true
    noCache := true
    noParallelTypeCheck := false
    compiler := .default }

/-- What a project file and the projects it refers to come down to. -/
structure ResolvedProject where
  projectFile : String
  /-- In compilation order. -/
  sourceFiles : List String
  defines : List String
  targetFramework : Option String
  otherOptions : List String
  /-- In the order they were reached. -/
  references : List String
  deriving DecidableEq, Repr, Inhabited

def ResolvedProject.contains (p : ResolvedProject) (path : String) : Bool :=
  p.sourceFiles.contains path

end WarmCompile
