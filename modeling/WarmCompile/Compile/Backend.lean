import WarmCompile.Compile.Source
import WarmCompile.Project.Basic

/-!
What a session needs from a compiler. Its only memory is the checker of a session and the system it
runs on.
-/

namespace WarmCompile

/-- The emitted text of each file. -/
abbrev Output := Table String

/-- Where emitted code and its imports point. -/
structure PathResolver where
  /-- A file to take instead of compiling a source. -/
  precompiled : String → Option String
  importDir : String → String

def PathResolver.plain : PathResolver := ⟨fun _ => none, id⟩

/-- A compile that does not succeed: it says why, or breaks off with or without a text. -/
inductive Failure where
  | error (e : CompileError)
  | panic (text : Option String)
  deriving DecidableEq, Repr, Inhabited

def Failure.message : Failure → String
  | .error e => e.message
  | .panic text => "Compiler panicked: " ++ text.getD "unknown panic"

/-- What stays the same during a session. -/
structure Job where
  resolver : PathResolver
  config : ProjectConfig
  project : ResolvedProject

/-- What a compile works on. -/
structure Workbench (κ ω : Type) where
  sources : SourceReader
  checker : κ
  world : ω

structure Backend (κ ω : Type) where
  crack : ProjectConfig → ω → Except Failure ResolvedProject × ω
  createChecker : ResolvedProject → ω → Except Failure κ × ω
  compileProject : Job → Workbench κ ω → Except Failure Output × Workbench κ ω
  compileFile : Job → String → Workbench κ ω → Except Failure Output × Workbench κ ω

end WarmCompile
