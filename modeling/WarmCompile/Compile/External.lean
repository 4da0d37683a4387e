import WarmCompile.Compile.Backend
import WarmCompile.Config.Settings
import WarmCompile.Host.Process
import WarmCompile.Project.Walk
import WarmCompile.Text.Utf8

/-!
Compiling with a command that is run once per file: the content goes in, the emitted code comes out.
A fingerprint is kept of each file last delivered, and a file whose content has another one is
compiled along with the file that is asked for.
-/

namespace WarmCompile

/-- The compiler command on a system, with the fingerprint that tells contents apart. -/
structure Compiler (δ ω : Type) where
  settings : CompilerSettings
  host : Host ω
  digest : String → δ

/-- A compiled file: its path, the content it was compiled from, and its code. -/
structure Delivered where
  path : String
  content : String
  code : String
  deriving DecidableEq, Repr

namespace Compiler

variable {δ ω : Type} [DecidableEq δ]

def command (c : Compiler δ ω) (program path content : String) (job : Job) : Invocation where
  program := program
  args := c.settings.args ++ [path]
  dir := job.config.rootDir
  env := [
    ("FABLE_LIBRARY", job.resolver.importDir job.config.library),
    ("FABLE_DEFINES", ";".intercalate job.project.defines),
    ("FABLE_LANGUAGE", job.config.compiler.language.name),
    ("FABLE_EXTENSION", job.config.compiler.fileExtension)] ++ c.settings.env.entries
  input := content

/-- The code that a finished command leaves behind. -/
def codeOf (program path : String) (done : Completion) : Except CompileError String :=
  if done.status.isSuccess then .ok (Text.lossy done.output)
  else .error (.emit path (.ended program done.status (Text.trimmed (Text.lossy done.complaint))))

/-- The code of one file. -/
def emit (c : Compiler δ ω) (job : Job) (path content : String) (w : ω) :
    Except CompileError String × ω :=
  match job.resolver.precompiled path with
  | some ready =>
    match (c.host.disk w).read ready with
    | .ok code => (.ok code, w)
    | .error e => (.error (.io ready e), w)
  | none =>
    match c.settings.command with
    | none => (.error .noCompilerCommand, w)
    | some program =>
      match c.host.run (c.command program path content job) w with
      | (.error e, w) => (.error (.emit path (.notStarted program e)), w)
      | (.ok done, w) => (codeOf program path done, w)

/-- Reads every file in turn and compiles those that are due; the first fault ends it. -/
def deliver (c : Compiler δ ω) (job : Job) (due : String → String → Bool) :
    List String → SourceReader → ω → Except CompileError (List Delivered) × SourceReader × ω
  | [], r, w => (.ok [], r, w)
  | path :: paths, r, w =>
    match r.read (c.host.disk w) path with
    | (.error e, r) => (.error e, r, w)
    | (.ok content, r) =>
      if due path content then
        match c.emit job path content w with
        | (.error e, w) => (.error e, r, w)
        | (.ok code, w) =>
          match c.deliver job due paths r w with
          | (.error e, r, w) => (.error e, r, w)
          | (.ok rest, r, w) => (.ok (⟨path, content, code⟩ :: rest), r, w)
      else c.deliver job due paths r w

/-- Fingerprints after a delivery. -/
def record (c : Compiler δ ω) (known : Table δ) (done : List Delivered) : Table δ :=
  done.foldl (fun t d => t.insert d.path (c.digest d.content)) known

/-- Whether a content is not the one last delivered. -/
def isStale (c : Compiler δ ω) (known : Table δ) (path content : String) : Bool :=
  known.find? path != some (c.digest content)

def outputOf (done : List Delivered) : Output :=
  Table.ofList (done.map fun d => (d.path, d.code))

/-- Delivers the files of a project that are due; what a failed delivery compiled stays due. -/
def compile (c : Compiler δ ω) (job : Job) (due : String → String → Bool)
    (b : Workbench (Table δ) ω) : Except CompileError Output × Workbench (Table δ) ω :=
  match c.deliver job due job.project.sourceFiles b.sources b.world with
  | (.error e, r, w) => (.error e, ⟨r, b.checker, w⟩)
  | (.ok done, r, w) => (.ok (outputOf done), ⟨r, c.record b.checker done, w⟩)

def compileProject (c : Compiler δ ω) (job : Job) (b : Workbench (Table δ) ω) :
    Except CompileError Output × Workbench (Table δ) ω :=
  c.compile job (fun _ _ => true) b

def compileFile (c : Compiler δ ω) (job : Job) (path : String) (b : Workbench (Table δ) ω) :
    Except CompileError Output × Workbench (Table δ) ω :=
  if job.project.contains path then
    c.compile job (fun file content => file == path || c.isStale b.checker file content) b
  else (.error (.notInProject path), b)

def failing {α β : Type} : Except CompileError α × β → Except Failure α × β
  | (.ok a, b) => (.ok a, b)
  | (.error e, b) => (.error (.error e), b)

def backend (c : Compiler δ ω) : Backend (Table δ) ω where
  crack config w := failing (config.crack (c.host.disk w), w)
  createChecker _ w := (.ok .empty, w)
  compileProject job b := failing (c.compileProject job b)
  compileFile job path b := failing (c.compileFile job path b)

end Compiler

end WarmCompile
