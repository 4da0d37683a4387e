import WarmCompile.Compile.Backend
import WarmCompile.Project.Walk
import WarmCompile.Wire.Call

/-!
A session: a project kept compiled, and what the messages to its keeper do to it. A project compile
that fails leaves the session as it was; a file compile changes the session's checker alone.
-/

namespace WarmCompile

/-- What one successful project compile left behind. -/
structure Session (κ : Type) where
  config : ProjectConfig
  project : ResolvedProject
  checker : κ
  /-- The output of the project compile; file compiles do not change it. -/
  output : Output
  sources : List String

inductive Message where
  | init (params : InitParams)
  | compile (path : String)
  /-- Asks the keeper to stop. -/
  | disconnect
  deriving DecidableEq, Repr, Inhabited

/-- The answer to a message that has one. -/
inductive Answer where
  | init (result : Except String (ResolvedProject × Output))
  | compile (result : Except String Output)

/-- What a session's keeper works with. -/
structure Service (κ ω : Type) where
  backend : Backend κ ω
  resolver : PathResolver

namespace Session

variable {κ ω : Type}

def job (service : Service κ ω) (s : Session κ) : Job :=
  ⟨service.resolver, s.config, s.project⟩

/-- Builds a session from nothing: configuration, project, checker and all of its files. -/
def build (service : Service κ ω) (params : InitParams) (w : ω) :
    Except Failure (Session κ) × ω :=
  match ProjectConfig.ofInit params.project params.library with
  | .error e => (.error (.error e), w)
  | .ok config =>
    match service.backend.crack config w with
    | (.error f, w) => (.error f, w)
    | (.ok project, w) =>
      match service.backend.createChecker project w with
      | (.error f, w) => (.error f, w)
      | (.ok checker, w) =>
        let files := project.sourceFiles
        match service.backend.compileProject ⟨service.resolver, config, project⟩
          ⟨.ofFiles files, checker, w⟩ with
        | (.error f, b) => (.error f, b.world)
        | (.ok output, b) => (.ok ⟨config, project, b.checker, output, files⟩, b.world)

/-- Compiles one file, every source read afresh. -/
def compile (service : Service κ ω) (s : Session κ) (path : String) (w : ω) :
    Except Failure Output × Session κ × ω :=
  match service.backend.compileFile (s.job service) path ⟨.ofFiles s.sources, s.checker, w⟩ with
  | (result, b) => (result, { s with checker := b.checker }, b.world)

end Session

/-- The answer to a file compile ahead of every project compile. -/
def noSession : String := "No active session"

namespace Service

variable {κ ω : Type}

/-- Handles one message. -/
def handle (service : Service κ ω) (session : Option (Session κ)) (w : ω) :
    Message → Option Answer × Option (Session κ) × ω
  | .init params =>
    match Session.build service params w with
    | (.ok s, w) => (some (.init (.ok (s.project, s.output))), some s, w)
    | (.error f, w) => (some (.init (.error f.message)), session, w)
  | .compile path =>
    match session with
    | none => (some (.compile (.error noSession)), none, w)
    | some s =>
      match s.compile service (Path.normalize path) w with
      | (result, s, w) => (some (.compile (result.mapError Failure.message)), some s, w)
  | .disconnect => (none, session, w)

end Service

end WarmCompile
