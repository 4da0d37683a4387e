import WarmCompile.Compile.External
import WarmCompile.Serve.Front

/-!
Which files a message makes the daemon read, as far as that can be told from the files at hand.
-/

namespace WarmCompile

/-- The project file that is not at hand, or else the sources. -/
def ProjectConfig.needs (config : ProjectConfig) (disk : Disk) : List String :=
  match config.crack disk with
  | .ok project => project.sourceFiles
  | .error (.projectNotFound path) => [path]
  | .error _ => []

variable {κ ω : Type}

def Message.needs (session : Option (Session κ)) (disk : Disk) : Message → List String
  | .init params =>
    match ProjectConfig.ofInit params.project params.library with
    | .ok config => config.needs disk
    | .error _ => []
  | .compile _ => (session.map fun s => s.config.projectFile :: s.sources).getD []
  | .disconnect => []

/-- What a line that comes in makes the daemon read. -/
def Front.needs (f : Front κ ω) (disk : Disk) (line : String) : List String :=
  match Incoming.ofLine line with
  | .request r => (r.call.message?.map (·.needs f.actor.session disk)).getD []
  | _ => []

end WarmCompile
