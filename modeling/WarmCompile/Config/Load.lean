import WarmCompile.Config.Settings
import WarmCompile.Config.Dirs
import WarmCompile.Json.Shape.Tree
import WarmCompile.Toml.Read
import WarmCompile.Host.Disk

/-!
Reading the configuration file.
-/

namespace WarmCompile

inductive ConfigError where
  | read (path : String) (error : IoError)
  | parse (path : String)
  deriving DecidableEq, Repr

/-- A faulty file is named without the details of the fault. -/
def ConfigError.message : ConfigError → String
  | .read path e => "Failed to read config " ++ path ++ ": " ++ e.message
  | .parse path => "Failed to parse config " ++ path

namespace Config

/-- A section given as a list counts up to its last field. -/
def cutSection : String × Json → String × Json
  | (k, .list js) =>
    (k, .list (if k = "daemon" ∨ k = "compiler" then js.take 3 else js))
  | e => e

def ofToml? (text : String) : Option Config :=
  match Toml.parse text with
  | some (.object ms) => (shape.ofJson (.object (ms.map cutSection))).toOption
  | _ => none

def loadFrom (read : String → Except IoError String) (path : String) :
    Except ConfigError Config :=
  match read path with
  | .error e => .error (.read path e)
  | .ok text => (ofToml? text).elim (.error (.parse path)) .ok

/-- The user's configuration; a missing or faulty file counts as an empty one. -/
def load (read : String → Except IoError String) (env : Env) : Config :=
  (loadFrom read env.configFile).toOption.getD {}

end Config

end WarmCompile
