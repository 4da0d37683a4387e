import WarmCompile.Path

/-!
Where the daemon keeps its socket, its data and its configuration. A variable that is set counts,
even when it is empty.
-/

namespace WarmCompile

/-- Environment variables. -/
abbrev Env := List (String × String)

namespace Env

def home (env : Env) : String :=
  (env.lookup "HOME").getD ""

def socketPath (env : Env) (user : String) : String :=
  match env.lookup "XDG_RUNTIME_DIR" with
  | some dir => Path.join dir "fabled.sock"
  | none => "/tmp/fabled-" ++ user ++ ".sock"

def dataDir (env : Env) : String :=
  match env.lookup "DATA_DIR", env.lookup "XDG_DATA_HOME" with
  | some dir, _ => dir
  | none, some dir => Path.join dir "fabled"
  | none, none => Path.join (Path.join env.home ".local/share") "fabled"

def configDir (env : Env) : String :=
  match env.lookup "CONFIG_DIR", env.lookup "XDG_CONFIG_HOME" with
  | some dir, _ => dir
  | none, some dir => Path.join dir "fabled"
  | none, none => Path.join (Path.join env.home ".config") "fabled"

def configFile (env : Env) : String :=
  Path.join env.configDir "config.toml"

end Env

end WarmCompile
