import WarmCompile.Config.Settings
import WarmCompile.Config.Dirs

/-!
What the daemon writes to its log file, and where that is.
-/

namespace WarmCompile

inductive LogLevel where
  | error
  | warn
  | info
  | debug
  | trace
  deriving DecidableEq, Repr

namespace LogLevel

def rank : LogLevel → Nat
  | .error => 1
  | .warn => 2
  | .info => 3
  | .debug => 4
  | .trace => 5

/-- The lowest level that is written, whatever the case of its letters; `off` writes nothing, and an
unknown name is taken for `info`. All names are ASCII. -/
def threshold? (name : String) : Option LogLevel :=
  match name.toLower with
  | "off" => none
  | "error" => some .error
  | "warn" => some .warn
  | "debug" => some .debug
  | "trace" => some .trace
  | _ => some .info

/-- Whether a record gets past a threshold. -/
def passes (level : LogLevel) (threshold : Option LogLevel) : Bool :=
  match threshold with
  | none => false
  | some t => level.rank ≤ t.rank

end LogLevel

/-- How often a new log file is begun. -/
inductive Rotation where
  | hourly
  | daily
  | never
  deriving DecidableEq, Repr

namespace Rotation

def ofName : String → Rotation
  | "hourly" => .hourly
  | "never" => .never
  | _ => .daily

/-- The name of the file that is written to on a day, in an hour. -/
def fileName (r : Rotation) (day hour : String) : String :=
  match r with
  | .hourly => "fabled.log." ++ day ++ "-" ++ hour
  | .daily => "fabled.log." ++ day
  | .never => "fabled.log"

end Rotation

namespace DaemonSettings

def logThreshold (s : DaemonSettings) : Option LogLevel :=
  LogLevel.threshold? s.logLevel

def rotation (s : DaemonSettings) : Rotation :=
  .ofName s.logRotation

/-- Where the log goes on a day, in an hour. -/
def logFile (s : DaemonSettings) (env : Env) (day hour : String) : String :=
  Path.join env.dataDir (s.rotation.fileName day hour)

end DaemonSettings

end WarmCompile
