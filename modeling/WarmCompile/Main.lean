import WarmCompile.Cli.Report
import WarmCompile.Config.Load
import WarmCompile.Daemon.Needs
import WarmCompile.Daemon.Service
import WarmCompile.Host.Machine

/-!
The command line. The daemon serves its own input and output; files are brought in as requests call
for them.
-/

namespace WarmCompile.Program

abbrev DaemonFront := Front (Table Digest.Words) Tree

def environment : IO Env := do
  let names := ["CONFIG_DIR", "DATA_DIR", "XDG_CONFIG_HOME", "XDG_DATA_HOME", "XDG_RUNTIME_DIR",
    "HOME"]
  return (← names.mapM fun name => do
    return (← IO.getEnv name).map fun value => (name, value)).filterMap id

/-- Brings files up to date with the disk. -/
def bring (t : Tree) (paths : List String) : IO Tree :=
  paths.foldlM (fun t (path : String) => do
    try
      return t.writeFile path (← IO.FS.readBinFile path)
    catch _ => return t.delete path) t

/-- Brings in what a line calls for; each project file may tell of more. -/
partial def prepare (f : DaemonFront) (line : String) (known : List String) : IO DaemonFront := do
  let fresh := (f.needs f.actor.world.disk line).filter (!known.contains ·)
  if fresh.isEmpty then return f
  let world ← bring f.actor.world fresh
  prepare { f with actor.world := world } line (known ++ fresh)

/-- The project file of a request is read anew each time. -/
def refresh (f : DaemonFront) : DaemonFront :=
  { f with actor.world := { f.actor.world with root := .emptyDirectory } }

partial def serve (service : Service (Table Digest.Words) Tree) (f : DaemonFront) (shown : Nat) :
    IO Unit := do
  let line ← (← IO.getStdin).getLine
  let f ← if line.isEmpty then pure (f.closeInput "") else do
    let f ← prepare (refresh f) line []
    pure (f.receive service "" line.toUTF8.toList)
  let written := f.written ""
  let out ← IO.getStdout
  (written.drop shown).forM fun l => out.putStrLn l
  out.flush
  unless line.isEmpty do serve service f written.length

def daemon : IO UInt32 := do
  let env ← environment
  let root : Tree := ⟨.emptyDirectory, []⟩
  let config := Config.load (← bring root [env.configFile]).readText env
  let here := (Tree.segmentsOf (← IO.currentDir).toString).filter (· ≠ "")
  serve (config.service Tree.host) ((config.front ⟨.emptyDirectory, here⟩).connect "") 0
  return 0

def conclude (r : Cli.Report) : IO UInt32 := do
  IO.print r.output
  IO.eprint r.complaint
  return r.code.toUInt32

def usage : String :=
  "Usage: fabled <COMMAND>\n\nCommands: daemon, ping, init, compile, help\n"

/-- No socket is within reach of this program, so no daemon can be called. -/
def run (words : List String) : IO UInt32 := do
  match Cli.Command.ofWords words with
  | .error .help => IO.print usage; return 0
  | .error .misuse => IO.eprint usage; return 2
  | .ok (.daemon none _ _) => daemon
  | .ok c =>
    match c.call? (← IO.currentDir).toString with
    | .error t => conclude (.ofTrouble t)
    | .ok _ => conclude (.ofTrouble ⟨"Failed to connect to daemon",
        some (CallError.io "Function not implemented (os error 38)").message⟩)

end WarmCompile.Program

def main (words : List String) : IO UInt32 :=
  WarmCompile.Program.run words
