import WarmCompile.Host.Shell.Run

/-!
A system that is a tree of files with the usual programs.
-/

namespace WarmCompile

namespace Tree

/-- A view from another directory. -/
def enter (t : Tree) (dir : String) : Except IoError Tree := do
  let here ← t.locate dir
  match t.root.get? here with
  | some (.directory _) => return { t with cwd := here }
  | some _ => .error .notDirectory
  | none => .error .noEntry

/-- The programs that every system has. -/
def isStandard (name : String) : Bool :=
  Shell.isShell name || name ∈ ["env", "xargs"] || (Shell.program? name).isSome

/-- A file that is run by the program that its first line names. -/
def startFile (path : String) (content : ByteArray) (args : List Shell.Bytes) :
    Except IoError (Shell.State → Shell.State) :=
  let content := Shell.contentOf content
  match Shell.interpreter? content with
  | none => .error (.other "Exec format error (os error 8)")
  | some interpreter =>
    if isStandard (Shell.standardName (Shell.textOf interpreter)) then
      .ok (Shell.runFile 10000 content (Shell.toBytes path) args)
    else .error .noEntry

/-- What a program does to the state it is started in. -/
def program? (t : Tree) (inv : Invocation) : Except IoError (Shell.State → Shell.State) :=
  let args := inv.args.map Shell.toBytes
  let name := Shell.standardName inv.program
  if Shell.isShell name then .ok (Shell.shell 10000 args)
  else if isStandard name then
    .ok (Shell.start 10000 (Shell.toBytes inv.program) args)
  else if !inv.program.toList.contains '/' then .error .noEntry
  else match t.find? inv.program with
    | .error e => .error e
    | .ok (.file content mode) =>
      if Shell.isExecutable mode then startFile inv.program content args
      else .error .noPermission
    | .ok _ => .error .noPermission

/-- Runs a program to its end. -/
def run (inv : Invocation) (t : Tree) : Except IoError Completion × Tree :=
  let texts := inv.program :: inv.dir :: inv.args ++ inv.env.flatMap fun e => [e.1, e.2]
  if texts.any fun s => s.toList.contains '\x00' then (.error .nulInArgument, t)
  else
    match t.enter inv.dir with
    | .error e => (.error e, t)
    | .ok inside =>
      match inside.program? inv with
      | .error e => (.error e, t)
      | .ok program =>
        let vars := inv.env.reverse.map fun e => (Shell.toBytes e.1, Shell.toBytes e.2)
        let s := program (.start inside (Shell.toBytes inv.program) vars (Shell.toBytes inv.input))
        let status := match s.stop with
          | some (.ended status) => status
          | _ => .code s.status
        (.ok ⟨status, Shell.ofBytes (Shell.written s), Shell.ofBytes s.complaint.reverse.flatten⟩,
          { t with root := s.tree.root })

def host : Host Tree where
  disk := disk
  run := run

end Tree

end WarmCompile
