import WarmCompile.Host.Shell.Script
import WarmCompile.Host.Tree
import WarmCompile.Host.Process

/-!
What a running script sees: files, variables, and where its input and output go.
-/

namespace WarmCompile.Shell

inductive Target where
  | output
  | complaint
  | file (path : String)
  | nowhere
  | closed
  deriving DecidableEq, Repr

/-- What keeps a script from going on as it is written. -/
inductive Stop where
  | ended (status : ExitStatus)
  /-- A function goes back to where it was called. -/
  | back
  /-- So many loops are left. -/
  | leave (loops : Nat)
  /-- The outermost of so many loops goes on with its next turn. -/
  | next (loops : Nat)
  deriving DecidableEq, Repr

structure State where
  tree : Tree
  vars : List (Bytes × Bytes)
  /-- Variables that other programs see. -/
  exported : List Bytes
  functions : List (Bytes × Command)
  name : Bytes
  args : List Bytes
  /-- What is left of the input; nothing once it is closed. -/
  input : Option Bytes
  /-- What has been written, the latest first. -/
  output : List Bytes
  complaint : List Bytes
  outTo : Target
  errTo : Target
  status : Nat
  stop : Option Stop
  /-- Whether a failure ends the script. -/
  strict : Bool
  /-- Whether a variable that is not set ends the script. -/
  namesMatter : Bool
  /-- Whether somebody looks at the status of what is run. -/
  guarded : Bool
  /-- The line of the command that is run. -/
  line : Nat
  /-- The last line of the script that it belongs to. -/
  lastLine : Nat
  /-- What is run when the script is over. -/
  farewell : Bytes

/-- The number of the running process. -/
def processId : Bytes := "4242".toList

def textOf (bs : Bytes) : String :=
  (String.fromUTF8? ⟨(ofBytes bs).toArray⟩).getD (String.ofList bs)

def contentOf (content : ByteArray) : Bytes :=
  content.toList.map fun b => Char.ofNat b.toNat

/-- The words of a system error, without its number. -/
def plainMessage (e : IoError) : String :=
  ((e.message.splitOn " (os error").head?).getD ""

namespace State

/-- A program that is about to start with an environment and its input. -/
def start (tree : Tree) (name : Bytes) (vars : List (Bytes × Bytes)) (input : Bytes) : State where
  tree := tree
  vars := vars
  exported := vars.map (·.1)
  functions := []
  name := name
  args := []
  input := some input
  output := []
  complaint := []
  outTo := .output
  errTo := .complaint
  status := 0
  stop := none
  strict := false
  namesMatter := false
  guarded := false
  line := 1
  lastLine := 1
  farewell := []

def send (s : State) (target : Target) (bs : Bytes) : State :=
  match target with
  | .output => { s with output := bs :: s.output }
  | .complaint => { s with complaint := bs :: s.complaint }
  | .nowhere | .closed => s
  | .file path =>
    let before := match s.tree.readBytes path with
      | .ok content => content.toList
      | .error _ => []
    { s with tree := s.tree.writeFile path ⟨(before ++ ofBytes bs).toArray⟩ }

def print (s : State) (bs : Bytes) : State := s.send s.outTo bs

def printLine (s : State) (bs : Bytes) : State := s.print (bs ++ ['\n'])

def complain (s : State) (bs : Bytes) : State := s.send s.errTo bs

def exit (s : State) (n : Nat) : State := { s with status := n }

/-- A failure that a program tells of by itself. -/
def fail (s : State) (n : Nat) (message : String) : State :=
  (s.complain (toBytes message ++ ['\n'])).exit n

/-- A failure that the script tells of, with its name and the line. -/
def refuse (s : State) (n : Nat) (message : Bytes) : State :=
  (s.complain (s.name ++ ": ".toList ++ toBytes (toString s.line) ++ ": ".toList ++ message ++
    ['\n'])).exit n

/-- A failure that ends the script. -/
def giveUp (s : State) (n : Nat) (message : Bytes) : State :=
  { s.refuse n message with stop := some (.ended (.code n)) }

def get? (s : State) (name : Bytes) : Option Bytes :=
  s.vars.lookup name

def get (s : State) (name : Bytes) : Bytes :=
  (s.get? name).getD []

def unset (s : State) (name : Bytes) : State :=
  { s with vars := s.vars.filter (·.1 != name) }

def set (s : State) (name value : Bytes) : State :=
  { s with vars := (name, value) :: s.vars.filter (·.1 != name) }

/-- Sets a variable to what it was before. -/
def restore (s : State) (name : Bytes) : Option Bytes → State
  | some value => s.set name value
  | none => s.unset name

/-- The variables that another program sees. -/
def environment (s : State) : List (Bytes × Bytes) :=
  s.vars.filter fun e => s.exported.contains e.1

/-- All of the input; none is left behind. -/
def takeInput (s : State) : Bytes × State :=
  (s.input.getD [], { s with input := s.input.map fun _ => [] })

/-- The content of a file, or of something that is named like one. -/
def read (s : State) (path : Bytes) : Except IoError Bytes × State :=
  match textOf path with
  | "-" | "/dev/stdin" | "/dev/fd/0" => let (bs, s) := s.takeInput; (.ok bs, s)
  | "/dev/null" => (.ok [], s)
  | name => ((s.tree.readBytes name).map contentOf, s)

/-- Where output to a path goes. A file is emptied, or made if there is a directory for it. -/
def openTarget (s : State) (path : Bytes) (append : Bool) : Except IoError (Target × State) :=
  match textOf path with
  | "/dev/null" => .ok (.nowhere, s)
  | "/dev/stdout" | "/dev/fd/1" => .ok (s.outTo, s)
  | "/dev/stderr" | "/dev/fd/2" => .ok (s.errTo, s)
  | name =>
    match s.tree.find? name with
    | .ok (.directory _) => .error .isDirectory
    | .ok _ =>
      .ok (.file name, if append then s
        else { s with tree := s.tree.writeFile name ByteArray.empty })
    | .error _ =>
      let dir := Path.parent name
      match s.tree.find? (if dir.isEmpty then "." else dir) with
      | .ok (.directory _) =>
        .ok (.file name, { s with tree := s.tree.writeFile name ByteArray.empty })
      | .ok _ => .error .notDirectory
      | .error e => .error e

end State

end WarmCompile.Shell
