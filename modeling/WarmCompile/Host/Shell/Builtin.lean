import WarmCompile.Host.Shell.Field
import WarmCompile.Host.Shell.Program

/-!
The commands that change the state of a script itself.
-/

namespace WarmCompile.Shell

def separatorsOf (s : State) : Bytes :=
  (s.get? "IFS".toList).getD [' ', '\t', '\n']

def changeDirectory (dir : Bytes) (s : State) : State :=
  match s.tree.find? (textOf dir), s.tree.locate (textOf dir) with
  | .ok (.directory _), .ok here =>
    let s := { s with tree := { s.tree with cwd := here } }
    (s.set "PWD".toList (workingDirectory s)).exit 0
  | _, _ => s.refuse 2 ("cd: can't cd to ".toList ++ dir)

/-- The next line of the input, and whether it is ended; a backslash keeps its line end from ending
it unless the line is read as it is. -/
def splitLine (raw : Bool) : Bytes → List Mark × Bool × Bytes
  | [] => ([], false, [])
  | '\n' :: r => ([], true, r)
  | '\\' :: c :: r =>
    if raw then
      let (l, ended, r) := splitLine raw (c :: r)
      (('\\', false) :: l, ended, r)
    else
      let (l, ended, r) := splitLine raw r
      (if c = '\n' then l else (c, true) :: l, ended, r)
  | c :: r =>
    let (l, ended, r) := splitLine raw r
    ((c, false) :: l, ended, r)

/-- Gives a line out to variables; the last one gets what is left. -/
def handOut (separators : Bytes) : List Bytes → List Mark → List (Bytes × Bytes)
  | [], _ => []
  | names, line =>
    let isGap := fun (m : Mark) => !m.2 && separators.contains m.1
    let isBlank := fun (m : Mark) => isGap m && isSpace m.1
    let line := line.dropWhile isBlank
    match names with
    | [] => []
    | [name] => [(name, plainOf (line.reverse.dropWhile isBlank).reverse)]
    | name :: names =>
      let word := line.takeWhile (!isGap ·)
      let rest := (line.drop word.length).dropWhile isBlank
      let rest := match rest with
        | m :: r => if isGap m then r else m :: r
        | [] => []
      (name, plainOf word) :: handOut separators names rest

def readVariables (args : List Bytes) (s : State) : State :=
  let (opts, names) := options args
  match s.input with
  | none => s.exit 1
  | some bs =>
    let (line, ended, rest) := splitLine (opts.any (·.contains 'r')) bs
    let s := { s with input := some rest }
    ((handOut (separatorsOf s) names line).foldl (fun s (k, v) => s.set k v) s).exit
      (if ended then 0 else 1)

/-- A name with the value behind its equals sign, if there is one. -/
def splitAssignment (a : Bytes) : Bytes × Option Bytes :=
  match a.dropWhile (· != '=') with
  | [] => (a, none)
  | _ :: v => (a.takeWhile (· != '='), some v)

def assignAll (args : List Bytes) (s : State) : State :=
  args.foldl (fun s a => match splitAssignment a with
    | (name, some v) => s.set name v
    | (_, none) => s) (s.exit 0)

def exportAll (args : List Bytes) (s : State) : State :=
  let args := (options args).2
  let names := args.map fun a => (splitAssignment a).1
  let s := assignAll args s
  { s with exported := names ++ s.exported }

/-- Switches by letter, and arguments for the script. -/
def configure : List Bytes → State → State
  | [], s => s.exit 0
  | ['-', '-'] :: args, s => { s with args := args }.exit 0
  | ('-' :: letters) :: r, s =>
    configure r { s with
      strict := s.strict || letters.contains 'e'
      namesMatter := s.namesMatter || letters.contains 'u' }
  | ('+' :: letters) :: r, s =>
    configure r { s with
      strict := s.strict && !letters.contains 'e'
      namesMatter := s.namesMatter && !letters.contains 'u' }
  | args, s => { s with args := args }.exit 0

def exitWith (name : String) (args : List Bytes) (s : State) (stop : Nat → Stop) : State :=
  match args with
  | [] => { s with stop := some (stop s.status) }
  | code :: _ =>
    if !code.isEmpty && code.all Char.isDigit then
      let n := ((textOf code).toNat?.getD 0) % 256
      { s.exit n with stop := some (stop n) }
    else s.giveUp 2 (name.toList ++ ": Illegal number: ".toList ++ code)

def loopsOf (args : List Bytes) : Nat :=
  ((args.head?.bind fun a => (textOf a).toNat?).getD 1)

def shift (args : List Bytes) (s : State) : State :=
  let n := loopsOf args
  if s.args.length < n then s.giveUp 2 "shift: can't shift that many".toList
  else { s with args := s.args.drop n }.exit 0

/-- What a script leaves to be run at its end. -/
def trap (args : List Bytes) (s : State) : State :=
  match args with
  | [action, signal] =>
    if signal ∈ ["EXIT".toList, ['0']] then { s with farewell := action }.exit 0 else s.exit 0
  | _ => s.exit 0

def builtin? (name : String) : Option (List Bytes → State → State) :=
  match name with
  | ":" | "wait" | "umask" | "ulimit" | "hash" | "alias" => some fun _ s => s.exit 0
  | "exit" => some fun args s => exitWith name args s fun n => .ended (.code n)
  | "return" => some fun args s => exitWith name args s fun _ => .back
  | "break" => some fun args s => { s with stop := some (.leave (loopsOf args)) }.exit 0
  | "continue" => some fun args s => { s with stop := some (.next (loopsOf args)) }.exit 0
  | "echo" => some (echo true)
  | "cd" => some fun args s => changeDirectory (args.head?.getD (s.get "HOME".toList)) s
  | "read" => some readVariables
  | "export" => some exportAll
  | "readonly" | "local" => some assignAll
  | "unset" => some fun names s => (options names).2.foldl State.unset (s.exit 0)
  | "set" => some configure
  | "shift" => some shift
  | "trap" => some trap
  | _ => none

/-- Commands whose assignments stay. -/
def keepsAssignments (name : String) : Bool :=
  name ∈ [":", "exit", "return", "break", "continue", "export", "readonly", "unset", "set", "shift",
    "trap", "eval", "exec", "."]

end WarmCompile.Shell
