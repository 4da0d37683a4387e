import WarmCompile.Host.Disk

/-!
A tree of directories and files, and the way paths lead through it.
-/

namespace WarmCompile

inductive Node where
  | file (content : ByteArray) (mode : Nat)
  | directory (entries : List (String × Node))
  /-- The end of a connection; nobody answers at a stale one. -/
  | socket (listening : Bool)
  deriving Inhabited

namespace Node

def emptyDirectory : Node := .directory []

def isDirectory : Node → Bool
  | .directory _ => true
  | _ => false

def child? : Node → String → Option Node
  | .directory entries, name => entries.lookup name
  | _, _ => none

def setEntry (name : String) (node : Node) : List (String × Node) → List (String × Node)
  | [] => [(name, node)]
  | e :: r => if e.1 = name then (name, node) :: r else e :: setEntry name node r

/-- The node at a location. -/
def get? (n : Node) : List String → Option Node
  | [] => some n
  | name :: names => (n.child? name).bind fun c => c.get? names

/-- Puts a node at a location; directories on the way appear as needed. -/
def put (n : Node) (node : Node) : List String → Node
  | [] => node
  | name :: names =>
    match n with
    | .directory entries =>
      .directory <|
        setEntry name (((entries.lookup name).getD emptyDirectory).put node names) entries
    | n => n

def remove (n : Node) : List String → Node
  | [] => n
  | [name] =>
    match n with
    | .directory entries => .directory (entries.filter (·.1 != name))
    | n => n
  | name :: names =>
    match n with
    | .directory entries =>
      match entries.lookup name with
      | some c => .directory (setEntry name (c.remove names) entries)
      | none => n
    | n => n

end Node

/-- A tree seen from a working directory. -/
structure Tree where
  root : Node
  cwd : List String
  deriving Inhabited

namespace Tree

def nameLimit : Nat := 255

def pathLimit : Nat := 4096

/-- Steps from a location along segments; the root is its own parent. -/
def walk (root : Node) : List String → List String → Except IoError (List String)
  | here, [] => .ok here
  | here, segment :: rest =>
    match root.get? here with
    | some (.directory entries) =>
      if segment = "." ∨ segment = "" then walk root here rest
      else if segment = ".." then walk root here.dropLast rest
      else if nameLimit < segment.utf8ByteSize then .error .nameTooLong
      else match entries.lookup segment with
        | some _ => walk root (here ++ [segment]) rest
        | none => .error .noEntry
    | some _ => .error .notDirectory
    | none => .error .noEntry

def segmentsOf (path : String) : List String :=
  (path.toList.splitOn '/').map String.ofList

/-- Where a path leads. Behind a trailing slash there must be a directory. -/
def locate (t : Tree) (path : String) : Except IoError (List String) :=
  if path.toList.contains '\x00' then .error .nulInPath
  else if path.isEmpty then .error .noEntry
  else if pathLimit ≤ path.utf8ByteSize then .error .nameTooLong
  else
    let segments := segmentsOf path
    match segments with
    | "" :: rest => walk t.root [] rest
    | segments => walk t.root t.cwd segments

def find? (t : Tree) (path : String) : Except IoError Node := do
  match t.root.get? (← t.locate path) with
  | some n => return n
  | none => .error .noEntry

def exists? (t : Tree) (path : String) : Bool :=
  (t.find? path).toOption.isSome

def isFile (t : Tree) (path : String) : Bool :=
  match t.find? path with
  | .ok (.file ..) => true
  | _ => false

def readBytes (t : Tree) (path : String) : Except IoError ByteArray :=
  match t.find? path with
  | .ok (.file content _) => .ok content
  | .ok (.directory _) => .error .isDirectory
  | .ok (.socket _) => .error (.other "No such device or address (os error 6)")
  | .error e => .error e

def readText (t : Tree) (path : String) : Except IoError String :=
  match t.readBytes path with
  | .error e => .error e
  | .ok content => (String.fromUTF8? content).elim (.error .notUtf8) .ok

/-- The location a path would have once everything on its way exists. -/
def target (t : Tree) (path : String) : List String :=
  let start := if path.toList.head? = some '/' then [] else t.cwd
  (segmentsOf path).foldl (fun here s =>
    if s = "." ∨ s = "" then here else if s = ".." then here.dropLast else here ++ [s]) start

def put (t : Tree) (path : String) (n : Node) : Tree :=
  { t with root := t.root.put n (t.target path) }

/-- Replaces the content of a file and keeps its mode. -/
def writeFile (t : Tree) (path : String) (content : ByteArray) : Tree :=
  let mode := match t.find? path with
    | .ok (.file _ mode) => mode
    | _ => 0o644
  t.put path (.file content mode)

def makeDirectory (t : Tree) (path : String) : Tree :=
  if t.exists? path then t else t.put path .emptyDirectory

def delete (t : Tree) (path : String) : Tree :=
  match t.locate path with
  | .ok here => { t with root := t.root.remove here }
  | .error _ => t

def changeMode (t : Tree) (path : String) (mode : Nat) : Tree :=
  match t.find? path with
  | .ok (.file content _) => t.put path (.file content mode)
  | _ => t

/-- Paths are short, so there are fewer than this that lead to a file. -/
def reach : Nat := .pow 256 pathLimit

def disk (t : Tree) : Disk where
  isFile := t.isFile
  read := t.readText
  reach := reach

end Tree

end WarmCompile
