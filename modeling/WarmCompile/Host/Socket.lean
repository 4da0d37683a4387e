import WarmCompile.Host.Tree

/-!
Sockets in a tree of files: one is bound to a path that is free, and taken away like a file.
-/

namespace WarmCompile.Tree

/-- Addresses of sockets have to be shorter than this. -/
def socketPathLimit : Nat := 108

def checkAddress (path : String) : Except IoError Unit :=
  if path.toList.contains '\x00' then
    .error (.other "paths must not contain interior null bytes")
  else if socketPathLimit ≤ path.utf8ByteSize then .error .socketPathTooLong
  else if path.isEmpty then .error .invalidArgument
  else .ok ()

/-- Whether somebody answers at a path. -/
def dial (t : Tree) (path : String) : Except IoError Unit := do
  checkAddress path
  match ← t.find? path with
  | .socket true => return ()
  | _ => .error .refused

def unlink (t : Tree) (path : String) : Except IoError Tree := do
  match ← t.find? path with
  | .directory _ => .error .isDirectory
  | _ => return t.delete path

/-- The directory that a path lies in; the root and the empty path lie in none. -/
def outer? (path : String) : Option String :=
  let names := (segmentsOf path).filter fun s => s ≠ "" && s ≠ "."
  if names.isEmpty then none
  else
    let inner := "/".intercalate names.dropLast
    some (if path.toList.head? = some '/' then "/" ++ inner else inner)

/-- Makes one directory, where the one around it is there. -/
def makeOne (t : Tree) (path : String) : Except IoError Tree :=
  match t.find? path with
  | .ok _ => .error .alreadyExists
  | .error .noEntry =>
    match t.find? (((outer? path).map fun d => if d.isEmpty then "." else d).getD "/") with
    | .ok (.directory _) => .ok (t.put path .emptyDirectory)
    | .ok _ => .error .notDirectory
    | .error e => .error e
  | .error e => .error e

def holdsDirectory (t : Tree) (path : String) : Bool :=
  match t.find? path with
  | .ok n => n.isDirectory
  | .error _ => false

/-- Makes a directory and those around it, as far as they are missing. -/
def makeAll : Nat → Tree → String → Except IoError Tree
  | 0, t, _ => .ok t
  | n + 1, t, path =>
    if path.isEmpty then .ok t
    else match t.makeOne path with
      | .ok t => .ok t
      | .error .noEntry =>
        match outer? path with
        | none => .error .noEntry
        | some d => do (← makeAll n t d).makeOne path
      | .error e => if t.holdsDirectory path then .ok t else .error e

/-- Listens at a path; whatever is there already has to go, and missing directories are made. -/
def listen (t : Tree) (path : String) : Except IoError Tree := do
  let t ← if t.exists? path then t.unlink path else .ok t
  let t ← match outer? path with
    | some d => makeAll (path.length + 1) t d
    | none => .ok t
  checkAddress path
  match t.find? path with
  | .ok _ => .error (.other "Address already in use (os error 98)")
  | .error .noEntry => return t.put path (.socket true)
  | .error e => .error e

/-- Takes the socket away again. -/
def silence (t : Tree) (path : String) : Except IoError Tree :=
  if t.exists? path then t.unlink path else .ok t

end WarmCompile.Tree
