import WarmCompile.Host.Disk
import WarmCompile.Compile.Error
import WarmCompile.Project.Basic

/-!
From a project file to everything it refers to: a walk in depth-first order that reads each project
once and lists the sources of a project behind those of the projects it refers to.
-/

namespace WarmCompile

structure Walk where
  visited : List String
  sources : List String
  references : List String
  deriving DecidableEq, Repr

namespace Walk

def empty : Walk := ⟨[], [], []⟩

/-- The content of a project file. -/
def open? (disk : Disk) (path : String) : Except CompileError Document :=
  if !disk.isFile path then .error (.projectNotFound path)
  else match disk.read path with
    | .error e => .error (.io path e)
    | .ok text =>
      match Document.parse text (Path.parent path) with
      | .error f => .error (.invalidProject path (.document f))
      | .ok d => .ok d

/-- Follows each reference that has not been visited when its turn comes. -/
def follow (visit : String → Walk → Except CompileError (Document × Walk)) :
    List String → Walk → Except CompileError Walk
  | [], w => .ok w
  | r :: rs, w =>
    if r ∈ w.visited then follow visit rs w
    else do
      let (_, w) ← visit r { w with references := w.references ++ [r] }
      follow visit rs w

/-- Visits a project; the fuel bounds how many projects may refer to each other in a row. -/
def visit (disk : Disk) : Nat → String → Walk → Except CompileError (Document × Walk)
  | 0, path, _ => .error (.internal ("project references of " ++ path ++ " do not end"))
  | n + 1, path, w => do
    let path := Path.forward path
    let d ← open? disk path
    let w ← follow (visit disk n) d.references { w with visited := path :: w.visited }
    return (d, { w with sources := Document.addNew w.sources d.compileItems })

end Walk

/-- The configuration for an init request; a blank project path is refused. -/
def ProjectConfig.ofInit (project library : String) : Except CompileError ProjectConfig :=
  (ofInit? project library).elim (.error (.invalidProject project .emptyPath)) .ok

/-- What a project comes down to on a disk. Only the root's own properties count. -/
def ProjectConfig.crack (config : ProjectConfig) (disk : Disk) :
    Except CompileError ResolvedProject := do
  let (root, w) ← Walk.visit disk disk.reach config.projectFile .empty
  return {
    projectFile := Path.forward config.projectFile
    sourceFiles := w.sources
    defines := Document.addNew config.compiler.defines root.defines
    targetFramework := root.targetFramework
    otherOptions := root.otherFlags
    references := w.references }

end WarmCompile
