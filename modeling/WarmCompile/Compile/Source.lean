import WarmCompile.Host.Disk
import WarmCompile.Compile.Error
import WarmCompile.Table

/-!
Reading the sources of a project. A file is read once and then held, so a reader is a snapshot.
-/

namespace WarmCompile

structure SourceReader where
  files : List String
  held : Table String
  deriving Inhabited

namespace SourceReader

def ofFiles (files : List String) : SourceReader := ⟨files, .empty⟩

def contains (r : SourceReader) (path : String) : Bool :=
  r.files.contains path

/-- The content of a covered file; only what could be read is held. -/
def read (r : SourceReader) (disk : Disk) (path : String) :
    Except CompileError String × SourceReader :=
  if !r.contains path then (.error (.notInProject path), r)
  else match r.held.find? path with
    | some content => (.ok content, r)
    | none =>
      match disk.read path with
      | .ok content => (.ok content, { r with held := r.held.insert path content })
      | .error e => (.error (.io path e), r)

end SourceReader

end WarmCompile
