import WarmCompile.Host.Error

/-!
A still view of the files of a system.
-/

namespace WarmCompile

structure Disk where
  isFile : String → Bool
  /-- The text of a file. -/
  read : String → Except IoError String
  /-- More than the number of paths that name a file. -/
  reach : Nat

/-- The view of finitely many files, each under one path. -/
def Disk.ofFiles (files : List (String × String)) : Disk where
  isFile path := (files.lookup path).isSome
  read path := (files.lookup path).elim (.error .noEntry) .ok
  reach := files.length + 1

end WarmCompile
