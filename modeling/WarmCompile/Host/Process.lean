import WarmCompile.Compile.Error
import WarmCompile.Host.Disk

/-!
Starting a program and what comes of it.
-/

namespace WarmCompile

structure Invocation where
  program : String
  args : List String
  dir : String
  env : List (String × String)
  input : String
  deriving DecidableEq, Repr

structure Completion where
  status : ExitStatus
  output : List UInt8
  complaint : List UInt8
  deriving DecidableEq, Repr

/-- A system whose state is `ω`: it shows its files and runs programs, which may change it. -/
structure Host (ω : Type) where
  disk : ω → Disk
  run : Invocation → ω → Except IoError Completion × ω

end WarmCompile
