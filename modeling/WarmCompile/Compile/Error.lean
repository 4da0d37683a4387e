import WarmCompile.Host.Error
import WarmCompile.Project.Document

/-!
Why a compile fails.
-/

namespace WarmCompile

/-- Why a project file is not accepted. -/
inductive ProjectFault where
  | emptyPath
  | document (fault : DocumentFault)
  | reported (text : String)
  deriving DecidableEq, Repr, Inhabited

def ProjectFault.message : ProjectFault → String
  | .emptyPath => "project path is empty"
  | .document f => f.message
  | .reported text => text

/-- How a process ended. -/
inductive ExitStatus where
  | code (n : Nat)
  | signal (n : Nat)
  deriving DecidableEq, Repr, Inhabited

def ExitStatus.isSuccess : ExitStatus → Bool
  | .code n => n == 0
  | .signal _ => false

def signalName : Nat → String
  | 1 => "SIGHUP" | 2 => "SIGINT" | 3 => "SIGQUIT" | 4 => "SIGILL" | 5 => "SIGTRAP"
  | 6 => "SIGABRT" | 7 => "SIGBUS" | 8 => "SIGFPE" | 9 => "SIGKILL" | 10 => "SIGUSR1"
  | 11 => "SIGSEGV" | 12 => "SIGUSR2" | 13 => "SIGPIPE" | 14 => "SIGALRM" | 15 => "SIGTERM"
  | 16 => "SIGSTKFLT" | 17 => "SIGCHLD" | 18 => "SIGCONT" | 19 => "SIGSTOP" | 20 => "SIGTSTP"
  | 21 => "SIGTTIN" | 22 => "SIGTTOU" | 23 => "SIGURG" | 24 => "SIGXCPU" | 25 => "SIGXFSZ"
  | 26 => "SIGVTALRM" | 27 => "SIGPROF" | 28 => "SIGWINCH" | 29 => "SIGIO" | 30 => "SIGPWR"
  | 31 => "SIGSYS"
  | _ => ""

def ExitStatus.message : ExitStatus → String
  | .code n => "exit status: " ++ toString n
  | .signal n =>
    "signal: " ++ toString n ++
      (if (signalName n).isEmpty then "" else " (" ++ signalName n ++ ")")

/-- Why a file is not emitted. -/
inductive EmitFault where
  | notStarted (command : String) (error : IoError)
  | ended (command : String) (status : ExitStatus) (complaint : String)
  | reported (text : String)
  deriving DecidableEq, Repr, Inhabited

def EmitFault.message : EmitFault → String
  | .notStarted command e => "failed to start `" ++ command ++ "`: " ++ e.message
  | .ended command status complaint =>
    "`" ++ command ++ "` exited with " ++ status.message ++ ": " ++ complaint
  | .reported text => text

inductive CompileError where
  | projectNotFound (path : String)
  | invalidProject (path : String) (fault : ProjectFault)
  | io (path : String) (error : IoError)
  | notInProject (path : String)
  | noCompilerCommand
  | emit (path : String) (fault : EmitFault)
  | internal (text : String)
  deriving DecidableEq, Repr, Inhabited

def CompileError.message : CompileError → String
  | .projectNotFound path => "Project file not found: " ++ path
  | .invalidProject path f => "Invalid project file " ++ path ++ ": " ++ f.message
  | .io path e => "Failed to read " ++ path ++ ": " ++ e.message
  | .notInProject path => "File is not part of the project: " ++ path
  | .noCompilerCommand => "No compiler command configured (set [compiler].command)"
  | .emit path f => "Failed to compile " ++ path ++ ": " ++ f.message
  | .internal text => "Internal error: " ++ text

end WarmCompile
