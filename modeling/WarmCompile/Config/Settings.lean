import WarmCompile.Json.Shape

/-!
The settings of the daemon and of the compiler command. Each one that is left out has a default.
-/

namespace WarmCompile

open Json (Shape)

structure DaemonSettings where
  logLevel : String := "info"
  logRotation : String := "daily"
  /-- How many messages wait for the session before senders have to. -/
  mailboxCapacity : Nat := 256
  deriving DecidableEq, Repr, Inhabited

structure CompilerSettings where
  /-- The program that emits one file; the path of the file is its last argument. -/
  command : Option String := none
  args : List String := []
  env : Table String := .empty
  deriving DecidableEq, Inhabited

structure Config where
  daemon : DaemonSettings := {}
  compiler : CompilerSettings := {}
  deriving DecidableEq, Inhabited

def DaemonSettings.shape : Shape DaemonSettings :=
  let d : DaemonSettings := {}
  .record "DaemonConfig"
    (.field "log_level" .text (.defaulted d.logLevel) <|
      .field "log_rotation" .text (.defaulted d.logRotation) <|
      .field "mailbox_capacity" .size (.defaulted d.mailboxCapacity) .none)
    (fun (l, r, c, ()) => ⟨l, r, c⟩)
    (fun s => (s.logLevel, s.logRotation, s.mailboxCapacity, ()))

def CompilerSettings.shape : Shape CompilerSettings :=
  let d : CompilerSettings := {}
  .record "CompilerSettings"
    (.field "command" (.optional .text) (.defaulted d.command) <|
      .field "args" (.list .text) (.defaulted d.args) <|
      .field "env" .dictionary (.defaulted d.env) .none)
    (fun (c, a, e, ()) => ⟨c, a, e⟩) (fun s => (s.command, s.args, s.env, ()))

def Config.shape : Shape Config :=
  let d : Config := {}
  .record "Config"
    (.field "daemon" DaemonSettings.shape (.defaulted d.daemon) <|
      .field "compiler" CompilerSettings.shape (.defaulted d.compiler) .none)
    (fun (d, c, ()) => ⟨d, c⟩) (fun c => (c.daemon, c.compiler, ()))

end WarmCompile
