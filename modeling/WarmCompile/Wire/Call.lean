import WarmCompile.Json.Shape

/-!
The parameters and plain results of the three methods.
-/

namespace WarmCompile

open Json (Shape)

/-- The methods a request can name. -/
inductive Method where
  | ping
  | init
  | compile
  deriving DecidableEq, Repr, Inhabited

def Method.name : Method → String
  | .ping => "ping"
  | .init => "init"
  | .compile => "compile"

def Method.cases : List (String × Method) :=
  [Method.ping, .init, .compile].map fun m => (m.name, m)

structure PingParams where
  message : Option String
  deriving DecidableEq, Repr, Inhabited

structure InitParams where
  project : String
  library : String
  deriving DecidableEq, Repr, Inhabited

structure CompileParams where
  fileName : String
  deriving DecidableEq, Repr, Inhabited

structure PingResult where
  message : String
  deriving DecidableEq, Repr, Inhabited

def PingResult.pong : PingResult := ⟨"pong"⟩

/-- A ping brings back its own message. -/
def PingResult.replyTo (p : PingParams) : PingResult :=
  match p.message with
  | some message => ⟨message⟩
  | none => pong

def PingParams.shape : Shape PingParams :=
  .record "PingParams" (.field "message" (.optional .text) (.elided none Option.isNone) .none)
    (fun (m, ()) => ⟨m⟩) (fun p => (p.message, ()))

def InitParams.shape : Shape InitParams :=
  .record "InitParams"
    (.field "project" .text .required <| .field "fableLibrary" .text .required .none)
    (fun (p, l, ()) => ⟨p, l⟩) (fun p => (p.project, p.library, ()))

def CompileParams.shape : Shape CompileParams :=
  .record "CompileParams" (.field "fileName" .text .required .none)
    (fun (f, ()) => ⟨f⟩) (fun p => (p.fileName, ()))

def PingResult.shape : Shape PingResult :=
  .record "PingResult" (.field "message" .text .required .none)
    (fun (m, ()) => ⟨m⟩) (fun r => (r.message, ()))

/-- A method with its parameters. -/
inductive Call where
  | ping (params : PingParams)
  | init (params : InitParams)
  | compile (params : CompileParams)
  deriving DecidableEq, Repr, Inhabited

def Call.method : Call → Method
  | .ping _ => .ping
  | .init _ => .init
  | .compile _ => .compile

end WarmCompile
