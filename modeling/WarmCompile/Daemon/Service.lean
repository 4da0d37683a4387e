import WarmCompile.Compile.External
import WarmCompile.Daemon.Log
import WarmCompile.Digest.Sha256
import WarmCompile.Serve.Front

/-!
The daemon as it is configured: its session's keeper, and what it logs.
-/

namespace WarmCompile

variable {ω : Type}

namespace Config

/-- Compiles with the configured command. -/
def service (config : Config) (host : Host ω) : Service (Table Digest.Words) ω :=
  ⟨(Compiler.mk config.compiler host Digest.ofText).backend, .plain⟩

def front (config : Config) (w : ω) : Front (Table Digest.Words) ω :=
  .around (.spawn config.daemon.mailboxCapacity w)

end Config

/-- Whether a response tells of something that has gone wrong. -/
def Response.isTrouble (r : Response) : Bool :=
  match r.body with
  | .error _ => true
  | .ok (.ping _) => false
  | .ok (.init outcome) => !outcome.isSuccess
  | .ok (.compile outcome) => !outcome.isSuccess

/-- The levels at which a daemon logs that serves an open connection. It tells that it has started,
and warns of what goes wrong and of input that is not text. -/
def Connection.logged (c : Connection) : List LogLevel :=
  if c.ended || c.sent.any Response.isTrouble then [.info, .warn] else [.info]

end WarmCompile
