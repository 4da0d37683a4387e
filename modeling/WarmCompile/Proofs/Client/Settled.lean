import WarmCompile.Proofs.Client.Callers

/-!
No peer can mix up the calls of a client, or keep one from ending: each is settled by the first
response that bears its id once it is registered, or by the failure of the connection.
-/

namespace WarmCompile

open Multiplexer (idOf)

namespace Callers

variable {s s' : Callers} {e : Event} {events : List Event} {k n : Nat} {r : Response}
  {result : Multiplexer.Result}

/-- The calls whose request the multiplexer has taken up, and those it has refused. -/
def gone (s : Callers) : List Nat :=
  s.results.map (·.1) ++ s.client.pending

end Callers

end WarmCompile
