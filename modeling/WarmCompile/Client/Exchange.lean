import WarmCompile.Client.Multiplexer
import WarmCompile.Serve.Front

/-!
A client that talks to a front: its requests go over as lines, and so do the responses.
-/

namespace WarmCompile

variable {κ ω : Type}

/-- Issues calls all at once over a connection and waits for their results. -/
def Front.exchange (service : Service κ ω) (f : Front κ ω) (name : String) (m : Multiplexer)
    (calls : List Call) : List Multiplexer.Result × Multiplexer × Front κ ω :=
  let numbers := (List.range calls.length).map (m.next + ·)
  let (m, issued) := m.run (calls.map .issue ++ calls.map fun _ => .register)
  let before := (f.written name).length
  let f := f.receive service name (issued.lines.flatMap Lines.frame)
  let replies := (f.written name).drop before
  let (m, got) := m.run ((Lines.empty.feed (replies.flatMap Lines.frame)).1.map .line)
  let results := issued.results ++ got.results
  (numbers.map fun n => (results.lookup n).getD (.error (.connection "no response received")), m, f)

end WarmCompile
