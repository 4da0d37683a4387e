import WarmCompile.Serve.Connection
import WarmCompile.Session.Schedule
import WarmCompile.Wire.Lines

/-!
Any number of connections in front of one session. Whatever comes in is dealt with before more does:
refusals go out first, then pings, then what the session has answered.
-/

namespace WarmCompile

structure Peer where
  name : String
  lines : Lines
  connection : Connection

structure Front (κ ω : Type) where
  actor : Actor κ ω
  peers : List Peer
  /-- How many calls there have been. -/
  calls : Nat
  /-- The requests of connections that have closed. -/
  total : Nat

namespace Front

variable {κ ω : Type}

def around (a : Actor κ ω) : Front κ ω := ⟨a, [], 0, 0⟩

def peer? (f : Front κ ω) (name : String) : Option Peer :=
  f.peers.find? (·.name == name)

def setPeer (f : Front κ ω) (p : Peer) : Front κ ω :=
  { f with peers := f.peers.map fun q => if q.name = p.name then p else q }

def connect (f : Front κ ω) (name : String) : Front κ ω :=
  { f with peers := f.peers ++ [⟨name, .empty, .opened⟩] }

/-- What the tasks ask of the session. -/
def letters (tasks : List Task) : List Letter :=
  tasks.filterMap fun t => t.request.call.message?.map (Letter.mk t.call)

def writeAll (c : Connection) : Connection :=
  c.run (c.outbox.map fun _ => .write)

/-- What happens to one connection by itself. -/
def serve (f : Front κ ω) (name : String) (events : List Connection.Event) : Front κ ω :=
  match f.peer? name with
  | none => f
  | some p => f.setPeer { p with connection := p.connection.run events }

/-- What is on its way out to a peer goes out, as long as the peer reads. -/
def flush (f : Front κ ω) (name : String) : Front κ ω :=
  match f.peer? name with
  | none => f
  | some p => f.setPeer { p with connection := writeAll p.connection }

/-- Reads lines one after the other and sees to what they ask for. -/
def readLines (service : Service κ ω) (f : Front κ ω) (p : Peer) (lines : List (Option String)) :
    Front κ ω :=
  let c := p.connection.run (lines.mapIdx fun i line => .line (f.calls + i) line)
  let (actor, ended) := f.actor.after service ((letters c.tasks).map .call)
  let pings := c.tasks.filter (·.request.call.message?.isNone)
  let c := c.run (pings.map fun t => .done t.call none)
  let c := c.run (ended.map fun e => .done e.1 (some e.2))
  { f with actor, calls := f.calls + lines.length }.setPeer { p with connection := c }

/-- Takes in what a peer sends; the responses wait for the peer to read them. -/
def hear (service : Service κ ω) (f : Front κ ω) (name : String) (bytes : List UInt8) :
    Front κ ω :=
  match f.peer? name with
  | none => f
  | some p =>
    let (lines, rest) := p.lines.feed bytes
    f.readLines service { p with lines := rest } lines

def receive (service : Service κ ω) (f : Front κ ω) (name : String) (bytes : List UInt8) :
    Front κ ω :=
  (f.hear service name bytes).flush name

/-- The input of a connection ends; a request that this has ended is too late to be answered. -/
def closeInput (f : Front κ ω) (name : String) : Front κ ω :=
  match f.peer? name with
  | none => f
  | some p =>
    let last := p.lines.last?.toList.map (Connection.Event.line f.calls)
    let c := p.connection.run (last ++ [.close])
    { f with calls := f.calls + 1 }.setPeer { p with lines := .empty, connection := writeAll c }

/-- An ended connection is counted and let go. -/
def collect (f : Front κ ω) (name : String) : Front κ ω :=
  match f.peer? name with
  | none => f
  | some p =>
    { f with
      peers := f.peers.filter (·.name != name)
      total := f.total + p.connection.served.toOption.getD 0 }

/-- The lines written to a connection so far. -/
def written (f : Front κ ω) (name : String) : List String :=
  ((f.peer? name).map fun p => p.connection.sent.map Response.toLine).getD []

end Front

end WarmCompile
