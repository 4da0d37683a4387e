import WarmCompile.Serve.Incoming

/-!
One connection: lines come in, every request is a task of its own, and responses go out in the order
in which the tasks are done. When the input ends, tasks that are not done are abandoned, and what is
on its way out still goes out.
-/

namespace WarmCompile

/-- A request that has no response yet. -/
structure Task where
  call : Nat
  request : Request
  deriving DecidableEq, Repr

structure Connection where
  /-- How many requests have been read, refused ones among them. -/
  count : Nat
  tasks : List Task
  outbox : List Response
  sent : List Response
  /-- No more is read. -/
  ended : Bool
  /-- The peer does not read any more. -/
  deaf : Bool
  /-- A response could not be written, and none will be. -/
  failed : Bool

namespace Connection

def opened : Connection := ⟨0, [], [], [], false, false, false⟩

inductive Event where
  /-- A line is read, if it is text; its call goes by the number. -/
  | line (call : Nat) (text : Option String)
  /-- The input ends. -/
  | close
  /-- A task is done. -/
  | done (call : Nat) (ending : Option Ending)
  | write
  /-- The peer stops reading. -/
  | hangUp

def post (c : Connection) (r : Response) : Connection :=
  if c.failed then c else { c with outbox := c.outbox ++ [r] }

def close (c : Connection) : Connection :=
  { c with ended := true, tasks := [] }

def read (c : Connection) (call : Nat) : Incoming → Connection
  | .blank => c
  | .refused r =>
    let c := { c with count := c.count + 1 }
    if c.failed then c.close else c.post r
  | .request r => { c with count := c.count + 1, tasks := c.tasks ++ [⟨call, r⟩] }

def step (c : Connection) : Event → Connection
  | .line call text =>
    if c.ended then c
    else match text with
      | none => c.close
      | some line => c.read call (.ofLine line)
  | .close => c.close
  | .done call ending =>
    match c.tasks.find? (·.call == call) with
    | none => c
    | some t =>
      { c with tasks := c.tasks.eraseP (·.call == call) }.post (t.request.respond ending)
  | .write =>
    match c.outbox with
    | [] => c
    | r :: outbox =>
      if c.deaf then { c with failed := true, outbox := [] }
      else { c with outbox, sent := c.sent ++ [r] }
  | .hangUp => { c with deaf := true }

def run (c : Connection) (events : List Event) : Connection :=
  events.foldl step c

/-- What is reported of an ended connection: the requests read, if every response could go out. -/
def served (c : Connection) : Except CallError Nat :=
  if c.failed then .error (.framing "Broken pipe (os error 32)") else .ok c.count

end Connection

end WarmCompile
