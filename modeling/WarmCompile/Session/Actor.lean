import WarmCompile.Session.Basic
import WarmCompile.Session.Mailbox

/-!
The keeper of the session: it alone touches it, and handles one message at a time in the order in
which they reach its mailbox. It stops at a disconnect, when it is cancelled, or when nobody is left
to send; what has not been handled by then is dropped, and its callers learn so.
-/

namespace WarmCompile

/-- The message of one call. -/
structure Letter where
  call : Nat
  message : Message
  deriving DecidableEq, Repr

/-- How a call ends. -/
inductive Ending where
  /-- A disconnect has reached the mailbox. -/
  | sent
  | answered (answer : Answer)
  /-- The keeper has stopped. -/
  | gone

/-- What a caller is told whose message was not handled. -/
def goneText : String := "Session actor has disconnected"

structure Actor (κ ω : Type) where
  mailbox : Mailbox Letter
  session : Option (Session κ)
  /-- The message in hand. -/
  current : Option Letter
  cancelled : Bool
  /-- Nobody can send any more. -/
  deserted : Bool
  /-- Callers that no longer wait for their answer. -/
  absent : List Nat
  world : ω

namespace Actor

variable {κ ω : Type}

def spawn (capacity : Nat) (w : ω) : Actor κ ω :=
  ⟨.ofCapacity capacity, none, none, false, false, [], w⟩

def isStopped (a : Actor κ ω) : Bool :=
  a.mailbox.closed

/-- What can happen, in any order. -/
inductive Event (ω : Type) where
  | call (letter : Letter)
  /-- The sender of a call puts its message into the mailbox. -/
  | enter (call : Nat)
  /-- A caller stops waiting. -/
  | leave (call : Nat)
  /-- The keeper takes up the next message, or stops. -/
  | take
  /-- The keeper is done with the message in hand. -/
  | finish
  | cancel
  | desert
  /-- The surroundings change. -/
  | edit (change : ω → ω)

/-- Which calls end, and how. -/
abbrev Endings := List (Nat × Ending)

/-- A disconnect ends for its caller when it gets into the mailbox. -/
def endingOnEntry (l : Letter) : Endings :=
  if l.message = .disconnect then [(l.call, .sent)] else []

/-- Those in the mailbox that still expect an ending. -/
def expectant (m : Mailbox Letter) : List Letter :=
  m.queue.filter (·.message ≠ .disconnect) ++ m.waiting

def stop (a : Actor κ ω) : Actor κ ω × Endings :=
  ({ a with mailbox := a.mailbox.close },
    (expectant a.mailbox).map fun l => (l.call, .gone))

def takeNext (a : Actor κ ω) : Actor κ ω × Endings :=
  if a.isStopped || a.current.isSome then (a, [])
  else if a.cancelled then a.stop
  else match a.mailbox.take with
    | some (l, mailbox) =>
      if l.message = .disconnect then stop { a with mailbox }
      else ({ a with mailbox, current := some l }, [])
    | none => if a.deserted && a.mailbox.waiting.isEmpty then a.stop else (a, [])

def finishCurrent (service : Service κ ω) (a : Actor κ ω) : Actor κ ω × Endings :=
  match a.current with
  | none => (a, [])
  | some l =>
    match service.handle a.session a.world l.message with
    | (answer, session, world) =>
      ({ a with session, world, current := none },
        (answer.map fun answer => (l.call, Ending.answered answer)).toList)

def step (service : Service κ ω) (a : Actor κ ω) : Event ω → Actor κ ω × Endings
  | .call l =>
    if a.isStopped then (a, [(l.call, .gone)]) else ({ a with mailbox := a.mailbox.await l }, [])
  | .enter call =>
    match a.mailbox.enter (·.call == call) with
    | some (l, mailbox) => ({ a with mailbox }, endingOnEntry l)
    | none => (a, [])
  | .leave call =>
    ({ a with mailbox := a.mailbox.withdraw (·.call == call), absent := call :: a.absent }, [])
  | .take => a.takeNext
  | .finish => a.finishCurrent service
  | .cancel => ({ a with cancelled := true }, [])
  | .desert => ({ a with deserted := true }, [])
  | .edit change => ({ a with world := change a.world }, [])

/-- What comes of events in turn. -/
def run (service : Service κ ω) (a : Actor κ ω) (events : List (Event ω)) :
    Actor κ ω × Endings :=
  events.foldl (fun (a, ended) e => let (a, more) := a.step service e; (a, ended ++ more)) (a, [])

end Actor

end WarmCompile
