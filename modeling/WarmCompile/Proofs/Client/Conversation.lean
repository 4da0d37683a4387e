import WarmCompile.Client.Multiplexer
import WarmCompile.Proofs.Session.Run
import WarmCompile.Serve.Connection
import WarmCompile.Wire.Lines

/-!
A client and a front in conversation, over a connection that stays open. Callers, multiplexer,
tasks, writer and keeper go on one step at a time, each whenever it likes, and the bytes of either
direction arrive in pieces of any size.
-/

namespace WarmCompile

/-- What goes `upward` is on its way to the front, what goes `downward` to the client. -/
structure Conversation (κ ω : Type) where
  client : Multiplexer
  upward : List UInt8
  inbound : Lines
  connection : Connection
  actor : Actor κ ω
  /-- The number of the next line, or of the next call from elsewhere. -/
  calls : Nat
  /-- The tasks that have put their message to the keeper. -/
  asked : List Nat
  ended : Actor.Endings
  downward : List UInt8
  outbound : Lines
  results : List (Nat × Multiplexer.Result)

namespace Conversation

variable {κ ω : Type}

def opened (capacity : Nat) (w : ω) : Conversation κ ω :=
  ⟨.start, [], .empty, .opened, .spawn capacity w, 0, [], [], [], .empty, []⟩

/-- What can happen, in any order; bytes get there so many at a time. -/
inductive Event (ω : Type) where
  | issue (params : Call)
  /-- A request gets to the multiplexer ahead of others that were issued before it. -/
  | overtake (n : Nat)
  | register
  | up (n : Nat)
  | ask (call : Nat)
  /-- The keeper and its callers go on; a call here is one from elsewhere. -/
  | keeper (e : Actor.Event ω)
  | done (call : Nat)
  | write
  | down (n : Nat)

/-- The multiplexer takes an event, and what it writes goes out. -/
def multiplex (s : Conversation κ ω) (e : Multiplexer.Event) : Conversation κ ω :=
  let (client, effect) := s.client.step e
  { s with
    client
    upward := s.upward ++ effect.lines.flatMap Lines.frame
    results := s.results ++ effect.results }

def serve (s : Conversation κ ω) (e : Connection.Event) : Conversation κ ω :=
  { s with connection := s.connection.step e }

def keep (service : Service κ ω) (s : Conversation κ ω) (e : Actor.Event ω) : Conversation κ ω :=
  let (actor, more) := s.actor.step service e
  { s with actor, ended := s.ended ++ more }

def readLine (s : Conversation κ ω) (line : Option String) : Conversation κ ω :=
  { s.serve (.line s.calls line) with calls := s.calls + 1 }

def receive (s : Conversation κ ω) (n : Nat) : Conversation κ ω :=
  let (lines, inbound) := s.inbound.feed (s.upward.take n)
  lines.foldl readLine { s with upward := s.upward.drop n, inbound }

/-- What a task has to put to the keeper: it asks once, and only what is a matter for the keeper. -/
def letter? (s : Conversation κ ω) (call : Nat) : Option Letter :=
  match s.connection.tasks.find? (·.call == call) with
  | none => none
  | some t => if call ∈ s.asked then none else t.request.call.message?.map (Letter.mk call)

def ask (service : Service κ ω) (s : Conversation κ ω) (call : Nat) : Conversation κ ω :=
  match s.letter? call with
  | none => s
  | some l => { s.keep service (.call l) with asked := call :: s.asked }

/-- A call from elsewhere takes the next number. -/
def attend (service : Service κ ω) (s : Conversation κ ω) : Actor.Event ω → Conversation κ ω
  | .call l => { s.keep service (.call ⟨s.calls, l.message⟩) with calls := s.calls + 1 }
  | e => s.keep service e

/-- A ping is done at once, any other task when its call to the keeper has ended. -/
def finish (s : Conversation κ ω) (call : Nat) : Conversation κ ω :=
  match s.connection.tasks.find? (·.call == call) with
  | none => s
  | some t =>
    match t.request.call.message?, s.ended.lookup call with
    | none, _ => s.serve (.done call none)
    | some _, some ending => s.serve (.done call (some ending))
    | some _, none => s

def write (s : Conversation κ ω) : Conversation κ ω :=
  let sent := (s.serve .write).connection.sent.drop s.connection.sent.length
  { s.serve .write with downward := s.downward ++ sent.flatMap (Lines.frame ·.toLine) }

def deliver (s : Conversation κ ω) (n : Nat) : Conversation κ ω :=
  let (lines, outbound) := s.outbound.feed (s.downward.take n)
  lines.foldl (fun s line => s.multiplex (.line line))
    { s with downward := s.downward.drop n, outbound }

def overtake (s : Conversation κ ω) (n : Nat) : Conversation κ ω :=
  let queue := s.client.queue
  { s with client := { s.client with queue := queue[n]?.toList ++ queue.eraseIdx n } }

def step (service : Service κ ω) (s : Conversation κ ω) : Event ω → Conversation κ ω
  | .issue params => s.multiplex (.issue params)
  | .overtake n => s.overtake n
  | .register => s.multiplex .register
  | .up n => s.receive n
  | .ask call => s.ask service call
  | .keeper e => s.attend service e
  | .done call => s.finish call
  | .write => s.write
  | .down n => s.deliver n

def run (service : Service κ ω) (s : Conversation κ ω) (events : List (Event ω)) :
    Conversation κ ω :=
  events.foldl (step service) s

def issuing : Event ω → List Call
  | .issue params => [params]
  | _ => []

/-- The calls that are issued, each under its number. -/
def issued (events : List (Event ω)) : List Outbound :=
  (events.flatMap issuing).mapIdx fun i params => ⟨i + 1, params⟩

/-- What a run leaves in a notebook that is written in ahead of every step. -/
def notes {α : Type} (note : Conversation κ ω → Event ω → List α) (service : Service κ ω)
    (s : Conversation κ ω) : List (Event ω) → List α
  | [] => []
  | e :: events => note s e ++ notes note service (s.step service e) events

/-- What the keeper and those who call it go through with an event. -/
def heard (s : Conversation κ ω) : Event ω → List (Actor.Event ω)
  | .ask call => (s.letter? call).toList.map .call
  | .keeper (.call l) => [.call ⟨s.calls, l.message⟩]
  | .keeper e => [e]
  | _ => []

/-- The tasks that begin with an event. -/
def begun (s : Conversation κ ω) : Event ω → List Task
  | .up n => (s.receive n).connection.tasks.drop s.connection.tasks.length
  | _ => []

def keeperEvents (service : Service κ ω) (s : Conversation κ ω) (events : List (Event ω)) :
    List (Actor.Event ω) :=
  notes heard service s events

def tasks (service : Service κ ω) (s : Conversation κ ω) (events : List (Event ω)) : List Task :=
  notes begun service s events

theorem run_concat (service : Service κ ω) (s : Conversation κ ω) (events : List (Event ω))
    (e : Event ω) : s.run service (events ++ [e]) = (s.run service events).step service e := by
  simp only [run, List.foldl_append, List.foldl_cons, List.foldl_nil]

theorem notes_concat {α : Type} (note : Conversation κ ω → Event ω → List α)
    (service : Service κ ω) (s : Conversation κ ω) (events : List (Event ω)) (e : Event ω) :
    notes note service s (events ++ [e]) =
      notes note service s events ++ note (s.run service events) e := by
  induction events generalizing s with
  | nil => exact List.append_nil _
  | cons e' events ih => rw [List.cons_append, notes, ih, notes, List.append_assoc]; rfl

end Conversation

end WarmCompile
