import WarmCompile.Wire.Response

/-!
One connection shared by many calls. Each call has a number of its own, which is the id of its
request; the first response that bears it is the call's. When the connection ends, so does every
call that still waits.
-/

namespace WarmCompile

/-- A request that the multiplexer has not taken up yet. -/
structure Outbound where
  call : Nat
  params : Call
  deriving DecidableEq, Repr

structure Multiplexer where
  /-- The number of the next call. -/
  next : Nat
  queue : List Outbound
  /-- Calls whose request has gone out. -/
  pending : List Nat
  /-- The peer does not read any more. -/
  deaf : Bool
  ended : Bool
  deriving Repr

namespace Multiplexer

def start : Multiplexer := ⟨1, [], [], false, false⟩

inductive Event where
  | issue (params : Call)
  /-- The first request that waits is taken up. -/
  | register
  /-- A line arrives, if it is text. -/
  | line (text : Option String)
  | close
  | hangUp

/-- What a caller gets: a response, or an error ahead of any. -/
abbrev Result := Except CallError Response

/-- What comes of an event: calls that end, and lines that are written. -/
structure Effect where
  results : List (Nat × Result)
  lines : List String

def Effect.none : Effect := ⟨[], []⟩

def idOf (call : Nat) : String := toString call

def requestOf (o : Outbound) : Request := ⟨idOf o.call, o.params⟩

def failure (call : Nat) (e : CallError) : Nat × Result :=
  (call, .ok ⟨idOf call, .error e⟩)

def issue (m : Multiplexer) (params : Call) : Multiplexer × Effect :=
  if m.ended then
    ({ m with next := m.next + 1 },
      ⟨[(m.next, .error (.connection "multiplexer died"))], []⟩)
  else ({ m with next := m.next + 1, queue := m.queue ++ [⟨m.next, params⟩] }, .none)

def register (m : Multiplexer) : Multiplexer × Effect :=
  match m.queue with
  | [] => (m, .none)
  | o :: queue =>
    if m.deaf then
      ({ m with queue }, ⟨[failure o.call (.connection "Broken pipe (os error 32)")], []⟩)
    else
      ({ m with queue, pending := m.pending ++ [o.call] }, ⟨[], [(requestOf o).toJson.compact]⟩)

/-- Hands a response to the call that bears its id; any other line changes nothing. -/
def deliver (m : Multiplexer) (line : String) : Multiplexer × Effect :=
  match Response.parse line with
  | .error _ => (m, .none)
  | .ok r =>
    match m.pending.find? (idOf · == r.id) with
    | none => (m, .none)
    | some call => ({ m with pending := m.pending.erase call }, ⟨[(call, .ok r)], []⟩)

/-- Ends every call that waits for a response, and those that wait to be taken up. -/
def close (m : Multiplexer) : Multiplexer × Effect :=
  ({ m with queue := [], pending := [], ended := true },
    ⟨m.pending.map (failure · (.connection "connection closed")) ++
      m.queue.map fun o => (o.call, .error (.connection "no response received")), []⟩)

def step (m : Multiplexer) (e : Event) : Multiplexer × Effect :=
  match e with
  | .issue params => m.issue params
  | .hangUp => ({ m with deaf := true }, .none)
  | .register => if m.ended then (m, .none) else m.register
  | .line (some line) => if m.ended then (m, .none) else m.deliver line
  | .line none | .close => if m.ended then (m, .none) else m.close

def run (m : Multiplexer) (events : List Event) : Multiplexer × Effect :=
  events.foldl
    (fun (m, done) e =>
      let (m, more) := m.step e
      (m, ⟨done.results ++ more.results, done.lines ++ more.lines⟩))
    (m, .none)

end Multiplexer

/-- The reply a call is after. -/
def Response.extract (method : Method) (r : Response) : Except CallError Reply :=
  match r.body with
  | .error e => .error e
  | .ok reply => if reply.method = method then .ok reply else .error .noResult

end WarmCompile
