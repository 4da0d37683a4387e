import WarmCompile.Wire.Call
import WarmCompile.Json.Adjacent
import WarmCompile.Json.Print

/-!
Requests: an id, a method and its parameters.
-/

namespace WarmCompile

open Json (Cause Fault Parsed)

structure Request where
  id : String
  call : Call
  deriving DecidableEq, Repr, Inhabited

namespace Call

def adjacency : Json.Adjacency Method := ⟨"method", "params", Method.cases⟩

def paramsOf : Method → Json → Except Cause Call
  | .ping, j => do return .ping (← PingParams.shape.ofJson j)
  | .init, j => do return .init (← InitParams.shape.ofJson j)
  | .compile, j => do return .compile (← CompileParams.shape.ofJson j)

def paramsToJson : Call → Json
  | .ping p => PingParams.shape.toJson p
  | .init p => InitParams.shape.toJson p
  | .compile p => CompileParams.shape.toJson p

/-- The method and its parameters among the members of a request. -/
def ofMembers (ms : List (String × Json)) : Except Cause Call :=
  adjacency.ofMembers paramsOf ms

end Call

/-- An envelope's id, set apart from its other members. -/
structure Envelope where
  id : Option String
  others : List (String × Json)

namespace Envelope

def empty : Envelope := ⟨none, []⟩

def ofMember (e : Envelope) (key : String) (j : Json) : Except Cause Envelope :=
  if key = "id" then
    if e.id.isSome then .error (.duplicateField "id")
    else do return { e with id := some (← Json.textOf j) }
  else .ok { e with others := e.others ++ [(key, j)] }

def readMember (d : Nat) (e : Envelope) (key : String) (cs : List Char) :
    Except Fault (Parsed Envelope) :=
  if key = "id" then
    if e.id.isSome then Json.failOpen (.duplicateField "id") cs
    else do
      let (s, cs) ← Json.readTextOf "a string" (← Json.readColon cs)
      return ({ e with id := some s }, cs)
  else do
    let (j, cs) ← Json.readValue d (← Json.readColon cs)
    return ({ e with others := e.others ++ [(key, j)] }, cs)

/-- Takes what the other members say once the id is there. -/
def complete {α β : Type} (make : String → α → β)
    (body : List (String × Json) → Except Cause α) (e : Envelope) : Except Cause β :=
  match e.id with
  | none => .error (.missingField "id")
  | some id => do return make id (← body e.others)

def ofJson {α β : Type} (noun : String) (make : String → α → β)
    (body : List (String × Json) → Except Cause α) : Json → Except Cause β
  | .object ms => do complete make body (← Json.membersOf ofMember empty ms)
  | j => Json.wrongTypeOf noun j

def read {α β : Type} (noun : String) (make : String → α → β)
    (body : List (String × Json) → Except Cause α) (d : Nat) (cs : List Char) :
    Except Fault (Parsed β) :=
  match Json.skipBlank cs with
  | '\x7b' :: r =>
    Json.within d (fun d r => Json.closeObject do
      let (e, r) ← Json.readMembers (readMember d) (r.length + 1) true empty r
      match complete make body e with
      | .ok b => return (b, r)
      | .error cause => Json.failOpen cause r) r
  | r => Json.wrongType noun r

end Envelope

namespace Request

def toJson (r : Request) : Json :=
  .object [("id", .text r.id), ("method", .text r.call.method.name),
    ("params", r.call.paramsToJson)]

/-- Reads a request strictly as it is written. -/
def read (text : String) : Except Fault Request :=
  Json.finish (Envelope.read "struct Request" Request.mk Call.ofMembers Json.depthLimit text.toList)

/-- Parameters that are left out are empty. -/
def withParams : Json → Json
  | .object ms =>
    if ms.any (·.1 == "params") then .object ms
    else .object (Table.insertEntry "params" (.object []) ms)
  | j => j

/-- Reads a request line: the last of repeated members counts, and parameters may be left out. -/
def parse (line : String) : Except Fault Request := do
  let j ← Json.parse line
  match Envelope.ofJson "struct Request" Request.mk Call.ofMembers (withParams j.collapse) with
  | .ok r => return r
  | .error cause => Json.failOpen cause []

end Request

end WarmCompile
