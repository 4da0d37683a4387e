import WarmCompile.Wire.Outcome
import WarmCompile.Wire.CallError
import WarmCompile.Wire.Request

/-!
Responses: the id of the request, and its result under the method's name or an error.
-/

namespace WarmCompile

open Json (Cause Fault Parsed)

/-- The result of a method. -/
inductive Reply where
  | ping (result : PingResult)
  | init (outcome : Outcome InitResult)
  | compile (outcome : Outcome CompileResult)
  deriving DecidableEq

namespace Reply

def method : Reply → Method
  | .ping _ => .ping
  | .init _ => .init
  | .compile _ => .compile

def adjacency : Json.Adjacency Method := ⟨"method", "result", Method.cases⟩

def noun : String := "adjacently tagged enum ResponseData"

def resultOf : Method → Json → Except Cause Reply
  | .ping, j => do return .ping (← PingResult.shape.ofJson j)
  | .init, j => do return .init (← Outcome.ofJson InitResult.shape j)
  | .compile, j => do return .compile (← Outcome.ofJson CompileResult.shape j)

def readResult : Method → Nat → List Char → Except Fault (Parsed Reply)
  | .ping, d, cs => do let (r, cs) ← PingResult.shape.read d cs; return (.ping r, cs)
  | .init, d, cs => do let (o, cs) ← Outcome.read InitResult.shape d cs; return (.init o, cs)
  | .compile, d, cs => do
    let (o, cs) ← Outcome.read CompileResult.shape d cs
    return (.compile o, cs)

def resultToJson : Reply → Json
  | .ping r => PingResult.shape.toJson r
  | .init o => o.toJson InitResult.shape
  | .compile o => o.toJson CompileResult.shape

def toMembers (r : Reply) : List (String × Json) :=
  [("method", .text r.method.name), ("result", r.resultToJson)]

def toJson (r : Reply) : Json :=
  .object r.toMembers

def ofMembers (ms : List (String × Json)) : Except Cause Reply :=
  adjacency.ofMembers resultOf ms

def parse (text : String) : Except Fault Reply :=
  Json.finish (adjacency.read noun resultOf readResult Json.depthLimit text.toList)

end Reply

structure Response where
  id : String
  body : Except CallError Reply

namespace Response

/-- No request line can be read from the text. -/
def parseError : Int := -32700

/-- The session no longer takes messages. -/
def sessionGone : Int := -32000

def rpc (id : String) (code : Int) (message : String) : Response :=
  ⟨id, .error (.rpc code message)⟩

def toJson (r : Response) : Json :=
  match r.body with
  | .ok reply => .object (("id", .text r.id) :: reply.toMembers)
  | .error e => .object [("id", .text r.id), ("error", e.toJson)]

/-- The line a response is sent as. -/
def toLine (r : Response) : String :=
  r.toJson.compact

/-- Takes an error member, one only. -/
def errorMember (e : Option CallError) (key : String) (j : Json) :
    Except Cause (Option CallError) :=
  if key = "error" then
    if e.isSome then .error (.duplicateField "error")
    else do return some (← CallError.ofJson j)
  else .ok e

/-- An error is tried first; what is neither error nor result fits nothing. -/
def bodyOf (ms : List (String × Json)) : Except Cause (Except CallError Reply) :=
  match Json.membersOf errorMember none ms with
  | .ok (some e) => .ok (.error e)
  | _ =>
    match Reply.ofMembers ms with
    | .ok r => .ok (.ok r)
    | .error _ => .error (.noVariant "ResponseScenario")

def parse (text : String) : Except Fault Response :=
  Json.finish (Envelope.read "struct Response" Response.mk bodyOf Json.depthLimit text.toList)

end Response

end WarmCompile
