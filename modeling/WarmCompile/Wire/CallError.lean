import WarmCompile.Json.Shape.Text
import WarmCompile.Json.Shape.Tree

/-!
Why a call has no result.
-/

namespace WarmCompile

open Json (Fields Cause Fault Parsed)

inductive CallError where
  | encoding (text : String)
  | rpc (code : Int) (message : String)
  | noResult
  | io (text : String)
  | connection (text : String)
  | framing (text : String)
  deriving DecidableEq, Repr, Inhabited

namespace CallError

def message : CallError → String
  | .encoding text => "Ser/de error: " ++ text
  | .rpc code message => "RPC error " ++ toString code ++ ": " ++ message
  | .noResult => "No result in response"
  | .io text => "IO error: " ++ text
  | .connection text => "Connection error: " ++ text
  | .framing text => "Codec error: " ++ text

def rpcFields : Fields (Int × String × Unit) :=
  .field "code" .int .required <| .field "message" .text .required .none

inductive Kind where
  | encoding
  | rpc
  | noResult
  | io
  | connection
  | framing
  deriving DecidableEq, Repr

def Kind.cases : List (String × Kind) :=
  [("Serde", .encoding), ("Rpc", .rpc), ("NoResult", .noResult), ("Io", .io),
    ("Connection", .connection), ("Codec", .framing)]

def toJson : CallError → Json
  | .encoding text => .object [("Serde", .text text)]
  | .rpc code message => .object [("Rpc", .object (rpcFields.toMembers (code, message, ())))]
  | .noResult => .text "NoResult"
  | .io text => .object [("Io", .text text)]
  | .connection text => .object [("Connection", .text text)]
  | .framing text => .object [("Codec", .text text)]

/-- The kinds that carry a text. -/
def ofText : Kind → String → CallError
  | .encoding, text => .encoding text
  | .io, text => .io text
  | .connection, text => .connection text
  | .framing, text => .framing text
  | .rpc, _ => .noResult
  | .noResult, _ => .noResult

def rpcNoun : String := "struct variant IpcError::Rpc"

def contentOf (kind : Kind) (content : Option Json) : Except Cause CallError :=
  match kind, content with
  | .noResult, none => .ok .noResult
  | .noResult, some j => do Json.unitOf j; return .noResult
  | .rpc, none => .error (.invalidType .unitVariant "struct variant")
  | .rpc, some (.object ms) => do
    let (code, message, ()) ← rpcFields.ofMembers ms
    return .rpc code message
  | .rpc, some (.list js) => do
    let (code, message, ()) ← rpcFields.ofItems (rpcFields.lengthNoun rpcNoun) 0 js
    return .rpc code message
  | .rpc, some j => Json.wrongTypeOf "struct variant" j
  | _, none => .error (.invalidType .unitVariant "newtype variant")
  | kind, some j => do return ofText kind (← Json.textOf j)

def ofJson (j : Json) : Except Cause CallError := do
  let (name, content) ← Json.variantOf j
  contentOf (← Json.caseOf Kind.cases name) content

/-- A kind that stands alone. -/
def alone (kind : Kind) (rest : List Char) : Except Fault (Parsed CallError) :=
  match contentOf kind none with
  | .ok e => .ok (e, rest)
  | .error cause => Json.failOpen cause rest

def readContent (d : Nat) (name : String) (cs : List Char) : Except Fault (Parsed CallError) := do
  match ← Json.pickCase Kind.cases name cs with
  | .noResult =>
    let ((), r) ← Json.readUnit cs
    return (.noResult, r)
  | .rpc =>
    let ((code, message, ()), r) ← rpcFields.read rpcNoun d cs
    return (.rpc code message, r)
  | kind =>
    let (text, r) ← Json.readTextOf "a string" cs
    return (ofText kind text, r)

def read (d : Nat) (cs : List Char) : Except Fault (Parsed CallError) :=
  match Json.skipBlank cs with
  | [] => Json.failNext .eofValue []
  | '"' :: r => do
    let (name, r) ← Json.readString r
    alone (← Json.pickCase Kind.cases name r) r
  | '\x7b' :: r =>
    Json.within d (fun d =>
      Json.readTagged (readContent d)
        (fun name r => do let _ ← Json.pickCase Kind.cases name r)) r
  | r => Json.failNext .expectedValue r

def parse (text : String) : Except Fault CallError :=
  Json.finish (read Json.depthLimit text.toList)

end CallError

end WarmCompile
