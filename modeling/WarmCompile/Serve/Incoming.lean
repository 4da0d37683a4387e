import WarmCompile.Wire.Response
import WarmCompile.Session.Actor

/-!
What a line asks for, and the response that a request gets.
-/

namespace WarmCompile

inductive Incoming where
  | blank
  /-- No request; this is the answer. -/
  | refused (response : Response)
  | request (request : Request)

namespace Incoming

/-- The id of a line that is no request; of several ids the last one counts. -/
def idOf (text : String) : String :=
  match Json.parse text with
  | .ok (.object ms) =>
    match (Table.ofList ms).find? "id" with
    | some (.text id) => id
    | _ => "unknown"
  | _ => "unknown"

def ofLine (line : String) : Incoming :=
  let text := Text.trimmed line
  if text.isEmpty then .blank
  else match Request.parse text with
    | .ok r => .request r
    | .error f =>
      .refused (.rpc (idOf text) Response.parseError ("Parse error: " ++ f.message text.toList))

end Incoming

/-- What the session is asked; a ping is no matter of its own. -/
def Call.message? : Call → Option Message
  | .ping _ => none
  | .init params => some (.init params)
  | .compile params => some (.compile params.fileName)

def Answer.toReply : Answer → Reply
  | .init result => .init (.ofExcept (fun (project, files) => ⟨project, files⟩) result)
  | .compile result => .compile (.ofExcept (fun files => ⟨files⟩) result)

/-- The response to a request, from how its call to the session ended. -/
def Request.respond (r : Request) (ending : Option Ending) : Response :=
  match r.call, ending with
  | .ping params, _ => ⟨r.id, .ok (.ping (PingResult.replyTo params))⟩
  | _, some (.answered answer) => ⟨r.id, .ok answer.toReply⟩
  | _, _ => .rpc r.id Response.sessionGone goneText

end WarmCompile
