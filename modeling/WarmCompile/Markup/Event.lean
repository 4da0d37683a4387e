import WarmCompile.Text.Utf8

/-!
Markup texts as a stream of events. The stream of a text is as long as the text makes sense and may
end in a fault at a byte of it.
-/

namespace WarmCompile.Markup

open Text (bytes)

inductive Event where
  /-- What stands between the brackets of a tag that opens an element. -/
  | opening (tag : List Char)
  /-- The same for an element without content, less its slash. -/
  | empty (tag : List Char)
  | closing (name : List Char)
  | text (content : List Char)
  /-- What stands between `&` and `;`. -/
  | reference (name : List Char)
  /-- Comments, sections, declarations and instructions. -/
  | aside
  deriving DecidableEq, Repr, Inhabited

inductive Cause where
  | openTag
  | openComment
  | openSection
  | openDoctype
  | openInstruction
  | openReference
  | unknownMarkup
  | namelessDoctype
  | wrongEnd (expected found : List Char)
  | strayEnd (found : List Char)
  deriving DecidableEq, Repr, Inhabited

structure Fault where
  position : Nat
  cause : Cause
  deriving DecidableEq, Repr, Inhabited

/-- The events of a text, and the fault that ends them if there is one. -/
structure Stream where
  events : List Event
  fault : Option Fault
  deriving DecidableEq, Repr, Inhabited

def Stream.cons (e : Event) (s : Stream) : Stream :=
  ⟨e :: s.events, s.fault⟩

def endTag (name : List Char) : String :=
  "`</" ++ String.ofList name ++ ">`"

def Cause.message : Cause → String
  | .openTag => "syntax error: tag not closed: `>` not found before end of input"
  | .openComment => "syntax error: comment not closed: `-->` not found before end of input"
  | .openSection => "syntax error: CDATA not closed: `]]>` not found before end of input"
  | .openDoctype => "syntax error: DOCTYPE not closed: `>` not found before end of input"
  | .openInstruction =>
    "syntax error: processing instruction or xml declaration not closed: " ++
      "`?>` not found before end of input"
  | .openReference =>
    "ill-formed document: entity or character reference not closed: " ++
      "`;` not found before end of input"
  | .unknownMarkup => "syntax error: unknown or missed symbol in markup"
  | .namelessDoctype =>
    "ill-formed document: `<!DOCTYPE>` declaration does not contain a name of a document type"
  | .wrongEnd expected found =>
    "ill-formed document: expected " ++ endTag expected ++ ", but " ++ endTag found ++ " was found"
  | .strayEnd found =>
    "ill-formed document: close tag " ++ endTag found ++ " does not match any open tag"

def Fault.message (f : Fault) : String :=
  "error at position " ++ toString f.position ++ ": " ++ f.cause.message

/-- White space inside tags. -/
def isBlank (c : Char) : Bool :=
  c == ' ' || c == '\r' || c == '\n' || c == '\t'

/-- The name of a tag ends at the first blank. -/
def tagName (tag : List Char) : List Char :=
  tag.takeWhile (!isBlank ·)

/-- A name without what stands before its first colon. -/
def localName (name : List Char) : List Char :=
  match name.dropWhile (· != ':') with
  | [] => name
  | _ :: r => r

end WarmCompile.Markup
