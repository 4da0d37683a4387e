import WarmCompile.Json.Basic
import WarmCompile.Text.Quoted
import WarmCompile.Text.Shortest
import WarmCompile.Text.Utf8

/-!
What can be wrong with a JSON text or with a value read from it, and where in the text it is found.
-/

namespace WarmCompile.Json

open Text (bytes)

/-- What stands where something else is expected. -/
inductive Found where
  | null
  | bool (b : Bool)
  | number (n : Number)
  | text (s : String)
  | list
  | object
  | unitVariant
  deriving DecidableEq, Repr, Inhabited

inductive Cause where
  | eofValue
  | eofList
  | eofObject
  | eofString
  | expectedColon
  | expectedListEnd
  | expectedObjectEnd
  | expectedWord
  | expectedValue
  | keyNotText
  | trailingComma
  | trailingCharacters
  | invalidNumber
  | numberOutOfRange
  | invalidEscape
  | hexEscapeEnds
  | loneSurrogate
  | controlCharacter
  | recursionLimit
  | missingField (name : String)
  | duplicateField (name : String)
  | unknownVariant (name : String) (known : List String)
  | invalidType (found : Found) (expected : String)
  | invalidValue (found : Found) (expected : String)
  | invalidLength (length : Nat) (expected : String)
  | noVariant (name : String)
  deriving DecidableEq, Repr, Inhabited

/-- The three families of causes. -/
inductive Family where
  | malformed
  | ended
  | unfit
  deriving DecidableEq, Repr

def Cause.family : Cause → Family
  | .eofValue | .eofList | .eofObject | .eofString => .ended
  | .missingField _ | .duplicateField _ | .unknownVariant .. | .invalidType .. | .invalidValue ..
  | .invalidLength .. | .noVariant _ => .unfit
  | _ => .malformed

def Number.message : Number → String
  | .natural n => "integer `" ++ toString n ++ "`"
  | .negative n => "integer `-" ++ toString n ++ "`"
  | .real bits => "floating point `" ++ Text.shortest bits ++ "`"

def Found.message : Found → String
  | .null => "null"
  | .bool b => "boolean `" ++ toString b ++ "`"
  | .number n => n.message
  | .text s => "string " ++ Text.quoted s
  | .list => "sequence"
  | .object => "map"
  | .unitVariant => "unit variant"

/-- What a value is when another was expected. -/
def found : Json → Found
  | .null => .null
  | .bool b => .bool b
  | .number n => .number n
  | .text s => .text s
  | .list _ => .list
  | .object _ => .object

def backticked (s : String) : String :=
  "`" ++ s ++ "`"

/-- One or two names are joined by `or`, more are listed. -/
def alternatives : List String → String
  | [] => "there are no variants"
  | [a] => "expected " ++ backticked a
  | [a, b] => "expected " ++ backticked a ++ " or " ++ backticked b
  | names => "expected one of " ++ ", ".intercalate (names.map backticked)

def Cause.message : Cause → String
  | .eofValue => "EOF while parsing a value"
  | .eofList => "EOF while parsing a list"
  | .eofObject => "EOF while parsing an object"
  | .eofString => "EOF while parsing a string"
  | .expectedColon => "expected `:`"
  | .expectedListEnd => "expected `,` or `]`"
  | .expectedObjectEnd => "expected `,` or `\x7d`"
  | .expectedWord => "expected ident"
  | .expectedValue => "expected value"
  | .keyNotText => "key must be a string"
  | .trailingComma => "trailing comma"
  | .trailingCharacters => "trailing characters"
  | .invalidNumber => "invalid number"
  | .numberOutOfRange => "number out of range"
  | .invalidEscape => "invalid escape"
  | .hexEscapeEnds => "unexpected end of hex escape"
  | .loneSurrogate => "lone leading surrogate in hex escape"
  | .controlCharacter => "control character (\\u0000-\\u001F) found while parsing a string"
  | .recursionLimit => "recursion limit exceeded"
  | .missingField name => "missing field " ++ backticked name
  | .duplicateField name => "duplicate field " ++ backticked name
  | .unknownVariant name known =>
    "unknown variant " ++ backticked name ++ ", " ++ alternatives known
  | .invalidType f expected => "invalid type: " ++ f.message ++ ", expected " ++ expected
  | .invalidValue f expected => "invalid value: " ++ f.message ++ ", expected " ++ expected
  | .invalidLength n expected => "invalid length " ++ toString n ++ ", expected " ++ expected
  | .noVariant name => "data did not match any variant of untagged enum " ++ name

/-- A fault lies so many bytes before the end, or wherever reading stands when the value around it
has been left. -/
inductive Place where
  | located (left : Nat)
  | floating (rest : List Char)
  deriving DecidableEq, Repr, Inhabited

structure Fault where
  cause : Cause
  place : Place
  deriving DecidableEq, Repr, Inhabited

/-- Something read, and the text behind it. -/
abbrev Parsed (α : Type) := α × List Char

/-- A fault at the end of what was read so far. -/
def failHere {α : Type} (cause : Cause) (rest : List Char) : Except Fault α :=
  .error ⟨cause, .located (bytes rest)⟩

/-- A fault at the next byte. -/
def failNext {α : Type} (cause : Cause) (rest : List Char) : Except Fault α :=
  .error ⟨cause, .located (bytes rest - 1)⟩

def failOpen {α : Type} (cause : Cause) (rest : List Char) : Except Fault α :=
  .error ⟨cause, .floating rest⟩

/-- A fault that is still open is placed where reading stands. -/
def Fault.settle (f : Fault) : Fault :=
  match f.place with
  | .located _ => f
  | .floating rest => ⟨f.cause, .located (bytes rest)⟩

/-- Line and column after so many bytes; columns count bytes since the last line feed. -/
def lineColumn (line column : Nat) : List Char → Nat → Nat × Nat
  | [], _ => (line, column)
  | _ :: _, 0 => (line, column)
  | c :: cs, n =>
    if c = '\n' then lineColumn (line + 1) 0 cs (n - 1)
    else if n ≤ c.utf8Size then (line, column + n)
    else lineColumn line (column + c.utf8Size) cs (n - c.utf8Size)

/-- A fault that stays open is told without its place. -/
def Fault.message (input : List Char) (f : Fault) : String :=
  match f.place with
  | .floating _ => f.cause.message
  | .located left =>
    let (line, column) := lineColumn 1 0 input (bytes input - left)
    f.cause.message ++ " at line " ++ toString line ++ " column " ++ toString column

end WarmCompile.Json
