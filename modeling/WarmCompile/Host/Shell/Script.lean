/-!
Scripts of a small command language. A text is a list of bytes, each written as the character with
its number.
-/

namespace WarmCompile.Shell

abbrev Bytes := List Char

def toBytes (s : String) : Bytes :=
  s.toUTF8.toList.map fun b => Char.ofNat b.toNat

def ofBytes (bs : Bytes) : List UInt8 :=
  bs.map fun c => c.toNat.toUInt8

/-- What becomes of a variable on its way into a word. With `orEmpty` an empty variable counts as
one that is not set. -/
inductive Change where
  | none
  | length
  /-- A word stands in for a variable that is not set. -/
  | orElse (orEmpty : Bool) (word : Bytes)
  /-- It also becomes the value of the variable. -/
  | orAssign (orEmpty : Bool) (word : Bytes)
  /-- A variable that is not set ends the script with a message. -/
  | orStop (orEmpty : Bool) (message : Bytes)
  /-- A word stands in for a variable that is set. -/
  | instead (orEmpty : Bool) (word : Bytes)
  /-- What fits a pattern at one of the ends is left out. -/
  | trim (atEnd longest : Bool) (pattern : Bytes)
  deriving Repr, Inhabited

/-- A part of a word. -/
inductive Piece where
  | plain (text : Bytes) (quoted : Bool)
  | variable (name : Bytes) (change : Change) (quoted : Bool)
  /-- The output of a script. -/
  | output (script : Bytes) (quoted : Bool)
  /-- The value of an expression. -/
  | number (expression : Bytes) (quoted : Bool)
  deriving Repr, Inhabited

def Piece.isOutput : Piece → Bool
  | .output .. => true
  | _ => false

abbrev Word := List Piece

inductive Redirect where
  | toFile (fd : Nat) (append : Bool) (target : Word)
  | fromFile (target : Word)
  | fromText (text : Word)
  | copy (fd target : Nat)
  | close (fd : Nat)
  deriving Repr, Inhabited

inductive Command where
  /-- `below` tells how many lines of the script end behind the start of the command. -/
  | simple (below : Nat) (assignments : List (Bytes × Word)) (words : List Word)
  | choose (subject : Word) (arms : List (List Word × Command))
  | branch (condition yes no : Command)
  | repeatWhile (condition body : Command)
  /-- Without words it goes through the arguments. -/
  | forEach (name : Bytes) (words : Option (List Word)) (body : Command)
  | define (name : Bytes) (body : Command)
  | inner (body : Command)
  | redirected (body : Command) (redirects : List Redirect)
  | pipe (left right : Command)
  | both (left right : Command)
  | either (left right : Command)
  | negated (body : Command)
  | sequence (parts : List Command)
  deriving Repr, Inhabited

def dollar : Char := '$'

def backquote : Char := Char.ofNat 96

def isNameChar (c : Char) : Bool := c.isAlphanum || c == '_'

/-- Whether a character ends a word that is not quoted. -/
def isMeta (c : Char) : Bool := c ∈ [' ', '\t', '\n', ';', '&', '|', '<', '>', '(', ')']

def isKeyword (w : Bytes) : Bool :=
  String.ofList w ∈ ["if", "then", "elif", "else", "fi", "while", "until", "for", "in", "do",
    "done", "case", "esac", "!", "\x7b", "\x7d"]

/-- Why a text is no script. -/
inductive SyntaxFault where
  /-- What stands at the front of the rest should not be there. -/
  | unexpected (rest : Bytes) (expecting : Option String)
  | openQuote
  | openBackquote
  | openBrace
  | badSubstitution
  deriving Repr, Inhabited

/-- What stands at the front of a text, as messages name it. -/
def tokenName : Bytes → String
  | [] => "end of file"
  | '\n' :: _ => "newline"
  | ';' :: ';' :: _ => "\";;\""
  | '&' :: '&' :: _ => "\"&&\""
  | '|' :: '|' :: _ => "\"||\""
  | '<' :: _ | '>' :: _ => "redirection"
  | c :: r =>
    if isMeta c then "\"" ++ String.singleton c ++ "\""
    else
      let w := (c :: r).takeWhile (!isMeta ·)
      if isKeyword w then "\"" ++ String.ofList w ++ "\"" else "word"

namespace SyntaxFault

def message : SyntaxFault → String
  | .unexpected rest none => "Syntax error: " ++ tokenName rest ++ " unexpected"
  | .unexpected rest (some token) =>
    "Syntax error: " ++ tokenName rest ++ " unexpected (expecting \"" ++ token ++ "\")"
  | .openQuote => "Syntax error: Unterminated quoted string"
  | .openBackquote => "Syntax error: EOF in backquote substitution"
  | .openBrace => "Syntax error: Missing '\x7d'"
  | .badSubstitution => "Syntax error: Bad substitution"

/-- How many lines end behind the fault. -/
def below : SyntaxFault → Nat
  | .unexpected rest _ => rest.count '\n'
  | _ => 0

end SyntaxFault

end WarmCompile.Shell
