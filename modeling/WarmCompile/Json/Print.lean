import WarmCompile.Json.Basic
import WarmCompile.Text.Shortest

/-!
The compact text of a JSON value, and the text laid out on lines.
-/

namespace WarmCompile.Json

def hexDigit (n : Nat) : Char :=
  Nat.digitChar n

/-- A character inside a quoted text; only marks, backslashes and controls are escaped. -/
def escapeChar (c : Char) : List Char :=
  if c = '"' then ['\\', '"']
  else if c = '\\' then ['\\', '\\']
  else if c = '\x08' then ['\\', 'b']
  else if c = '\t' then ['\\', 't']
  else if c = '\n' then ['\\', 'n']
  else if c = '\x0c' then ['\\', 'f']
  else if c = '\r' then ['\\', 'r']
  else if c < ' ' then ['\\', 'u', '0', '0', hexDigit (c.toNat / 16), hexDigit (c.toNat % 16)]
  else [c]

def quote (s : String) : List Char :=
  '"' :: s.toList.flatMap escapeChar ++ ['"']

def Number.print : Number → List Char
  | .natural n => Nat.toDigits 10 n
  | .negative n => '-' :: Nat.toDigits 10 n
  | .real bits => (Text.shortest bits).toList

def wordOf (b : Bool) : List Char :=
  if b then "true".toList else "false".toList

mutual
def print : Json → List Char
  | .null => "null".toList
  | .bool b => wordOf b
  | .number n => n.print
  | .text s => quote s
  | .list items => '[' :: printItems true items
  | .object ms => '\x7b' :: printMembers true ms

def printItems (first : Bool) : List Json → List Char
  | [] => [']']
  | j :: js => (if first then [] else [',']) ++ j.print ++ printItems false js

def printMembers (first : Bool) : List (String × Json) → List Char
  | [] => ['\x7d']
  | (k, j) :: ms =>
    (if first then [] else [',']) ++ quote k ++ ':' :: j.print ++ printMembers false ms
end

/-- The compact text. -/
def compact (j : Json) : String :=
  String.ofList j.print

def newLine (indent : Nat) : List Char :=
  '\n' :: List.replicate (2 * indent) ' '

mutual
/-- The text on lines, two more blanks for each level. -/
def layOut (indent : Nat) : Json → List Char
  | .list [] => "[]".toList
  | .object [] => ['\x7b', '\x7d']
  | .list (j :: js) => '[' :: layOutItems (indent + 1) true (j :: js) ++ newLine indent ++ [']']
  | .object (m :: ms) =>
    '\x7b' :: layOutMembers (indent + 1) true (m :: ms) ++ newLine indent ++ ['\x7d']
  | j => j.print

def layOutItems (indent : Nat) (first : Bool) : List Json → List Char
  | [] => []
  | j :: js =>
    (if first then [] else [',']) ++ newLine indent ++ j.layOut indent ++
      layOutItems indent false js

def layOutMembers (indent : Nat) (first : Bool) : List (String × Json) → List Char
  | [] => []
  | (k, j) :: ms =>
    (if first then [] else [',']) ++ newLine indent ++ quote k ++ ": ".toList ++ j.layOut indent ++
      layOutMembers indent false ms
end

def pretty (j : Json) : String :=
  String.ofList (j.layOut 0)

end WarmCompile.Json
