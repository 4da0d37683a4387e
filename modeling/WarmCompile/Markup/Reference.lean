import WarmCompile.Markup.Scan

/-!
Entity and character references, one by one and in a whole attribute value.
-/

namespace WarmCompile.Markup

open Text (bytes)

/-- Why a character reference names no character. -/
inductive NumberFault where
  | signed
  | empty
  | invalidDigit
  | tooLarge
  | zero
  | noCharacter (n : Nat)
  deriving DecidableEq, Repr, Inhabited

def NumberFault.message (f : NumberFault) : String :=
  "invalid character reference: " ++
    match f with
    | .signed => "unexpected number sign"
    | .empty => "cannot parse integer from empty string"
    | .invalidDigit => "invalid digit found in string"
    | .tooLarge => "number too large to fit in target type"
    | .zero => "0x0 character is not permitted in XML"
    | .noCharacter n => "`" ++ toString n ++ "` is not a valid codepoint"

def digitIn? (base : Nat) (c : Char) : Option Nat :=
  let v :=
    if '0' ≤ c ∧ c ≤ '9' then some (c.toNat - '0'.toNat)
    else if 'a' ≤ c ∧ c ≤ 'z' then some (c.toNat - 'a'.toNat + 10)
    else if 'A' ≤ c ∧ c ≤ 'Z' then some (c.toNat - 'A'.toNat + 10)
    else none
  v.filter (· < base)

/-- Digits continue a number of 32 bits. -/
def continueNumber (base n : Nat) : List Char → Except NumberFault Nat
  | [] => .ok n
  | c :: r =>
    match digitIn? base c with
    | none => .error .invalidDigit
    | some d =>
      if 0x100000000 ≤ base * n + d then .error .tooLarge else continueNumber base (base * n + d) r

def numberOf (base : Nat) (ds : List Char) : Except NumberFault Nat :=
  match ds with
  | [] => .error .empty
  | c :: _ => if c = '+' ∨ c = '-' then .error .signed else continueNumber base 0 ds

/-- The character with a number written in decimal, or in hexadecimal behind an `x`. -/
def characterOf (ds : List Char) : Except NumberFault Char := do
  let n ← match ds with
    | 'x' :: hex => numberOf 16 hex
    | ds => numberOf 10 ds
  if n = 0 then .error .zero
  else if n.isValidChar then .ok (Char.ofNat n)
  else .error (.noCharacter n)

/-- The five names known to every document. -/
def predefined? (name : List Char) : Option Char :=
  if name = "lt".toList then some '<'
  else if name = "gt".toList then some '>'
  else if name = "amp".toList then some '&'
  else if name = "apos".toList then some '\''
  else if name = "quot".toList then some '"'
  else none

/-- The character a reference stands for; there is none for an unknown name. -/
def resolve (name : List Char) : Except NumberFault (Option Char) :=
  match name with
  | '#' :: ds => do return some (← characterOf ds)
  | name => .ok (predefined? name)

/-- What is wrong in an attribute value, with the bytes of it that are concerned. -/
inductive ValueFault where
  | number (fault : NumberFault)
  | unterminated (start stop : Nat)
  | unknown (start stop : Nat) (name : List Char)
  deriving DecidableEq, Repr, Inhabited

def ValueFault.message : ValueFault → String
  | .number f => f.message
  | .unterminated start stop =>
    "Error while escaping character at range " ++ toString start ++ ".." ++ toString stop ++
      ": Cannot find ';' after '&'"
  | .unknown start stop name =>
    "at " ++ toString start ++ ".." ++ toString stop ++ ": unrecognized entity `" ++
      String.ofList name ++ "`"

/-- The rest of an attribute value of `size` bytes with its references resolved. -/
def unescapeFrom (size offset : Nat) (cs : List Char) : Except ValueFault (List Char) :=
  match cs with
  | [] => .ok []
  | c :: r =>
    if c = '&' then
      match h : splitReference ['&'] r with
      | none => .error (.unterminated offset size)
      | some (name, rest) =>
        have : rest.length < r.length := length_lt_of_splitReference h
        match resolve name with
        | .error f => .error (.number f)
        | .ok none => .error (.unknown (offset + 1) (offset + 1 + bytes name) name)
        | .ok (some d) => do return d :: (← unescapeFrom size (offset + bytes name + 2) rest)
    else do return c :: (← unescapeFrom size (offset + c.utf8Size) r)
  termination_by cs.length

def unescape (value : List Char) : Except ValueFault (List Char) :=
  unescapeFrom (bytes value) 0 value

end WarmCompile.Markup
