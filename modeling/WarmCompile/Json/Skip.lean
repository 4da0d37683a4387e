import WarmCompile.Json.Read

/-!
Passing over a value that nobody asks for: brackets have to match, but nesting has no limit, numbers
no size, and escapes need not make sense.
-/

namespace WarmCompile.Json

open Text (bytes)

def skipString : List Char → Except Fault (List Char)
  | [] => failHere .eofString []
  | '"' :: r => .ok r
  | '\\' :: [] => failHere .eofString []
  | '\\' :: 'u' :: r =>
    match r with
    | a :: b :: c :: d :: rest =>
      if (hexDigits? [a, b, c, d]).isSome then skipString rest
      else .error ⟨.invalidEscape, .located (bytes r - 4)⟩
    | _ =>
      if bytes r < 4 then failHere .eofString []
      else .error ⟨.invalidEscape, .located (bytes r - 4)⟩
  | '\\' :: c :: r =>
    if (shortEscape? c).isSome then skipString r else failNext .invalidEscape (c :: r)
  | c :: r =>
    if c < ' ' then failHere .controlCharacter (c :: r) else skipString r

def skipPower (cs : List Char) : Except Fault (List Char) :=
  let cs := match cs with
    | '+' :: r | '-' :: r => r
    | r => r
  let (ds, r) := readDigits cs
  if ds.isEmpty then failNext .invalidNumber r else .ok r

def skipFraction (cs : List Char) : Except Fault (List Char) :=
  let (ds, r) := readDigits cs
  if ds.isEmpty then failNext .invalidNumber r
  else match r with
    | 'e' :: r | 'E' :: r => skipPower r
    | r => .ok r

def skipNumber : List Char → Except Fault (List Char)
  | [] => failHere .invalidNumber []
  | c :: r =>
    if !isDigit c then failNext .invalidNumber (c :: r)
    else if c = '0' ∧ (r.head?.any isDigit) then failNext .invalidNumber r
    else match (readDigits (c :: r)).2 with
      | '.' :: r => skipFraction r
      | 'e' :: r | 'E' :: r => skipPower r
      | r => .ok r

/-- An open bracket. -/
inductive Frame where
  | list
  | object
  deriving DecidableEq, Repr

/-- Where skipping goes on: at a value, or inside the innermost bracket after an item or at its
start. -/
inductive Skipping where
  | value
  | inside (afterItem : Bool)

/-- The key of the next member, up to its colon. -/
def skipKey (cs : List Char) : Except Fault (List Char) :=
  match skipBlank cs with
  | [] => failNext .eofObject []
  | '"' :: r => do readColon (← skipString r)
  | r => failNext .keyNotText r

def skipFrom : Nat → Skipping → List Frame → List Char → Except Fault (List Char)
  | 0, _, _, _ => failHere .eofValue []
  | n + 1, .value, frames, cs =>
    let scalar := fun (r : Except Fault (List Char)) => do
      skipFrom n (.inside true) frames (← r)
    match skipBlank cs with
    | [] => failNext .eofValue []
    | 'n' :: r => scalar (readWord "ull".toList r)
    | 't' :: r => scalar (readWord "rue".toList r)
    | 'f' :: r => scalar (readWord "alse".toList r)
    | '"' :: r => scalar (skipString r)
    | '-' :: r => scalar (skipNumber r)
    | '[' :: r => skipFrom n (.inside false) (.list :: frames) r
    | '\x7b' :: r => skipFrom n (.inside false) (.object :: frames) r
    | c :: r => if isDigit c then scalar (skipNumber (c :: r)) else failNext .expectedValue (c :: r)
  | _ + 1, .inside _, [], cs => .ok cs
  | n + 1, .inside afterItem, .list :: frames, cs =>
    match skipBlank cs with
    | [] => failNext .eofList []
    | ']' :: r => skipFrom n (.inside true) frames r
    | c :: r =>
      if !afterItem then skipFrom n .value (.list :: frames) (c :: r)
      else if c = ',' then skipFrom n .value (.list :: frames) r
      else failNext .expectedListEnd (c :: r)
  | n + 1, .inside afterItem, .object :: frames, cs =>
    match skipBlank cs with
    | [] => failNext .eofObject []
    | '\x7d' :: r => skipFrom n (.inside true) frames r
    | c :: r =>
      if !afterItem then do skipFrom n .value (.object :: frames) (← skipKey (c :: r))
      else if c = ',' then do skipFrom n .value (.object :: frames) (← skipKey r)
      else failNext .expectedObjectEnd (c :: r)

/-- What stands behind the next value. -/
def skipValue (cs : List Char) : Except Fault (List Char) :=
  skipFrom (2 * cs.length + 2) .value [] cs

end WarmCompile.Json
