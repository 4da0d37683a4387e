import WarmCompile.Json.Token

/-!
Reading lists, objects and whole values. A reader of one item is handed to the loops, so that typed
readers share them.
-/

namespace WarmCompile.Json

/-- Whether another item stands before the closing bracket. -/
def nextItem (first : Bool) (cs : List Char) : Except Fault (Parsed Bool) :=
  match skipBlank cs with
  | [] => failNext .eofList []
  | ']' :: r => .ok (false, ']' :: r)
  | c :: r =>
    if first then .ok (true, c :: r)
    else if c = ',' then
      match skipBlank r with
      | [] => failNext .eofValue []
      | ']' :: r => failNext .trailingComma (']' :: r)
      | r => .ok (true, r)
    else failNext .expectedListEnd (c :: r)

/-- Whether another key stands before the closing brace; its mark is not yet read. -/
def nextKey (first : Bool) (cs : List Char) : Except Fault (Parsed Bool) :=
  match skipBlank cs with
  | [] => failNext .eofObject []
  | '\x7d' :: r => .ok (false, '\x7d' :: r)
  | c :: r =>
    if first then
      if c = '"' then .ok (true, r) else failNext .keyNotText (c :: r)
    else if c = ',' then
      match skipBlank r with
      | [] => failNext .eofValue []
      | '"' :: r => .ok (true, r)
      | '\x7d' :: r => failNext .trailingComma ('\x7d' :: r)
      | r => failNext .keyNotText r
    else failNext .expectedObjectEnd (c :: r)

def readColon (cs : List Char) : Except Fault (List Char) :=
  match skipBlank cs with
  | [] => failNext .eofObject []
  | ':' :: r => .ok r
  | r => failNext .expectedColon r

/-- Leaves a list behind its bracket; an open fault is placed as far as that goes. -/
def closeList {α : Type} : Except Fault (Parsed α) → Except Fault (Parsed α)
  | .ok (a, cs) =>
    match skipBlank cs with
    | [] => failNext .eofList []
    | ']' :: r => .ok (a, r)
    | ',' :: r =>
      match skipBlank r with
      | ']' :: r => failNext .trailingComma (']' :: r)
      | r => failNext .trailingCharacters r
    | r => failNext .trailingCharacters r
  | .error f =>
    match f.place with
    | .located _ => .error f
    | .floating cs =>
      match skipBlank cs with
      | ']' :: r => failHere f.cause r
      | ',' :: r => failHere f.cause (skipBlank r)
      | r => failHere f.cause r

/-- Leaves an object behind its brace; an open fault is placed as far as that goes. -/
def closeObject {α : Type} : Except Fault (Parsed α) → Except Fault (Parsed α)
  | .ok (a, cs) =>
    match skipBlank cs with
    | [] => failNext .eofObject []
    | '\x7d' :: r => .ok (a, r)
    | ',' :: r => failNext .trailingComma (',' :: r)
    | r => failNext .trailingCharacters r
  | .error f =>
    match f.place with
    | .located _ => .error f
    | .floating cs =>
      match skipBlank cs with
      | '\x7d' :: r => failHere f.cause r
      | r => failHere f.cause r

/-- The items up to the closing bracket; the fuel is the number of characters. -/
def readItems {α : Type} (item : List Char → Except Fault (Parsed α)) :
    Nat → Bool → List Char → Except Fault (Parsed (List α))
  | 0, _, _ => failHere .eofList []
  | n + 1, first, cs => do
    let (more, cs) ← nextItem first cs
    if more then
      let (a, cs) ← item cs
      let (as, cs) ← readItems item n false cs
      return (a :: as, cs)
    else return ([], cs)

/-- The members up to the closing brace, each taken in by `member`. -/
def readMembers {σ : Type} (member : σ → String → List Char → Except Fault (Parsed σ)) :
    Nat → Bool → σ → List Char → Except Fault (Parsed σ)
  | 0, _, _, _ => failHere .eofObject []
  | n + 1, first, s, cs => do
    let (more, cs) ← nextKey first cs
    if more then
      let (key, cs) ← readString cs
      let (s, cs) ← member s key cs
      readMembers member n false s cs
    else return (s, cs)

/-- A value that is no list or object; those are left to the two readers behind their bracket. -/
def readWith (list object : List Char → Except Fault (Parsed Json)) (cs : List Char) :
    Except Fault (Parsed Json) :=
  match skipBlank cs with
  | [] => failNext .eofValue []
  | 'n' :: r => do return (.null, ← readWord "ull".toList r)
  | 't' :: r => do return (.bool true, ← readWord "rue".toList r)
  | 'f' :: r => do return (.bool false, ← readWord "alse".toList r)
  | '"' :: r => do let (s, r) ← readString r; return (.text s, r)
  | '-' :: r => do let (n, r) ← readNumber true r; return (.number n, r)
  | '[' :: r => list r
  | '\x7b' :: r => object r
  | c :: r =>
    if isDigit c then do let (n, r) ← readNumber false (c :: r); return (.number n, r)
    else failNext .expectedValue (c :: r)

def tooDeep {α : Type} (r : List Char) : Except Fault α :=
  failHere .recursionLimit r

/-- A value with at most so many brackets around any part of it. -/
def readValue : Nat → List Char → Except Fault (Parsed Json)
  | 0 => readWith tooDeep tooDeep
  | d + 1 =>
    readWith
      (fun r => closeList do
        let (items, r) ← readItems (readValue d) (r.length + 1) true r
        return (.list items, r))
      (fun r => closeObject do
        let member := fun ms key cs => do
          let (v, cs) ← readValue d (← readColon cs)
          return ((key, v) :: ms, cs)
        let (ms, r) ← readMembers member (r.length + 1) true [] r
        return (.object ms.reverse, r))

/-- How deeply brackets may be nested. -/
def depthLimit : Nat := 127

/-- Nothing but blanks may follow. -/
def finish {α : Type} : Except Fault (Parsed α) → Except Fault α
  | .error f => .error f
  | .ok (a, cs) =>
    match skipBlank cs with
    | [] => .ok a
    | r => failNext .trailingCharacters r

/-- The value that a whole text is. -/
def parse (text : String) : Except Fault Json :=
  finish (readValue depthLimit text.toList)

end WarmCompile.Json
