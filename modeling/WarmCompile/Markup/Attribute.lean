import WarmCompile.Markup.Event

/-!
Looking for an attribute of a tag, from left to right and no further than it stands.
-/

namespace WarmCompile.Markup

open Text (bytes)

/-- Positions are bytes of the tag between its brackets. -/
inductive AttributeFault where
  | keyAlone (position : Nat)
  | noValue (position : Nat)
  | unquoted (position : Nat)
  | openQuote (position : Nat) (quote : Char)
  deriving DecidableEq, Repr, Inhabited

def AttributeFault.message : AttributeFault → String
  | .keyAlone p =>
    "position " ++ toString p ++ ": attribute key must be directly followed by `=` or space"
  | .noValue p => "position " ++ toString p ++ ": `=` must be followed by an attribute value"
  | .unquoted p =>
    "position " ++ toString p ++ ": attribute value must be enclosed in `\"` or `'`"
  | .openQuote p q =>
    "position " ++ toString p ++ ": missing closing quote `" ++ q.toString ++ "` in attribute value"

/-- A key is at least one character, whichever, and ends before a blank or an equals sign. -/
def splitKey : List Char → List Char × List Char
  | [] => ([], [])
  | c :: r =>
    (c :: r.takeWhile fun c => c != '=' && !isBlank c,
      r.dropWhile fun c => c != '=' && !isBlank c)

/-- The quoted value behind a key, with what follows it; `size` is the length of the tag. -/
def splitValue (size : Nat) (cs : List Char) : Except AttributeFault (List Char × List Char) :=
  let at_ := fun (r : List Char) => size - bytes r
  match cs.dropWhile isBlank with
  | '=' :: r =>
    match r.dropWhile isBlank with
    | [] => .error (.noValue size)
    | q :: r =>
      if q = '"' ∨ q = '\'' then
        match r.dropWhile (· != q) with
        | [] => .error (.openQuote size q)
        | _ :: rest => .ok (r.takeWhile (· != q), rest)
      else .error (.unquoted (at_ (q :: r)))
  | r => .error (.keyAlone (at_ r))

/-- The value of the first attribute called `name` in the rest of a tag; the fuel is the number of
characters left. -/
def findFrom (name : List Char) (size : Nat) : Nat → List Char →
    Except AttributeFault (Option (List Char))
  | 0, _ => .ok none
  | n + 1, cs =>
    match cs.dropWhile isBlank with
    | [] => .ok none
    | c :: r => do
      let (key, behind) := splitKey (c :: r)
      let (value, rest) ← splitValue size behind
      if key = name then return some value else findFrom name size n rest

def attribute? (name tag : List Char) : Except AttributeFault (Option (List Char)) :=
  findFrom name (bytes tag) (tag.length + 1) (tag.drop (tagName tag).length)

end WarmCompile.Markup
