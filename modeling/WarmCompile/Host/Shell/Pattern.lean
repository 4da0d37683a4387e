/-!
Regular expressions without groups: characters, sets, `.`, repetition, anchors and alternatives.
-/

namespace WarmCompile.Shell

inductive Atom where
  | char (c : Char)
  | any
  | set (negated : Bool) (members : List Char)
  deriving DecidableEq, Repr

def Atom.fits (folded : Bool) : Atom → Char → Bool
  | .char d, c => if folded then c.toLower == d.toLower else c == d
  | .any, c => c != '\n'
  | .set negated members, c =>
    let foldedIn := folded && (members.contains c.toLower || members.contains c.toUpper)
    (members.contains c || foldedIn) != negated

/-- An atom, and how often it may stand there. -/
structure Item where
  atom : Atom
  least : Nat
  unbounded : Bool
  deriving DecidableEq, Repr

structure Branch where
  fromStart : Bool
  items : List Item
  toEnd : Bool
  deriving DecidableEq, Repr

structure Pattern where
  branches : List Branch
  /-- Whether letters of both cases are the same. -/
  folded : Bool
  deriving DecidableEq, Repr

namespace Pattern

/-- The members of a set with its ranges written out. -/
def members : List Char → List Char
  | [] => []
  | [c] => [c]
  | [c, d] => [c, d]
  | a :: '-' :: b :: r =>
    (List.range (b.toNat + 1 - a.toNat)).map (fun i => Char.ofNat (a.toNat + i)) ++ members r
  | c :: r => c :: members r

/-- A set behind its bracket; a closing bracket ahead is a member. -/
def readSet (cs : List Char) : Option (Atom × List Char) :=
  let (negated, r) := match cs with
    | '^' :: r => (true, r)
    | r => (false, r)
  match r with
  | [] => none
  | first :: r =>
    match r.dropWhile (· != ']') with
    | _ :: rest => some (.set negated (members (first :: r.takeWhile (· != ']'))), rest)
    | [] => none

/-- An atom at the front, and the text behind it. -/
def readAtom : List Char → Option (Atom × List Char)
  | [] => none
  | '.' :: r => some (.any, r)
  | '\\' :: 'n' :: r => some (.char '\n', r)
  | '\\' :: 't' :: r => some (.char '\t', r)
  | '\\' :: c :: r => some (.char c, r)
  | '[' :: r => readSet r
  | c :: r => some (.char c, r)

/-- How often the atom ahead may stand there. -/
def readRepeat (extended : Bool) : List Char → Nat × Bool × List Char
  | '*' :: r => (0, true, r)
  | '+' :: r => if extended then (1, true, r) else (1, false, '+' :: r)
  | '?' :: r => if extended then (0, false, r) else (1, false, '?' :: r)
  | '\\' :: '+' :: r => if extended then (1, false, '\\' :: '+' :: r) else (1, true, r)
  | '\\' :: '?' :: r => if extended then (1, false, '\\' :: '?' :: r) else (0, false, r)
  | r => (1, false, r)

/-- Items up to the end, or to a dollar sign there. -/
def readItems (extended : Bool) : Nat → List Char → Option (List Item × Bool)
  | 0, _ => none
  | _ + 1, [] => some ([], false)
  | _ + 1, ['$'] => some ([], true)
  | n + 1, cs => do
    let (atom, r) ← readAtom cs
    let (least, unbounded, r) := readRepeat extended r
    let (items, toEnd) ← readItems extended n r
    return (⟨atom, least, unbounded⟩ :: items, toEnd)

def readBranch (extended : Bool) (cs : List Char) : Option Branch := do
  let (fromStart, cs) := match cs with
    | '^' :: r => (true, r)
    | r => (false, r)
  let (items, toEnd) ← readItems extended (cs.length + 1) cs
  return ⟨fromStart, items, toEnd⟩

/-- The alternatives of a text, between bars that stand for themselves alone. -/
def splitBranches (extended : Bool) : List Char → List (List Char)
  | [] => [[]]
  | '\\' :: c :: r =>
    match splitBranches extended r with
    | b :: bs => if c = '|' && !extended then [] :: b :: bs else ('\\' :: c :: b) :: bs
    | [] => []
  | c :: r =>
    match splitBranches extended r with
    | b :: bs => if c = '|' && extended then [] :: b :: bs else (c :: b) :: bs
    | [] => []

def ofText? (extended folded : Bool) (cs : List Char) : Option Pattern := do
  return ⟨← (splitBranches extended cs).mapM (readBranch extended), folded⟩

/-- The pattern that a text fits only as it is. -/
def literal (folded : Bool) (cs : List Char) : Pattern :=
  ⟨[⟨false, cs.map fun c => ⟨.char c, 1, false⟩, false⟩], folded⟩

/-- What is left behind a match at the front; repetitions take as much as they can. -/
def behind (folded toEnd : Bool) : List Item → List Char → Option (List Char)
  | [], cs => if toEnd && !cs.isEmpty then none else some cs
  | i :: items, cs =>
    let run := (cs.takeWhile (i.atom.fits folded)).length
    let most := if i.unbounded then run else min run (max i.least 1)
    (List.range (most + 1 - i.least)).findSome? fun k =>
      behind folded toEnd items (cs.drop (most - k))

/-- What the longest match at the front leaves. -/
def atFront (p : Pattern) (start : Bool) (cs : List Char) : Option (List Char) :=
  let left := p.branches.filterMap fun b =>
    if b.fromStart && !start then none else behind p.folded b.toEnd b.items cs
  left.foldl (fun best r => match best with
    | none => some r
    | some b => if r.length < b.length then some r else some b) none

/-- The first match: what is ahead of it, the match, and what is behind it. -/
def find? (p : Pattern) (start : Bool) : List Char → Option (List Char × List Char × List Char)
  | [] => (p.atFront start []).map fun r => ([], [], r)
  | c :: r =>
    match p.atFront start (c :: r) with
    | some rest => some ([], (c :: r).take (r.length + 1 - rest.length), rest)
    | none => (p.find? false r).map fun (ahead, found, rest) => (c :: ahead, found, rest)

/-- A text cut at the matches: what is ahead of each one with the match, and what is left. An empty
match right behind another does not count. -/
def matchesIn (p : Pattern) : Nat → Bool → Bool → List Char →
    List (List Char × List Char) × List Char
  | 0, _, _, cs => ([], cs)
  | n + 1, start, behindMatch, cs =>
    match p.find? start cs with
    | none => ([], cs)
    | some (ahead, found, rest) =>
      if ahead.isEmpty && found.isEmpty && behindMatch then
        match cs with
        | [] => ([], [])
        | c :: r =>
          match p.matchesIn n false false r with
          | ((ahead, found) :: ms, left) => ((c :: ahead, found) :: ms, left)
          | ([], left) => ([], c :: left)
      else if found.isEmpty then
        match rest with
        | [] => ([(ahead, found)], [])
        | c :: r =>
          match p.matchesIn n false false r with
          | ((ahead', found') :: ms, left) => ((ahead, found) :: (c :: ahead', found') :: ms, left)
          | ([], left) => ([(ahead, found)], c :: left)
      else
        let (ms, left) := p.matchesIn n false true rest
        ((ahead, found) :: ms, left)

/-- All matches in a text, with what is ahead of each, and what is left. -/
def all (p : Pattern) (cs : List Char) : List (List Char × List Char) × List Char :=
  p.matchesIn (cs.length + 2) true false cs

end Pattern

end WarmCompile.Shell
