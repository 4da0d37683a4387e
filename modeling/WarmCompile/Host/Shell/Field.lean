import WarmCompile.Host.Shell.Pattern
import WarmCompile.Host.Shell.State

/-!
From the parts of a word to the fields they come to: cut where variables hold separators, and
replaced by the files that fit them.
-/

namespace WarmCompile.Shell

/-- How a part of a word is treated: as written, cut at separators, or kept whole. -/
inductive Treatment where
  | written
  | cut
  | whole
  deriving DecidableEq, Repr

abbrev Part := Bytes × Treatment

/-- A character, and whether it stands for itself alone. -/
abbrev Mark := Char × Bool

def plainOf (marks : List Mark) : Bytes :=
  marks.map (·.1)

def marksOf (parts : List Part) : List Mark :=
  parts.flatMap fun (t, treatment) => t.map fun c => (c, treatment = .whole)

def isSpace (c : Char) : Bool := c == ' ' || c == '\t' || c == '\n'

/-- Fields, the last one still growing; `spaced` tells that blanks have just ended one. -/
structure Cutting where
  done : List (List Mark)
  growing : Option (List Mark)
  spaced : Bool

namespace Cutting

def start : Cutting := ⟨[], none, false⟩

def grow (c : Cutting) (marks : List Mark) : Cutting :=
  ⟨c.done, some (c.growing.getD [] ++ marks), false⟩

/-- A separator. Blanks around another one are no separators of their own. -/
def separate (c : Cutting) (blank : Bool) : Cutting :=
  match c.growing with
  | some field => ⟨c.done ++ [field], none, blank⟩
  | none =>
    if blank then c
    else if c.spaced then { c with spaced := false }
    else { c with done := c.done ++ [[]] }

def take (separators : Bytes) (c : Cutting) (part : Part) : Cutting :=
  match part with
  | (t, .cut) =>
    t.foldl (fun c x =>
      if separators.contains x then c.separate (isSpace x) else c.grow [(x, false)]) c
  | (t, .written) => if t.isEmpty then c else c.grow (t.map fun x => (x, false))
  | (t, .whole) => c.grow (t.map fun x => (x, true))

def fields (c : Cutting) : List (List Mark) :=
  c.done ++ c.growing.toList

end Cutting

/-- The fields that the parts of a word come to. -/
def cutParts (separators : Bytes) (parts : List Part) : List (List Mark) :=
  (parts.foldl (Cutting.take separators) .start).fields

def anyTail (f : Bytes → Bool) : Bytes → Bool
  | [] => f []
  | c :: r => f (c :: r) || anyTail f r

/-- Whether a character is in a set that begins behind its bracket; what follows the set. -/
def inSet? (ps : List Mark) (c : Char) : Option (Bool × List Mark) :=
  let (negated, ps) := match ps with
    | ('!', false) :: r | ('^', false) :: r => (true, r)
    | r => (false, r)
  match ps with
  | [] => none
  | first :: r =>
    let inside := first :: r.takeWhile (· != (']', false))
    match r.dropWhile (· != (']', false)) with
    | [] => none
    | _ :: behind => some ((Pattern.members (plainOf inside)).contains c != negated, behind)

/-- Whether a text fits a pattern; the fuel is the length of the pattern. -/
def fitsFrom : Nat → List Mark → Bytes → Bool
  | 0, ps, cs => ps.isEmpty && cs.isEmpty
  | _ + 1, [], cs => cs.isEmpty
  | n + 1, (p, literal) :: ps, cs =>
    if p = '*' && !literal then anyTail (fitsFrom n ps) cs
    else match cs with
      | [] => false
      | c :: r =>
        if p = '?' && !literal then fitsFrom n ps r
        else match (if p = '[' && !literal then inSet? ps c else none) with
          | some (isIn, behind) => isIn && fitsFrom n behind r
          | none => p == c && fitsFrom n ps r

def fits (pattern : List Mark) (t : Bytes) : Bool :=
  fitsFrom (pattern.length + 1) pattern t

/-- A text without the shortest or longest piece at one of its ends that fits a pattern. -/
def trimBy (atEnd longest : Bool) (pattern : List Mark) (value : Bytes) : Bytes :=
  let sizes := List.range (value.length + 1)
  let piece := fun (n : Nat) => if atEnd then value.drop (value.length - n) else value.take n
  match (if longest then sizes.reverse else sizes).find? fun n => fits pattern (piece n) with
  | some n => if atEnd then value.take (value.length - n) else value.drop n
  | none => value

/-- The order of a dictionary. -/
def notAfter : Bytes → Bytes → Bool
  | [], _ => true
  | _ :: _, [] => false
  | a :: as, b :: bs => a < b || (a == b && notAfter as bs)

/-- The names in a directory, in order. -/
def namesIn (t : Tree) (dir : Bytes) : List Bytes :=
  match t.find? (if dir.isEmpty then "." else textOf dir) with
  | .ok (.directory es) => (es.map (toBytes ·.1)).mergeSort notAfter
  | _ => []

def isMagic (m : Mark) : Bool :=
  m.1 ∈ ['*', '?', '['] && !m.2

/-- The paths that fit a segment, behind one that is known; hidden names have to be asked for. -/
def pathsBehind (t : Tree) (dir : Bytes) (segment : List Mark) : List Bytes :=
  if segment.any isMagic then
    let shown := (namesIn t dir).filter fun name =>
      fits segment name && (name.head? != some '.' || segment.head?.any (·.1 == '.'))
    shown.map (dir ++ ·)
  else [dir ++ plainOf segment]

/-- The paths that fit a pattern, segment by segment. -/
def pathsFor (t : Tree) : List (List Mark) → Bytes → List Bytes
  | [], dir => [dir]
  | [segment], dir => pathsBehind t dir segment
  | segment :: rest, dir =>
    (pathsBehind t dir segment).flatMap fun path => pathsFor t rest (path ++ ['/'])

/-- The files that a field stands for, or the field itself if there are none. -/
def spread (t : Tree) (field : List Mark) : List Bytes :=
  if field.any isMagic then
    match (pathsFor t (field.splitOnP fun m => m.1 == '/') []).filter fun p =>
        t.exists? (textOf p) with
    | [] => [plainOf field]
    | paths => paths
  else [plainOf field]

end WarmCompile.Shell
