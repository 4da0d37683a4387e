import WarmCompile.Host.Shell.Pattern
import WarmCompile.Host.Shell.Program

/-!
Edits of a text line by line.
-/

namespace WarmCompile.Shell

/-- The lines of a text, and whether the last one is ended. -/
def linesOf (bs : Bytes) : List Bytes × Bool :=
  let pieces := bs.splitOn '\n'
  if pieces.getLast? = some [] then (pieces.dropLast, true) else (pieces, false)

def unlines (lines : List Bytes) : Bytes :=
  lines.flatMap (· ++ ['\n'])

/-- Lines put together again as they were ended. -/
def unlinesAs (ended : Bool) (lines : List Bytes) : Bytes :=
  if ended then unlines lines else (unlines lines).dropLast

/-- Which lines an edit is for. -/
inductive Address where
  | line (n : Nat)
  | last
  | fitting (p : Pattern)
  deriving Repr

inductive Action where
  | replace (p : Pattern) (new : Bytes) (all shown : Bool)
  | translate (source target : Bytes)
  | delete
  | print
  | quit
  | number
  deriving Repr

/-- An edit of the lines at its address, or from one address to another. -/
structure Edit where
  first : Option Address
  last : Option Address
  negated : Bool
  action : Action
  deriving Repr

/-- The parts of an edit between its marks; a marked mark belongs to the part. -/
def splitMarked (mark : Char) : Nat → Bytes → Option (List Bytes × Bytes)
  | 0, r => some ([], r)
  | _ + 1, [] => none
  | n + 1, '\\' :: c :: r =>
    (splitMarked mark (n + 1) r).map fun (ps, r) => match ps with
      | p :: ps => ((if c = mark then c :: p else '\\' :: c :: p) :: ps, r)
      | [] => ([], r)
  | n + 1, c :: r =>
    if c = mark then (splitMarked mark n r).map fun (ps, r) => ([] :: ps, r)
    else (splitMarked mark (n + 1) r).map fun (ps, r) => match ps with
      | p :: ps => ((c :: p) :: ps, r)
      | [] => ([], r)

def readAddress (extended : Bool) (cs : Bytes) : Option (Option Address × Bytes) :=
  match cs with
  | '$' :: r => some (some .last, r)
  | '/' :: r => do
    match ← splitMarked '/' 1 r with
    | ([p], r) => return (some (.fitting (← Pattern.ofText? extended false p)), r)
    | _ => none
  | c :: r =>
    if c.isDigit then
      let ds := (c :: r).takeWhile Char.isDigit
      some (some (.line (numberOf (['+'] ++ ds)).1.toNat), (c :: r).drop ds.length)
    else some (none, c :: r)
  | [] => some (none, [])

def readAction (extended : Bool) (cs : Bytes) : Option (Action × Bytes) :=
  match cs with
  | 's' :: mark :: r => do
    match ← splitMarked mark 2 r with
    | ([p, new], r) =>
      let flags := r.takeWhile (·.isAlphanum)
      let p ← Pattern.ofText? extended (flags.contains 'i' || flags.contains 'I') p
      return (.replace p new (flags.contains 'g') (flags.contains 'p'), r.drop flags.length)
    | _ => none
  | 'y' :: mark :: r => do
    match ← splitMarked mark 2 r with
    | ([source, target], r) => return (.translate source target, r)
    | _ => none
  | 'd' :: r => some (.delete, r)
  | 'p' :: r => some (.print, r)
  | 'q' :: r => some (.quit, r)
  | '=' :: r => some (.number, r)
  | _ => none

/-- Edits between semicolons and line ends; the fuel is the length of the text. -/
def readEdits (extended : Bool) : Nat → Bytes → Option (List Edit)
  | 0, _ => none
  | n + 1, cs => do
    let isGap := fun (c : Char) => c == ' ' || c == ';' || c == '\n'
    match cs.dropWhile isGap with
    | [] => return []
    | cs =>
      let (first, r) ← readAddress extended cs
      let (last, r) ← match r with
        | ',' :: r => readAddress extended r
        | r => some (none, r)
      let (negated, r) := match r.dropWhile (· == ' ') with
        | '!' :: r => (true, r)
        | r => (false, r)
      let (action, r) ← readAction extended r
      match r.dropWhile (· == ' ') with
      | [] => return [⟨first, last, negated, action⟩]
      | c :: r =>
        if isGap c then return ⟨first, last, negated, action⟩ :: (← readEdits extended n r)
        else none

/-- A line of a text: its number, and whether it is the last. -/
structure Position where
  number : Nat
  isLast : Bool

def Address.isAt (a : Address) (spot : Position) (line : Bytes) : Bool :=
  match a with
  | .line n => n == spot.number
  | .last => spot.isLast
  | .fitting p => (p.find? true line).isSome

/-- Whether an edit is for a line, given whether its range is open; and whether it stays open. -/
def Edit.isFor (e : Edit) (isOpen : Bool) (spot : Position) (line : Bytes) : Bool × Bool :=
  let (holds, stays) := match e.first, e.last with
    | none, _ => (true, false)
    | some a, none => (a.isAt spot line, false)
    | some a, some b =>
      if isOpen then (true, !b.isAt spot line)
      else if a.isAt spot line then
        (true, match b with
          | .line n => spot.number < n
          | .last => !spot.isLast
          | .fitting _ => true)
      else (false, false)
  (holds != e.negated, stays)

/-- A replacement for what has been found. -/
def replacement (found : Bytes) : Bytes → Bytes
  | [] => []
  | '\\' :: 'n' :: r => '\n' :: replacement found r
  | '\\' :: 't' :: r => '\t' :: replacement found r
  | '\\' :: c :: r => c :: replacement found r
  | '&' :: r => found ++ replacement found r
  | c :: r => c :: replacement found r

/-- A line with the first match replaced, or every one; nothing if there is none. -/
def replaced? (p : Pattern) (new : Bytes) (all : Bool) (line : Bytes) : Option Bytes :=
  if all then
    match p.all line with
    | ([], _) => none
    | (ms, left) =>
      some (ms.flatMap (fun (ahead, found) => ahead ++ replacement found new) ++ left)
  else (p.find? true line).map fun (ahead, found, rest) => ahead ++ replacement found new ++ rest

/-- What the edits do with a line: what is printed ahead of it, what it becomes unless it is
deleted, and whether editing ends behind it. -/
structure Edited where
  ahead : List Bytes
  line : Option Bytes
  quits : Bool

def Action.apply (a : Action) (spot : Position) (line : Bytes) : Edited :=
  match a with
  | .replace p new all shown =>
    match replaced? p new all line with
    | some changed => ⟨if shown then [changed] else [], some changed, false⟩
    | none => ⟨[], some line, false⟩
  | .translate source target =>
    ⟨[], some (line.map (WarmCompile.Shell.translate source target)), false⟩
  | .delete => ⟨[], none, false⟩
  | .print => ⟨[line], some line, false⟩
  | .quit => ⟨[], some line, true⟩
  | .number => ⟨[toBytes (toString spot.number)], some line, false⟩

/-- Applies edits in turn, each with whether its range is open. -/
def applyEdits (spot : Position) : List (Edit × Bool) → Bytes → Edited × List (Edit × Bool)
  | [], line => (⟨[], some line, false⟩, [])
  | (e, isOpen) :: es, line =>
    let (holds, stays) := e.isFor isOpen spot line
    if !holds then
      let (r, es) := applyEdits spot es line
      (r, (e, stays) :: es)
    else
      let r := e.action.apply spot line
      match r.line with
      | some changed =>
        if r.quits then (r, (e, stays) :: es)
        else
          let (more, es) := applyEdits spot es changed
          (⟨r.ahead ++ more.ahead, more.line, more.quits⟩, (e, stays) :: es)
      | none => (r, (e, stays) :: es)

/-- Edits lines from a number on; without `quiet` what becomes of a line is printed too. The last
line is ended in the result if it was. -/
def editLines (quiet ended : Bool) : List (Edit × Bool) → Nat → List Bytes → Bytes
  | _, _, [] => []
  | es, n, line :: lines =>
    let (r, es) := applyEdits ⟨n, lines.isEmpty⟩ es line
    let shown := unlinesAs (ended || !lines.isEmpty)
      (r.ahead ++ (if quiet then [] else r.line.toList))
    if r.quits then shown else shown ++ editLines quiet ended es (n + 1) lines

end WarmCompile.Shell
