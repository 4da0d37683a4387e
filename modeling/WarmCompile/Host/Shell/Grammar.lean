import WarmCompile.Host.Shell.Word

/-!
Reading the commands of a script. A script is read and run line by line, so what is wrong below a
line is found after the line has been run.
-/

namespace WarmCompile.Shell

def skipBlanks (cs : Bytes) : Bytes :=
  match cs.dropWhile fun c => c == ' ' || c == '\t' with
  | '#' :: r => r.dropWhile (· != '\n')
  | '\\' :: '\n' :: r => r.dropWhile fun c => c == ' ' || c == '\t'
  | r => r

/-- Blanks and line ends; the fuel is the number of characters. -/
def skipBreaksFrom : Nat → Bytes → Bytes
  | 0, cs => cs
  | n + 1, cs =>
    match skipBlanks cs with
    | '\n' :: r => skipBreaksFrom n r
    | r => r

def skipBreaks (cs : Bytes) : Bytes :=
  skipBreaksFrom (cs.length + 1) cs

/-- The reserved word at the front. -/
def keyword? (cs : Bytes) : Option (String × Bytes) :=
  let w := cs.takeWhile (!isMeta ·)
  if isKeyword w then some (String.ofList w, cs.drop w.length) else none

def expect (word : String) (cs : Bytes) : Except SyntaxFault Bytes :=
  let cs := skipBreaks cs
  match keyword? cs with
  | some (s, r) => if s = word then .ok r else .error (.unexpected cs (some word))
  | none => .error (.unexpected cs (some word))

/-- Takes the lines up to the one that is the mark alone. -/
def splitMarkedLines (mark : Bytes) (tabs : Bool) : Nat → Bytes → Bytes × Bytes
  | 0, cs => (cs, [])
  | _ + 1, [] => ([], [])
  | n + 1, cs =>
    let line := cs.takeWhile (· != '\n')
    let behind := (cs.drop line.length).drop 1
    let line := if tabs then line.dropWhile (· == '\t') else line
    if line = mark then ([], behind)
    else
      let (text, r) := splitMarkedLines mark tabs n behind
      (line ++ '\n' :: text, r)

/-- A text that stands in the script itself, below the line that asks for it. -/
def readHereText (cs : Bytes) : Except SyntaxFault (Parsed Redirect) := do
  let (tabs, cs) := match cs with
    | '-' :: r => (true, r)
    | r => (false, r)
  let (w, r) ← readWord (skipBlanks cs)
  let (mark, quoted) := unquoted w
  let line := r.takeWhile (· != '\n')
  let (text, behind) := splitMarkedLines mark tabs (r.length + 1) ((r.drop line.length).drop 1)
  let word := if quoted then [Piece.plain text true] else readInside true text
  return (.fromText word, line ++ '\n' :: behind)

/-- A redirection, if one stands at the front. -/
def readRedirect? (cs : Bytes) : Except SyntaxFault (Option (Redirect × Bytes)) := do
  let (fd, cs) := match cs with
    | d :: '<' :: r => if d.isDigit then (some (d.toNat - 48), '<' :: r) else (none, cs)
    | d :: '>' :: r => if d.isDigit then (some (d.toNat - 48), '>' :: r) else (none, cs)
    | cs => (none, cs)
  let duplicate := fun (fd : Nat) (r : Bytes) => match r with
    | '-' :: r => .ok (some (Redirect.close fd, r))
    | d :: r =>
      if d.isDigit then .ok (some (Redirect.copy fd (d.toNat - 48), r))
      else .error (.unexpected (d :: r) none)
    | [] => .error (.unexpected [] none)
  match cs with
  | '>' :: '&' :: r => duplicate (fd.getD 1) r
  | '<' :: '&' :: r => duplicate (fd.getD 0) r
  | '<' :: '<' :: r => (readHereText r).map some
  | '>' :: '>' :: r =>
    let (w, r) ← readWord (skipBlanks r)
    return some (.toFile (fd.getD 1) true w, r)
  | '>' :: '|' :: r | '>' :: r =>
    let (w, r) ← readWord (skipBlanks r)
    return some (.toFile (fd.getD 1) false w, r)
  | '<' :: r =>
    let (w, r) ← readWord (skipBlanks r)
    return some (.fromFile w, r)
  | _ => return none

/-- The words and redirections of a simple command. -/
def readParts : Nat → Bytes → Except SyntaxFault (Parsed (List Word × List Redirect))
  | 0, cs => .error (.unexpected cs none)
  | n + 1, cs => do
    let cs := skipBlanks cs
    match ← readRedirect? cs with
    | some (redirect, r) =>
      let ((ws, rs), r) ← readParts n r
      return ((ws, redirect :: rs), r)
    | none =>
      match ← readWord? cs with
      | some (w, r) =>
        let ((ws, rs), r) ← readParts n r
        return ((w :: ws, rs), r)
      | none => return (([], []), cs)

def readRedirects : Nat → Bytes → Except SyntaxFault (Parsed (List Redirect))
  | 0, cs => .ok ([], cs)
  | n + 1, cs => do
    match ← readRedirect? (skipBlanks cs) with
    | some (redirect, r) =>
      let (rs, r) ← readRedirects n r
      return (redirect :: rs, r)
    | none => return ([], cs)

def withRedirects (c : Command) (cs : Bytes) : Except SyntaxFault (Parsed Command) := do
  let (rs, r) ← readRedirects cs.length cs
  return (if rs.isEmpty then c else .redirected c rs, r)

def takeAssignments : List Word → List (Bytes × Word) × List Word
  | [] => ([], [])
  | w :: ws =>
    match assignment? w with
    | some a => let (rest, ws) := takeAssignments ws; (a :: rest, ws)
    | none => ([], w :: ws)

def readSimple (cs : Bytes) : Except SyntaxFault (Parsed Command) := do
  let ((ws, rs), r) ← readParts (cs.length + 1) cs
  if ws.isEmpty && rs.isEmpty then .error (.unexpected cs none)
  else
    let (assigned, ws) := takeAssignments ws
    let c := Command.simple (cs.count '\n') assigned ws
    return (if rs.isEmpty then c else .redirected c rs, r)

/-- The patterns of an arm, up to its bracket. -/
def readPatterns : Nat → Bytes → Except SyntaxFault (Parsed (List Word))
  | 0, cs => .error (.unexpected cs none)
  | n + 1, cs => do
    let (w, r) ← readWord (skipBlanks cs)
    match skipBlanks r with
    | ')' :: r => return ([w], r)
    | '|' :: r =>
      let (ws, r) ← readPatterns n r
      return (w :: ws, r)
    | r => .error (.unexpected r (some ")"))

def readWords : Nat → Bytes → Except SyntaxFault (Parsed (List Word))
  | 0, cs => .ok ([], cs)
  | n + 1, cs => do
    match ← readWord? (skipBlanks cs) with
    | some (w, r) =>
      let (ws, r) ← readWords n r
      return (w :: ws, r)
    | none => return ([], skipBlanks cs)

/-- The words that a loop goes through, up to its body. -/
def readRange (cs : Bytes) : Except SyntaxFault (Parsed (Option (List Word))) := do
  let past := fun (r : Bytes) => match skipBlanks r with
    | ';' :: r => r
    | r => r
  match keyword? (skipBreaks cs) with
  | some ("in", r) =>
    let (ws, r) ← readWords r.length r
    return (some ws, past r)
  | _ => return (none, past cs)

/-- The name of a function that is defined here. -/
def functionName? (cs : Bytes) : Option (Bytes × Bytes) :=
  let name := cs.takeWhile isNameChar
  match name, skipBlanks (cs.drop name.length) with
  | c :: _, '(' :: r =>
    match skipBlanks r with
    | ')' :: r => if c.isDigit then none else some (name, r)
    | _ => none
  | _, _ => none

/-- Whether a list of commands ends here. -/
def endsList (cs : Bytes) : Bool :=
  match cs with
  | [] => true
  | ')' :: _ => true
  | ';' :: ';' :: _ => true
  | cs =>
    match keyword? cs with
    | some (s, _) => s ∈ ["then", "elif", "else", "fi", "do", "done", "esac", "\x7d"]
    | none => false

mutual
/-- Commands one after the other, to the end of the line if only that is asked for. -/
def readList (line : Bool) : Nat → Bytes → Except SyntaxFault (Parsed Command)
  | 0, cs => .error (.unexpected cs none)
  | n + 1, cs => do
    let cs := if line then skipBlanks cs else skipBreaks cs
    if endsList cs || (line && cs.head? == some '\n') then return (.sequence [], cs)
    let (c, r) ← readChain n cs
    match skipBlanks r with
    | ';' :: ';' :: r => return (c, ';' :: ';' :: r)
    | ';' :: r | '&' :: r =>
      let (rest, r) ← readList line n r
      return (.sequence [c, rest], r)
    | '\n' :: r =>
      if line then return (c, '\n' :: r)
      let (rest, r) ← readList line n r
      return (.sequence [c, rest], r)
    | r => return (c, r)

/-- Commands of which there must be one. -/
def readBody : Nat → Bytes → Except SyntaxFault (Parsed Command)
  | 0, cs => .error (.unexpected cs none)
  | n + 1, cs => do
    match ← readList false n cs with
    | (.sequence [], r) => .error (.unexpected r none)
    | found => return found

/-- Commands joined by `&&` and `||`. -/
def readChain : Nat → Bytes → Except SyntaxFault (Parsed Command)
  | 0, cs => .error (.unexpected cs none)
  | n + 1, cs => do
    let (c, r) ← readPipe n cs
    readChainFrom n c r

def readChainFrom : Nat → Command → Bytes → Except SyntaxFault (Parsed Command)
  | 0, _, cs => .error (.unexpected cs none)
  | n + 1, c, cs => do
    match skipBlanks cs with
    | '&' :: '&' :: r =>
      let (d, r) ← readPipe n (skipBreaks r)
      readChainFrom n (.both c d) r
    | '|' :: '|' :: r =>
      let (d, r) ← readPipe n (skipBreaks r)
      readChainFrom n (.either c d) r
    | r => return (c, r)

def readPipe : Nat → Bytes → Except SyntaxFault (Parsed Command)
  | 0, cs => .error (.unexpected cs none)
  | n + 1, cs => do
    match keyword? cs with
    | some ("!", r) =>
      let (c, r) ← readPipe n (skipBlanks r)
      return (.negated c, r)
    | _ =>
      let (c, r) ← readCommand n cs
      match skipBlanks r with
      | '|' :: '|' :: r => return (c, '|' :: '|' :: r)
      | '|' :: r =>
        let (d, r) ← readPipe n (skipBreaks r)
        return (.pipe c d, r)
      | r => return (c, r)

def readCommand : Nat → Bytes → Except SyntaxFault (Parsed Command)
  | 0, cs => .error (.unexpected cs none)
  | n + 1, cs => do
    match skipBlanks cs with
    | '(' :: r =>
      let (c, r) ← readBody n r
      match skipBreaks r with
      | ')' :: r => withRedirects (.inner c) r
      | r => .error (.unexpected r (some ")"))
    | cs =>
      match keyword? cs with
      | some ("\x7b", r) =>
        let (c, r) ← readBody n r
        withRedirects c (← expect "\x7d" r)
      | some ("if", r) =>
        let (c, r) ← readBranches n r
        withRedirects c r
      | some ("while", r) =>
        let (c, r) ← readBody n r
        let (body, r) ← readBody n (← expect "do" r)
        withRedirects (.repeatWhile c body) (← expect "done" r)
      | some ("until", r) =>
        let (c, r) ← readBody n r
        let (body, r) ← readBody n (← expect "do" r)
        withRedirects (.repeatWhile (.negated c) body) (← expect "done" r)
      | some ("for", r) =>
        let (w, r) ← readWord (skipBlanks r)
        let (range, r) ← readRange r
        let (body, r) ← readBody n (← expect "do" r)
        withRedirects (.forEach ((bareWord w).getD []) range body) (← expect "done" r)
      | some ("case", r) =>
        let (w, r) ← readWord (skipBlanks r)
        let (arms, r) ← readArms n (← expect "in" r)
        withRedirects (.choose w arms) r
      | some _ => .error (.unexpected cs none)
      | none =>
        match functionName? cs with
        | some (name, r) =>
          let (body, r) ← readCommand n (skipBreaks r)
          return (.define name body, r)
        | none => readSimple cs

/-- The branches behind `if` or `elif`. -/
def readBranches : Nat → Bytes → Except SyntaxFault (Parsed Command)
  | 0, cs => .error (.unexpected cs none)
  | n + 1, cs => do
    let (c, r) ← readBody n cs
    let (yes, r) ← readBody n (← expect "then" r)
    match keyword? (skipBreaks r) with
    | some ("else", r) =>
      let (no, r) ← readBody n r
      return (.branch c yes no, ← expect "fi" r)
    | some ("elif", r) =>
      let (no, r) ← readBranches n r
      return (.branch c yes no, r)
    | _ => return (.branch c yes (.sequence []), ← expect "fi" r)

/-- The arms up to `esac`. -/
def readArms : Nat → Bytes → Except SyntaxFault (Parsed (List (List Word × Command)))
  | 0, cs => .error (.unexpected cs none)
  | n + 1, cs => do
    let cs := skipBreaks cs
    match keyword? cs with
    | some ("esac", r) => return ([], r)
    | _ =>
      let cs := match cs with
        | '(' :: r => r
        | r => r
      let (patterns, r) ← readPatterns (cs.length + 1) cs
      let (body, r) ← readList false n r
      match skipBreaks r with
      | ';' :: ';' :: r =>
        let (arms, r) ← readArms n r
        return ((patterns, body) :: arms, r)
      | r => return ([(patterns, body)], ← expect "esac" r)
end

/-- The commands of the next line that has some, and the lines below. -/
def nextLine? (script : Bytes) : Except SyntaxFault (Option (Command × Bytes)) := do
  match skipBreaks script with
  | [] => return none
  | cs =>
    match ← readList true (4 * cs.length + 8) cs with
    | (.sequence [], r) => .error (.unexpected r none)
    | (c, []) => return some (c, [])
    | (c, '\n' :: r) => return some (c, r)
    | (_, r) => .error (.unexpected r none)

end WarmCompile.Shell
