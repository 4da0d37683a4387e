import WarmCompile.Host.Shell.Script

/-!
Reading the words of a script. The fuel is the number of characters.
-/

namespace WarmCompile.Shell

/-- Something read, and the text behind it. -/
abbrev Parsed (α : Type) := α × Bytes

/-- Text up to the bracket that closes it, quotes and inner brackets taken whole. -/
def splitClosed (opening closing : Char) : Option Char → Nat → Bytes → Option (Bytes × Bytes)
  | _, _, [] => none
  | some '\'', depth, c :: r =>
    (splitClosed opening closing (if c = '\'' then none else some '\'') depth r).map
      fun (s, r) => (c :: s, r)
  | quote, depth, '\\' :: c :: r =>
    (splitClosed opening closing quote depth r).map fun (s, r) => ('\\' :: c :: s, r)
  | some q, depth, c :: r =>
    (splitClosed opening closing (if c = q then none else some q) depth r).map
      fun (s, r) => (c :: s, r)
  | none, depth, c :: r =>
    if c = closing then
      match depth with
      | 0 => some ([], r)
      | d + 1 => (splitClosed opening closing none d r).map fun (s, r) => (c :: s, r)
    else
      let quote := if c = '"' ∨ c = '\'' then some c else none
      let depth := if c = opening then depth + 1 else depth
      (splitClosed opening closing quote depth r).map fun (s, r) => (c :: s, r)

/-- The name of a variable, which may be a single mark or number. -/
def splitName (cs : Bytes) : Bytes × Bytes :=
  match cs with
  | [] => ([], [])
  | c :: r =>
    if c.isDigit then (cs.takeWhile Char.isDigit, cs.dropWhile Char.isDigit)
    else if isNameChar c then (cs.takeWhile isNameChar, cs.dropWhile isNameChar)
    else if c ∈ ['@', '*', '#', '?', '$', '!', '-'] then ([c], r)
    else ([], cs)

/-- What is to be done to a variable, from what stands behind its name. -/
def changeOf? : Bytes → Option Change
  | [] => some .none
  | ':' :: '-' :: w => some (.orElse true w)
  | '-' :: w => some (.orElse false w)
  | ':' :: '=' :: w => some (.orAssign true w)
  | '=' :: w => some (.orAssign false w)
  | ':' :: '?' :: w => some (.orStop true w)
  | '?' :: w => some (.orStop false w)
  | ':' :: '+' :: w => some (.instead true w)
  | '+' :: w => some (.instead false w)
  | '%' :: '%' :: p => some (.trim true true p)
  | '%' :: p => some (.trim true false p)
  | '#' :: '#' :: p => some (.trim false true p)
  | '#' :: p => some (.trim false false p)
  | _ => none

/-- What stands between the braces behind a dollar sign. -/
def braced (inside : Bytes) (quoted : Bool) : Except SyntaxFault Piece :=
  match inside with
  | '#' :: c :: r =>
    match splitName (c :: r) with
    | (name, []) => .ok (.variable name .length quoted)
    | _ => .error .badSubstitution
  | _ =>
    match splitName inside with
    | ([], _) => .error .badSubstitution
    | (name, behind) =>
      match changeOf? behind with
      | some change => .ok (.variable name change quoted)
      | none => .error .badSubstitution

/-- The script between two backquotes. -/
def readBackquoted (quoted : Bool) (cs : Bytes) : Except SyntaxFault (Parsed Piece) :=
  match cs.dropWhile (· != backquote) with
  | [] => .error .openBackquote
  | _ :: r => .ok (.output (cs.takeWhile (· != backquote)) quoted, r)

/-- A script between brackets, or an expression between two of them. -/
def bracketed (inside : Bytes) (quoted : Bool) : Piece :=
  match inside with
  | '(' :: r =>
    if inside.getLast? = some ')' then .number r.dropLast quoted else .output inside quoted
  | _ => .output inside quoted

/-- What follows a dollar sign. -/
def readDollar (quoted : Bool) (cs : Bytes) : Except SyntaxFault (Parsed Piece) :=
  match cs with
  | '(' :: r =>
    match splitClosed '(' ')' none 0 r with
    | some (inside, r) => .ok (bracketed inside quoted, r)
    | none => .error (.unexpected [] (some ")"))
  | '\x7b' :: r =>
    match splitClosed '\x7b' '\x7d' none 0 r with
    | some (inside, r) => (braced inside quoted).map fun p => (p, r)
    | none => .error .openBrace
  | c :: r =>
    if isNameChar c && !c.isDigit then
      .ok (.variable (cs.takeWhile isNameChar) .none quoted, cs.dropWhile isNameChar)
    else if c.isDigit || c ∈ ['@', '*', '#', '?', '$', '!', '-'] then
      .ok (.variable [c] .none quoted, r)
    else .ok (.plain [dollar] quoted, cs)
  | [] => .ok (.plain [dollar] quoted, [])

/-- The pieces of a quoted text up to what closes it, or to the end if nothing does. -/
def readQuoted (closing : Option Char) : Nat → Bytes → Except SyntaxFault (Parsed Word)
  | 0, _ => .error .openQuote
  | _ + 1, [] => if closing.isNone then .ok ([], []) else .error .openQuote
  | n + 1, '\\' :: c :: r => do
    let (w, r) ← readQuoted closing n r
    if c = '\n' then return (w, r)
    else if some c = closing ∨ c = '\\' ∨ c = dollar ∨ c = backquote then
      return (.plain [c] true :: w, r)
    else return (.plain ['\\', c] true :: w, r)
  | n + 1, c :: r => do
    if some c = closing then return ([], r)
    let (p, r) ← if c = dollar then readDollar true r
      else if c = backquote then readBackquoted true r
      else .ok (.plain [c] true, r)
    let (w, r) ← readQuoted closing n r
    return (p :: w, r)

/-- The pieces of a word up to a character that ends it. -/
def readPieces (ends : Char → Bool) : Nat → Bytes → Except SyntaxFault (Parsed Word)
  | 0, _ => .error .openQuote
  | _ + 1, [] => .ok ([], [])
  | n + 1, '\'' :: r =>
    match r.dropWhile (· != '\'') with
    | [] => .error .openQuote
    | _ :: rest => do
      let (w, rest) ← readPieces ends n rest
      return (.plain (r.takeWhile (· != '\'')) true :: w, rest)
  | n + 1, '"' :: r => do
    let (inside, r) ← readQuoted (some '"') (r.length + 1) r
    let (w, r) ← readPieces ends n r
    return (.plain [] true :: inside ++ w, r)
  | n + 1, '\\' :: c :: r => do
    let (w, r) ← readPieces ends n r
    return (if c = '\n' then w else .plain [c] true :: w, r)
  | n + 1, c :: r => do
    if ends c then return ([], c :: r)
    let (p, r) ← if c = dollar then readDollar false r
      else if c = backquote then readBackquoted false r
      else .ok (.plain [c] false, r)
    let (w, r) ← readPieces ends n r
    return (p :: w, r)

/-- The word at the front, if there is one. -/
def readWord? (cs : Bytes) : Except SyntaxFault (Option (Word × Bytes)) :=
  match cs with
  | [] => .ok none
  | c :: _ => if isMeta c then .ok none else (readPieces isMeta (cs.length + 1) cs).map some

def readWord (cs : Bytes) : Except SyntaxFault (Parsed Word) := do
  match ← readWord? cs with
  | some found => return found
  | none => .error (.unexpected cs none)

/-- A whole text as the inside of a word. -/
def readInside (quoted : Bool) (cs : Bytes) : Word :=
  let read := if quoted then readQuoted none (cs.length + 1) cs
    else readPieces (fun _ => false) (cs.length + 1) cs
  match read with
  | .ok (w, _) => w
  | .error _ => [.plain cs quoted]

/-- A word that is written without quotes, as reserved words are. -/
def bareWord (w : Word) : Option Bytes :=
  w.foldr (fun p acc => match p, acc with
    | .plain s false, some t => some (s ++ t)
    | _, _ => none) (some [])

/-- A word without its quotes, and whether it had any. -/
def unquoted (w : Word) : Bytes × Bool :=
  w.foldr (fun p (t, quoted) => match p with
    | .plain s q => (s ++ t, q || quoted)
    | .variable name .. => (dollar :: name ++ t, quoted)
    | _ => (t, quoted)) ([], false)

/-- An assignment: a name, an equals sign and a value. -/
def assignment? (w : Word) : Option (Bytes × Word) :=
  let letters := w.takeWhile fun
    | .plain [c] false => isNameChar c
    | _ => false
  match w.drop letters.length with
  | .plain ['='] false :: value =>
    match bareWord letters with
    | some (c :: name) => if c.isDigit then none else some (c :: name, value)
    | _ => none
  | _ => none

end WarmCompile.Shell
