import WarmCompile.Toml.Scalar

/-!
Reading a whole TOML document.
-/

namespace WarmCompile.Toml

def skipSpace (cs : List Char) : List Char :=
  cs.dropWhile fun c => c == ' ' || c == '\t'

/-- The end of a comment; it holds no controls. -/
def skipComment : List Char → Option Rest
  | [] => some []
  | '\n' :: r => some ('\n' :: r)
  | '\r' :: '\n' :: r => some ('\r' :: '\n' :: r)
  | c :: r => if isControl c then none else skipComment r

/-- Passes over blanks, line ends and comments; the fuel is the number of characters. -/
def skipLines : Nat → List Char → Option Rest
  | 0, cs => some cs
  | n + 1, cs =>
    match skipSpace cs with
    | '\n' :: r => skipLines n r
    | '\r' :: '\n' :: r => skipLines n r
    | '#' :: r => do skipLines n (← skipComment r)
    | r => some r

/-- Only a comment may follow on a line. -/
def endLine (cs : List Char) : Option Rest :=
  match skipSpace cs with
  | [] => some []
  | '\n' :: r => some r
  | '\r' :: '\n' :: r => some r
  | '#' :: r => skipComment r
  | _ => none

def isKeyChar (c : Char) : Bool :=
  c.isAlphanum || c == '_' || c == '-'

/-- One part of a key. -/
def readPart (cs : List Char) : Option (String × Rest) :=
  match cs with
  | '"' :: '"' :: '"' :: _ => none
  | '\'' :: '\'' :: '\'' :: _ => none
  | '"' :: _ | '\'' :: _ => (readQuoted cs).map fun (s, r) => (String.ofList s, r)
  | cs =>
    let word := cs.takeWhile isKeyChar
    if word.isEmpty then none else some (String.ofList word, cs.dropWhile isKeyChar)

/-- The parts of a dotted key. -/
def readKey : Nat → List Char → Option (List String × Rest)
  | 0, _ => none
  | n + 1, cs => do
    let (part, r) ← readPart (skipSpace cs)
    match skipSpace r with
    | '.' :: r => do
      let (parts, r) ← readKey n r
      return (part :: parts, r)
    | r => return ([part], r)

mutual
def readNode : Nat → List Char → Option (Node × Rest)
  | 0, _ => none
  | n + 1, cs =>
    match cs with
    | '"' :: _ | '\'' :: _ => (readQuoted cs).map fun (s, r) => (.text (String.ofList s), r)
    | '[' :: r => do
      let (items, r) ← readItems n r
      return (.list items, r)
    | '\x7b' :: r => do
      let (es, r) ← readEntries n [] r
      return (.table .inline es, r)
    | cs => readBare cs

/-- The items of a list up to its bracket. -/
def readItems : Nat → List Char → Option (List Node × Rest)
  | 0, _ => none
  | n + 1, cs => do
    match ← skipLines (cs.length + 1) cs with
    | ']' :: r => return ([], r)
    | r =>
      let (item, r) ← readNode n r
      match ← skipLines (r.length + 1) r with
      | ',' :: r =>
        let (items, r) ← readItems n r
        return (item :: items, r)
      | ']' :: r => return ([item], r)
      | _ => none

/-- The entries of an inline table up to its brace. -/
def readEntries : Nat → Entries → List Char → Option (Entries × Rest)
  | 0, _, _ => none
  | n + 1, es, cs => do
    match ← skipLines (cs.length + 1) cs with
    | '\x7d' :: r => return (es, r)
    | r =>
      let (key, r) ← readKey (r.length + 1) r
      match r with
      | '=' :: r =>
        let (value, r) ← readNode n (skipSpace r)
        let es ← add value key es
        match ← skipLines (r.length + 1) r with
        | ',' :: r => readEntries n es r
        | '\x7d' :: r => return (es, r)
        | _ => none
      | _ => none
end

/-- Reads line after line into the table opened last. -/
def readLinesFrom : Nat → List String → Entries → List Char → Option Entries
  | 0, _, _, _ => none
  | n + 1, header, es, cs => do
    match ← skipLines (cs.length + 1) cs with
    | [] => return es
    | '[' :: '[' :: r =>
      let (key, r) ← readKey (r.length + 1) r
      match r with
      | ']' :: ']' :: r => do readLinesFrom n key (← change openTables key es) (← endLine r)
      | _ => none
    | '[' :: r =>
      let (key, r) ← readKey (r.length + 1) r
      match r with
      | ']' :: r => do readLinesFrom n key (← change openTable key es) (← endLine r)
      | _ => none
    | r =>
      let (key, r) ← readKey (r.length + 1) r
      match r with
      | '=' :: r =>
        let (value, r) ← readNode (r.length + 1) (skipSpace r)
        readLinesFrom n header (← addAt header key value es) (← endLine r)
      | _ => none

/-- The document as a value; a byte order mark at its start does not count. -/
def parse (text : String) : Option Json :=
  let cs := match text.toList with
    | '\uFEFF' :: r => r
    | r => r
  (readLinesFrom (cs.length + 1) [] [] cs).map fun es => .object (entriesToJson es)

end WarmCompile.Toml
