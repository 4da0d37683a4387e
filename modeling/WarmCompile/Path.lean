/-!
Paths as texts with forward slashes, and their folding: empty and `.` segments vanish, `..` takes
back the name before it, stays at the root, and is kept where a relative path climbs out.
-/

namespace WarmCompile

/-- A folded path: names below the root, or below a directory some levels up. -/
structure Path where
  rooted : Bool
  climbs : Nat
  names : List (List Char)
  deriving DecidableEq, Repr

namespace Path

/-- Backslashes read as slashes. -/
def forward (s : String) : String :=
  String.ofList (s.toList.map fun c => if c = '\\' then '/' else c)

def isAbsolute (text : List Char) : Bool :=
  text.head? == some '/'

/-- One step along a path. -/
def child (p : Path) (segment : List Char) : Path :=
  if segment = [] ∨ segment = ['.'] then p
  else if segment = ['.', '.'] then
    if p.names = [] then
      if p.rooted then p else { p with climbs := p.climbs + 1 }
    else { p with names := p.names.dropLast }
  else { p with names := p.names ++ [segment] }

def descend (p : Path) (text : List Char) : Path :=
  (text.splitOn '/').foldl child p

def ofText (text : List Char) : Path :=
  descend ⟨isAbsolute text, 0, []⟩ text

def segments (p : Path) : List (List Char) :=
  List.replicate p.climbs ['.', '.'] ++ p.names

def toText (p : Path) : List Char :=
  if p.rooted then '/' :: ['/'].intercalate p.segments else ['/'].intercalate p.segments

/-- The folded text of `relative` as seen from the directory `base`. -/
def resolve (base relative : String) : String :=
  let target := (forward relative).toList
  let folded := if isAbsolute target then ofText target else (ofText base.toList).descend target
  forward (String.ofList folded.toText)

/-- The folded text of a path on its own. -/
def normalize (s : String) : String :=
  resolve "" s

/-- The text up to and with the last slash. -/
def parent (s : String) : String :=
  String.ofList (s.toList.reverse.dropWhile (· != '/')).reverse

/-- The directory a project file lies in, as a command is told to start there. -/
def startDir (s : String) : String :=
  match s.toList.reverse.dropWhile (· != '/') with
  | [] => "."
  | [_] => "/"
  | _ :: dir => String.ofList dir.reverse

/-- `name` inside `dir`; an absolute name stands on its own. -/
def join (dir name : String) : String :=
  if isAbsolute name.toList || dir.isEmpty then name
  else if dir.toList.getLast? == some '/' then dir ++ name
  else dir ++ "/" ++ name

/-- A path as seen from a working directory, with its `..` segments kept. Two slashes ahead stay
two, and a slash at the end stays. -/
def absolute (cwd path : String) : String :=
  let text := path.toList
  let start := match text with
    | '/' :: '/' :: '/' :: _ => "/"
    | '/' :: '/' :: _ => "//"
    | '/' :: _ => "/"
    | _ => cwd
  let names := (text.splitOn '/').filter fun s => s ≠ [] && s ≠ ['.']
  let joined := names.foldl (fun dir name => join dir (String.ofList name)) start
  if text.getLast? = some '/' && joined.toList.getLast? ≠ some '/' then joined ++ "/" else joined

end Path

end WarmCompile
