import WarmCompile.Host.Shell.Format

/-!
The programs that scripts call.
-/

namespace WarmCompile.Shell

abbrev Program := List Bytes → State → State

def joined (args : List Bytes) : Bytes :=
  [' '].intercalate args

/-- The arguments that are options, and the others. -/
def options (args : List Bytes) : List Bytes × List Bytes :=
  let isOption := fun (a : Bytes) => a.head? == some '-' && 1 < a.length && a != ['-', '-']
  match args.dropWhile isOption with
  | ['-', '-'] :: files => (args.takeWhile isOption, files)
  | files => (args.takeWhile isOption, files)

def complaintOf (program : String) (file : Bytes) (e : IoError) : String :=
  program ++ ": " ++ textOf file ++ ": " ++ plainMessage e

def catFile (s : State) (file : Bytes) : State :=
  match s.read file with
  | (.ok content, s) => s.print content
  | (.error e, s) => s.fail 1 (complaintOf "cat" file e)

def cat : Program := fun args s =>
  match (options args).2 with
  | [] =>
    if s.input.isNone then s.fail 1 "cat: -: Bad file descriptor"
    else catFile (s.exit 0) ['-']
  | files => files.foldl catFile (s.exit 0)

/-- Prints unless there is nowhere to print to. -/
def printOr (name : String) (t : Bytes) (s : State) : State :=
  if s.outTo = .closed then s.refuse 1 (name ++ ": " ++ name ++ ": I/O error").toList
  else (s.print t).exit 0

def echo (escapes : Bool) : Program := fun args s =>
  let (quiet, args) := match args with
    | ['-', 'n'] :: r => (true, r)
    | r => (false, r)
  let line := joined args
  let (line, halted) := if escapes then unescape (line.length + 1) line else (line, false)
  printOr "echo" (if quiet || halted then line else line ++ ['\n']) s

def printf : Program := fun args s =>
  match (options args).2 with
  | [] => s.refuse 2 "printf: usage: printf format [arg ...]".toList
  | format :: args =>
    let p := formatAll (args.length + 1) format args
    let s := printOr "printf" p.text s
    p.complaints.foldl (fun s c => s.refuse 1 ("printf: ".toList ++ c)) s

/-- The characters of a set with its ranges and classes written out. -/
def expandSet : Nat → Bytes → Bytes
  | 0, _ => []
  | n + 1, cs =>
    let upper := "ABCDEFGHIJKLMNOPQRSTUVWXYZ".toList
    let lower := "abcdefghijklmnopqrstuvwxyz".toList
    let digits := "0123456789".toList
    if "[:upper:]".toList.isPrefixOf cs then upper ++ expandSet n (cs.drop 9)
    else if "[:lower:]".toList.isPrefixOf cs then lower ++ expandSet n (cs.drop 9)
    else if "[:alpha:]".toList.isPrefixOf cs then upper ++ lower ++ expandSet n (cs.drop 9)
    else if "[:alnum:]".toList.isPrefixOf cs then
      digits ++ upper ++ lower ++ expandSet n (cs.drop 9)
    else if "[:digit:]".toList.isPrefixOf cs then digits ++ expandSet n (cs.drop 9)
    else if "[:space:]".toList.isPrefixOf cs then
      " \t\n\r\x0b\x0c".toList ++ expandSet n (cs.drop 9)
    else match cs with
      | [] => []
      | a :: '-' :: b :: r =>
        (List.range (b.toNat + 1 - a.toNat)).map (fun i => Char.ofNat (a.toNat + i)) ++
          expandSet n r
      | c :: r => c :: expandSet n r

/-- A set with its backslashes resolved. -/
def resolveSet : Nat → Bytes → Bytes
  | 0, _ => []
  | _ + 1, [] => []
  | n + 1, '\\' :: c :: r =>
    match escaped (c :: r) with
    | (['\\', c], r) => c :: resolveSet n r
    | (e, r) => e ++ resolveSet n r
  | n + 1, c :: r => c :: resolveSet n r

def setOf (arg : Bytes) : Bytes :=
  expandSet (arg.length + 1) (resolveSet (arg.length + 1) arg)

def translate (source target : Bytes) (c : Char) : Char :=
  match (source.zip (target ++ List.replicate source.length (target.getLast?.getD c))).lookup c with
  | some d => d
  | none => c

/-- Repeated characters of a kind are put down once. -/
def squeeze (isIn : Char → Bool) : Bytes → Bytes
  | a :: b :: r => if a = b && isIn a then squeeze isIn (b :: r) else a :: squeeze isIn (b :: r)
  | bs => bs

def tr : Program := fun args s =>
  let (bs, s) := s.takeInput
  let (opts, sets) := options args
  let has := fun (c : Char) => opts.any (·.contains c)
  let isIn := fun (set : Bytes) (c : Char) => (setOf set).contains c != (has 'c' || has 'C')
  match sets with
  | [set] =>
    if has 'd' then (s.print (bs.filter (!isIn set ·))).exit 0
    else if has 's' then (s.print (squeeze (isIn set) bs)).exit 0
    else s.fail 1 "tr: missing operand"
  | [source, target] =>
    let into := setOf target
    let changed := if has 'd' then bs.filter (!isIn source ·)
      else bs.map fun c =>
        if has 'c' || has 'C' then (if isIn source c then into.getLast?.getD c else c)
        else translate (setOf source) into c
    (s.print (if has 's' then squeeze into.contains changed else changed)).exit 0
  | _ => s.fail 1 "tr: missing operand"

def remove : Program := fun args s =>
  let (opts, files) := options args
  let has := fun (c : Char) => opts.any (·.contains c)
  files.foldl (fun s file =>
    match s.tree.find? (textOf file) with
    | .ok (.directory _) =>
      if has 'r' || has 'R' then { s with tree := s.tree.delete (textOf file) }
      else s.fail 1 ("rm: cannot remove '" ++ textOf file ++ "': Is a directory")
    | .ok _ => { s with tree := s.tree.delete (textOf file) }
    | .error e =>
      if has 'f' then s
      else s.fail 1 ("rm: cannot remove '" ++ textOf file ++ "': " ++ plainMessage e)) (s.exit 0)

def signalNumber? (name : Bytes) : Option Nat :=
  if !name.isEmpty && name.all Char.isDigit then
    let n := (Arithmetic.integer? name).getD 64
    if n ≤ 64 then some n.toNat else none
  else (List.range 32).find? fun n =>
    n != 0 && signalName n = "SIG" ++ (textOf name).toUpper

/-- Only the process itself can be reached. -/
def kill : Program := fun args s =>
  let send := fun (name : Bytes) (pids : List Bytes) =>
    match signalNumber? name with
    | none => s.refuse 2 ("kill: Illegal option -".toList ++ name.take 1)
    | some n =>
      if pids.contains processId then
        if n = 0 then s.exit 0 else { s with stop := some (.ended (.signal n)) }
      else s.refuse 1 "kill: No such process\n".toList
  match args with
  | ['-', 's'] :: name :: pids => send name pids
  | ('-' :: name) :: pids => send name pids
  | pids => send "TERM".toList pids

/-- What a condition with one operand says. -/
def holdsOf (t : Tree) (op : String) (a : Bytes) : Except Bytes Bool :=
  let node := (t.find? (textOf a)).toOption
  match op with
  | "-n" => .ok (!a.isEmpty)
  | "-z" => .ok a.isEmpty
  | "-e" | "-r" | "-w" => .ok node.isSome
  | "-f" => .ok (t.isFile (textOf a))
  | "-d" => .ok (node.any Node.isDirectory)
  | "-s" => .ok (node.any fun
    | .file content _ => 0 < content.size
    | _ => true)
  | "-x" => .ok (node.any fun
    | .file _ mode => mode / 64 % 2 = 1 || mode / 8 % 2 = 1 || mode % 2 = 1
    | _ => true)
  | "-L" | "-h" | "-p" | "-t" | "-b" | "-c" => .ok false
  | _ => .error (op.toList ++ ": unexpected operator".toList)

def decimal (a : Bytes) : Except Bytes Int :=
  let digits := match a with
    | '-' :: r | '+' :: r => r
    | r => r
  if digits.isEmpty || !digits.all Char.isDigit then .error ("Illegal number: ".toList ++ a)
  else
    let n : Int := ((textOf digits).toNat?.getD 0 : Nat)
    .ok (if a.head? = some '-' then -n else n)

/-- What a condition between two operands says. -/
def holdsBetween (op : String) (a b : Bytes) : Except Bytes Bool := do
  match op with
  | "=" | "==" => return a == b
  | "!=" => return a != b
  | "-eq" => return (← decimal a) == (← decimal b)
  | "-ne" => return (← decimal a) != (← decimal b)
  | "-lt" => return (← decimal a) < (← decimal b)
  | "-le" => return (← decimal a) ≤ (← decimal b)
  | "-gt" => return (← decimal b) < (← decimal a)
  | "-ge" => return (← decimal b) ≤ (← decimal a)
  | _ => .error (op.toList ++ ": unexpected operator".toList)

/-- The words on both sides of the first one of its kind, if there are any. -/
def splitAtWord (w : String) (words : List Bytes) : Option (List Bytes × List Bytes) :=
  match words.takeWhile (· != w.toList), words.dropWhile (· != w.toList) with
  | l :: ls, _ :: r :: rs => some (l :: ls, r :: rs)
  | _, _ => none

/-- What a condition says; the fuel is the number of words. -/
def holds (t : Tree) : Nat → List Bytes → Except Bytes Bool
  | 0, _ => .ok false
  | n + 1, words => do
    match words with
    | [] => return false
    | [a] => return !a.isEmpty
    | [['!'], a] => return a.isEmpty
    | [op, a] => holdsOf t (textOf op) a
    | words =>
      match splitAtWord "-o" words with
      | some (l, r) => return (← holds t n l) || (← holds t n r)
      | none =>
        match splitAtWord "-a" words with
        | some (l, r) => return (← holds t n l) && (← holds t n r)
        | none =>
          match words with
          | ['!'] :: r => return !(← holds t n r)
          | [a, op, b] => holdsBetween (textOf op) a b
          | _ :: op :: _ => .error (op ++ ": unexpected operator".toList)
          | _ => return false

def testAs (name : String) : Program := fun words s =>
  match holds s.tree (words.length + 1) words with
  | .ok b => s.exit (if b then 0 else 1)
  | .error message => s.refuse 2 (name.toList ++ ": ".toList ++ message)

def bracketTest : Program := fun args s =>
  if args.getLast? = some [']'] then testAs "[" args.dropLast s
  else s.refuse 2 "[: missing ]".toList

def touch : Program := fun args s =>
  (options args).2.foldl (fun s file =>
    match s.openTarget file true with
    | .ok (_, s) => s
    | .error e => s.fail 1 ("touch: cannot touch '" ++ textOf file ++ "': " ++ plainMessage e))
    (s.exit 0)

def makeDirectories : Program := fun args s =>
  let (opts, dirs) := options args
  let deep := opts.any (·.contains 'p')
  dirs.foldl (fun s dir =>
    let above := Path.parent (textOf dir)
    if s.tree.exists? (textOf dir) && !deep then
      s.fail 1 ("mkdir: cannot create directory '" ++ textOf dir ++ "': File exists")
    else if deep || above.isEmpty || s.tree.exists? above then
      { s with tree := s.tree.makeDirectory (textOf dir) }
    else s.fail 1 ("mkdir: cannot create directory '" ++ textOf dir ++
      "': No such file or directory")) (s.exit 0)

/-- Where a file goes that is copied or moved to a place. -/
def placeOf (t : Tree) (source target : Bytes) : Bytes :=
  match t.find? (textOf target) with
  | .ok (.directory _) =>
    target ++ '/' :: ((source.splitOn '/').getLast?.getD [])
  | _ => target

def copyAs (name : String) (keep : Bool) : Program := fun args s =>
  match (options args).2 with
  | [source, target] =>
    match s.tree.find? (textOf source) with
    | .ok n =>
      let tree := if keep then s.tree else s.tree.delete (textOf source)
      { s with tree := tree.put (textOf (placeOf s.tree source target)) n }.exit 0
    | .error e => s.fail 1 (name ++ ": cannot stat '" ++ textOf source ++ "': " ++ plainMessage e)
  | _ => s.fail 1 (name ++ ": missing file operand")

def changeModes : Program := fun args s =>
  match args with
  | mode :: files =>
    files.foldl (fun s file =>
      match s.tree.find? (textOf file) with
      | .ok (.file _ old) =>
        let mode := if mode.all Char.isDigit then octalDigits 4 mode |>.foldl
            (fun n d => 8 * n + (d.toNat - 48)) 0
          else if mode.contains '-' then old - old % 2 - old / 8 % 2 * 8 - old / 64 % 2 * 64
          else old ||| 0o111
        { s with tree := s.tree.changeMode (textOf file) mode }
      | .ok _ => s
      | .error e => s.fail 1 ("chmod: cannot access '" ++ textOf file ++ "': " ++ plainMessage e))
      (s.exit 0)
  | [] => s.fail 1 "chmod: missing operand"

def baseName : Program := fun args s =>
  let path := (args.head?).getD []
  let last := ((path.splitOn '/').filter fun (w : Bytes) => !w.isEmpty).getLast?.getD ['/']
  let ending := (args.drop 1).head?.getD []
  let shown := if !ending.isEmpty && ending.isSuffixOf last && ending ≠ last then
    last.take (last.length - ending.length) else last
  (s.printLine shown).exit 0

def directoryName : Program := fun args s =>
  let path := (args.head?).getD []
  let shown := match (path.reverse.dropWhile (· == '/')).dropWhile (· != '/') with
    | [] => if path.head? = some '/' then ['/'] else ['.']
    | above => match above.dropWhile (· == '/') with
      | [] => ['/']
      | dir => dir.reverse
  (s.printLine shown).exit 0

def workingDirectory (s : State) : Bytes :=
  toBytes ("/" ++ "/".intercalate s.tree.cwd)

def printVariable : Program := fun args s =>
  match args with
  | [] => (s.print (s.environment.flatMap fun e => e.1 ++ '=' :: e.2 ++ ['\n'])).exit 0
  | names => names.foldl (fun s name => match s.environment.lookup name with
      | some v => s.printLine v
      | none => s.exit 1) (s.exit 0)

/-- Says the same line over and over; far more often than anybody reads on. -/
def affirm : Program := fun args s =>
  let line := (if args.isEmpty then ['y'] else joined args) ++ ['\n']
  (s.print (List.replicate 70000 line).flatten).exit 0

/-- The programs that do not go through lines. -/
def plainProgram? (name : String) : Option Program :=
  match name with
  | "cat" => some cat
  | "echo" => some (echo false)
  | "printf" => some printf
  | "true" => some fun _ s => s.exit 0
  | "false" => some fun _ s => s.exit 1
  | "sleep" => some fun _ s => s.exit 0
  | "tr" => some tr
  | "rm" => some remove
  | "kill" => some kill
  | "test" => some (testAs "test")
  | "[" => some bracketTest
  | "touch" => some touch
  | "mkdir" => some makeDirectories
  | "cp" => some (copyAs "cp" true)
  | "mv" => some (copyAs "mv" false)
  | "chmod" => some changeModes
  | "basename" => some baseName
  | "dirname" => some directoryName
  | "printenv" => some printVariable
  | "yes" => some affirm
  | "pwd" => some fun _ s => (s.printLine (workingDirectory s)).exit 0
  | _ => none

end WarmCompile.Shell
