import WarmCompile.Host.Shell.Builtin
import WarmCompile.Host.Shell.Filters
import WarmCompile.Host.Shell.Grammar

/-!
Running scripts. The fuel bounds how deep commands nest and how often they repeat.
-/

namespace WarmCompile.Shell

/-- The value of a variable, if it has one. -/
def valueOf? (s : State) (name : Bytes) : Option Bytes :=
  match name with
  | ['$'] => some processId
  | ['?'] => some (toBytes (toString s.status))
  | ['#'] => some (toBytes (toString s.args.length))
  | ['!'] => some []
  | ['-'] => some []
  | ['*'] =>
    if s.args.isEmpty then none
    else some (((separatorsOf s).take 1).intercalate s.args)
  | ['@'] => if s.args.isEmpty then none else some (joined s.args)
  | ['0'] => some s.name
  | _ =>
    if name.all Char.isDigit then s.args[natOf name - 1]?
    else s.get? name

def withoutBreaks (bs : Bytes) : Bytes :=
  (bs.reverse.dropWhile (· == '\n')).reverse

def written (s : State) : Bytes :=
  s.output.reverse.flatten

/-- A script of its own that begins where another one stands. -/
def inside (s : State) : State :=
  { s with stop := none, farewell := [] }

/-- The state behind a part of a script that ran on its own: files and output last. -/
def leave (outer inner : State) : State :=
  { outer with
    tree := ⟨inner.tree.root, outer.tree.cwd⟩
    input := inner.input
    output := inner.output
    complaint := inner.complaint
    status := match inner.stop with
      | some (.ended (.code n)) => n
      | some (.ended (.signal n)) => 128 + n
      | _ => inner.status
    stop := match inner.stop with
      | some (.ended (.signal n)) => some (.ended (.signal n))
      | _ => outer.stop }

/-- The state behind another process, whose signals are its own. -/
def leaveProcess (outer inner : State) : State :=
  { leave outer inner with stop := outer.stop }

/-- Another process, which sees the exported variables. -/
def process (s : State) (name : Bytes) (args : List Bytes) : State :=
  let started := State.start s.tree name s.environment []
  { started with
    args := args
    input := s.input
    output := s.output
    complaint := s.complaint
    outTo := s.outTo
    errTo := s.errTo }

def openFault (e : IoError) : Bytes :=
  match e with
  | .noEntry => "No such file".toList
  | e => (plainMessage e).toList

def createFault (e : IoError) : Bytes :=
  match e with
  | .noEntry => "Directory nonexistent".toList
  | e => (plainMessage e).toList

/-- Sets up where input comes from, or output goes. -/
def redirect (text : Word → State → Bytes × State) (r : Redirect) (s : State) :
    Except State State :=
  match r with
  | .toFile fd append target =>
    let (path, s) := text target s
    match s.openTarget path append with
    | .ok (target, s) =>
      .ok (if fd = 1 then { s with outTo := target }
        else if fd = 2 then { s with errTo := target } else s)
    | .error e =>
      .error (s.refuse 2 ("cannot create ".toList ++ path ++ ": ".toList ++ createFault e))
  | .fromFile target =>
    let (path, s) := text target s
    match s.read path with
    | (.ok content, s) => .ok { s with input := some content }
    | (.error .isDirectory, s) => .ok { s with input := some [] }
    | (.error e, s) =>
      .error (s.refuse 2 ("cannot open ".toList ++ path ++ ": ".toList ++ openFault e))
  | .fromText w =>
    let (content, s) := text w s
    .ok { s with input := some content }
  | .copy fd target =>
    let source := if target = 2 then s.errTo else s.outTo
    if 2 < target then
      .error (s.refuse 2 (toBytes (toString target) ++ ": Bad file descriptor".toList))
    else .ok (if fd = 1 then { s with outTo := source }
      else if fd = 2 then { s with errTo := source } else s)
  | .close fd =>
    .ok (if fd = 0 then { s with input := none }
      else if fd = 1 then { s with outTo := .closed }
      else if fd = 2 then { s with errTo := .closed } else s)

def bringsInput : Redirect → Bool
  | .fromFile _ | .fromText _ | .close 0 => true
  | _ => false

/-- Ends the script at a failure that nobody looks at, if it asks for that. -/
def heed (s : State) : State :=
  if s.strict && !s.guarded && s.status != 0 && s.stop.isNone then
    { s with stop := some (.ended (.code s.status)) }
  else s

/-- Runs something whose status is looked at. -/
def watched (run : State → State) (s : State) : State :=
  { run { s with guarded := true } with guarded := s.guarded }

/-- Whether a loop goes on behind a turn. -/
def endTurn (s : State) : State × Bool :=
  match s.stop with
  | none => (s, true)
  | some (.leave n) => ({ s with stop := if n ≤ 1 then none else some (.leave (n - 1)) }, false)
  | some (.next n) =>
    if n ≤ 1 then ({ s with stop := none }, true)
    else ({ s with stop := some (.next (n - 1)) }, false)
  | some _ => (s, false)

def isShell (name : String) : Bool :=
  name ∈ ["sh", "dash", "bash"]

/-- The name of a program that every system has, given by itself or with its usual directory. -/
def standardName (program : String) : String :=
  match ["/bin/", "/usr/bin/"].find? fun dir => program.startsWith dir with
  | some dir => String.ofList (program.toList.drop dir.length)
  | none => program

def isExecutable (mode : Nat) : Bool :=
  mode / 64 % 2 = 1 || mode / 8 % 2 = 1 || mode % 2 = 1

/-- The program that the first line of a file names, if it names one. -/
def interpreter? (content : Bytes) : Option Bytes :=
  match content with
  | '#' :: '!' :: text =>
    let line := (text.takeWhile (· != '\n')).dropWhile (· == ' ')
    let words := (line.splitOn ' ').filter fun (w : Bytes) => !w.isEmpty
    if words.head? = some "/usr/bin/env".toList then words[1]? else words.head?
  | _ => none

mutual
/-- The text of a piece. -/
def value : Nat → Piece → State → Bytes × State
  | 0, _, s => ([], s)
  | n + 1, p, s =>
    match p with
    | .plain t _ => (t, s)
    | .variable name change quoted => changed n name change quoted s
    | .output script _ =>
      let inner := runText n script (inside { s with output := [], outTo := .output })
      (withoutBreaks (written inner), leave s { inner with output := s.output })
    | .number text _ =>
      let (text, s) := whole n (readInside true text) s
      match Arithmetic.evaluate s.get text with
      | .ok (x, assigned) =>
        (toBytes (toString x),
          assigned.reverse.foldl (fun s (k, x) => s.set k (toBytes (toString x))) s)
      | .error f => ([], s.giveUp 2 (f.message text))

/-- The text of a variable as it is asked for. -/
def changed : Nat → Bytes → Change → Bool → State → Bytes × State
  | 0, _, _, _, s => ([], s)
  | n + 1, name, change, quoted, s =>
    let v := valueOf? s name
    let isSet := fun (orEmpty : Bool) => v.isSome && !(orEmpty && v == some [])
    match change with
    | .none =>
      if v.isNone && s.namesMatter && name ∉ [['@'], ['*']] then
        ([], s.giveUp 2 (name ++ ": parameter not set".toList))
      else (v.getD [], s)
    | .length => (toBytes (toString (v.getD []).length), s)
    | .orElse orEmpty w => if isSet orEmpty then (v.getD [], s) else whole n (readInside quoted w) s
    | .orAssign orEmpty w =>
      if isSet orEmpty then (v.getD [], s)
      else
        let (t, s) := whole n (readInside quoted w) s
        (t, s.set name t)
    | .orStop orEmpty w =>
      if isSet orEmpty then (v.getD [], s)
      else
        let (t, s) := whole n (readInside quoted w) s
        let message := if t.isEmpty then
          (if orEmpty then "parameter not set or null" else "parameter not set").toList else t
        ([], s.giveUp 2 (name ++ ": ".toList ++ message))
    | .instead orEmpty w => if isSet orEmpty then whole n (readInside quoted w) s else ([], s)
    | .trim atEnd longest pattern =>
      let (ps, s) := parts n (readInside false pattern) s
      (trimBy atEnd longest (marksOf ps) (v.getD []), s)

def parts : Nat → Word → State → List Part × State
  | _, [], s => ([], s)
  | 0, _, s => ([], s)
  | n + 1, p :: w, s =>
    let (t, s) := value n p s
    let treatment := match p with
      | .plain _ quoted => if quoted then .whole else .written
      | .variable _ _ quoted | .output _ quoted | .number _ quoted =>
        if quoted then .whole else .cut
    let (rest, s) := parts n w s
    ((t, treatment) :: rest, s)

/-- The fields of some words. -/
def fields : Nat → List Word → State → List Bytes × State
  | _, [], s => ([], s)
  | 0, _, s => ([], s)
  | n + 1, w :: ws, s =>
    let (mine, s) := match w with
      | [.plain [] true, .variable ['@'] .none true] => (s.args, s)
      | w =>
        let (ps, s) := parts n w s
        ((cutParts (separatorsOf s) ps).flatMap (spread s.tree), s)
    let (rest, s) := fields n ws s
    (mine ++ rest, s)

def whole : Nat → Word → State → Bytes × State
  | 0, _, s => ([], s)
  | n + 1, w, s => let (ps, s) := parts n w s; ((ps.map (·.1)).flatten, s)

/-- Runs a script line by line. -/
def runLines : Nat → Bytes → State → State
  | 0, _, s => s
  | n + 1, script, s =>
    if s.stop.isSome then s
    else match nextLine? script with
      | .error f => { s with line := s.lastLine - f.below }.giveUp 2 f.message.toList
      | .ok none => s
      | .ok (some (c, rest)) => runLines n rest (run n c s)

/-- Runs a script as a part of another one. -/
def runText : Nat → Bytes → State → State
  | 0, _, s => s
  | n + 1, script, s =>
    { runLines n script { s with lastLine := s.line + script.count '\n' } with
      lastLine := s.lastLine }

/-- Runs a script to its end, and what it leaves to be run then. -/
def runToEnd : Nat → Bytes → State → State
  | 0, _, s => s
  | n + 1, script, s =>
    let s := runText n script s
    if s.farewell.isEmpty then s
    else match s.stop with
      | some (.ended (.signal _)) => s
      | stop =>
        let after := runText n s.farewell { s with stop := none, farewell := [] }
        if after.stop.isNone then { after with stop := stop, status := s.status } else after

/-- A file that is run by the program its first line names, or else as a script. -/
def runFile : Nat → Bytes → Bytes → List Bytes → State → State
  | 0, _, _, _, s => s
  | n + 1, content, path, args, s =>
    match interpreter? content with
    | some name =>
      if isShell (standardName (textOf name)) then runToEnd n content (process s path args)
      else start n (toBytes (standardName (textOf name))) (path :: args) s
    | none => runToEnd n content (process s path args)

/-- A shell with its own arguments: a script as text, or a file that holds one. -/
def shell : Nat → List Bytes → State → State
  | 0, _, s => s
  | n + 1, args, s =>
    match args with
    | ['-', 'c'] :: text :: rest =>
      runToEnd n text (process s ((rest.head?).getD s.name) (rest.drop 1))
    | ['-', 'e', 'c'] :: text :: rest | ['-', 'e'] :: ['-', 'c'] :: text :: rest =>
      runToEnd n text { process s ((rest.head?).getD s.name) (rest.drop 1) with strict := true }
    | ['-'] :: _ | ['-', 's'] :: _ | [] =>
      let (text, s) := s.takeInput
      runToEnd n text (process s s.name [])
    | file :: rest =>
      match s.read file with
      | (.ok content, s) => runToEnd n content (process s file rest)
      | (.error e, s) =>
        s.fail 2 ("sh: 0: cannot open " ++ textOf file ++ ": " ++ String.ofList (openFault e))

/-- Starts another program. -/
def start : Nat → Bytes → List Bytes → State → State
  | 0, _, _, s => s
  | n + 1, name, args, s =>
    let program := standardName (textOf name)
    if isShell program then leaveProcess s (shell n args { s with name := name })
    else if program = "env" then
      let args := if args.head? = some ['-', 'i'] then args.drop 1 else args
      let isPair := fun (a : Bytes) => a.contains '='
      let pairs := args.takeWhile isPair
      let s' := exportAll pairs s
      match args.dropWhile isPair with
      | [] => printVariable [] s'
      | inner :: rest =>
        let after := start n inner rest s'
        { after with vars := s.vars, exported := s.exported }
    else if program = "xargs" then
      let (bs, s) := s.takeInput
      let words := (bs.splitOnP isSpace).filter fun (w : Bytes) => !w.isEmpty
      match (options args).2 with
      | [] => echo false words s
      | inner :: rest => start n inner (rest ++ words) s
    else match program? program with
      | some p => p args s
      | none =>
        if !name.contains '/' then s.refuse 127 (name ++ ": not found".toList)
        else match s.tree.find? (textOf name) with
          | .ok (.file content mode) =>
            if isExecutable mode then leaveProcess s (runFile n (contentOf content) name args s)
            else s.refuse 126 (name ++ ": Permission denied".toList)
          | .ok _ => s.refuse 126 (name ++ ": Permission denied".toList)
          | .error _ => s.refuse 127 (name ++ ": not found".toList)

/-- Calls a command by name. -/
def call : Nat → Bytes → List Bytes → State → State
  | 0, _, _, s => s
  | n + 1, name, args, s =>
    match textOf name, args with
    | "eval", words => runText n (joined words) (s.exit 0)
    | ".", file :: _ =>
      match s.read file with
      | (.ok content, s) =>
        let after := runText n content s
        if after.stop = some .back then { after with stop := none } else after
      | (.error e, s) =>
        s.giveUp 2 (".: cannot open ".toList ++ file ++ ": ".toList ++ openFault e)
    | "exec", program :: args =>
      let known := isShell (textOf program) || (program? (textOf program)).isSome ||
        program.contains '/' || program = "env".toList
      if known then
        let s := start n program args s
        if s.stop.isSome then s else { s with stop := some (.ended (.code s.status)) }
      else s.giveUp 127 ("exec: ".toList ++ program ++ ": not found".toList)
    | "command", ['-', 'v'] :: program :: _ =>
      if (builtin? (textOf program)).isSome || (s.functions.lookup program).isSome then
        (s.printLine program).exit 0
      else if isShell (textOf program) || (program? (textOf program)).isSome then
        (s.printLine ("/usr/bin/".toList ++ program)).exit 0
      else s.exit 127
    | "command", program :: args =>
      call n program args { s with functions := [] } |> fun after =>
        { after with functions := s.functions }
    | other, args =>
      match s.functions.lookup name with
      | some body =>
        let after := run n body { s with args := args }
        { after with
          args := s.args
          stop := match after.stop with
            | some (.ended status) => some (.ended status)
            | _ => none }
      | none =>
        match builtin? other with
        | some b => b args s
        | none => start n name args s

def run : Nat → Command → State → State
  | 0, _, s => { s with stop := some (.ended (.code 2)) }
  | n + 1, c, s =>
    if s.stop.isSome then s
    else match c with
      | .simple below assigned words =>
        let s := { s with line := s.lastLine - below }
        let before := s.status
        let (fs, s) := fields n words s
        match fs with
        | [] =>
          let s := assigned.foldl (fun s (k, w) => let (v, s) := whole n w s; s.set k v) s
          if s.stop.isSome then s
          else
            let takesOutput := (assigned.map (·.2) ++ words).any fun w => w.any Piece.isOutput
            heed (if takesOutput || assigned.isEmpty && words.isEmpty then s else s.exit 0)
        | name :: args =>
          if s.stop.isSome then s
          else
            let inner := assigned.foldl (fun s (k, w) =>
              let (v, s) := whole n w s
              { s.set k v with exported := k :: s.exported }) { s with status := before }
            let after := call n name args inner
            let after := if keepsAssignments (textOf name) then after
              else assigned.foldl (fun t (k, _) => t.restore k (s.get? k)) after
            heed { after with exported := if assigned.isEmpty then after.exported else s.exported }
      | .choose subject arms =>
        let (t, s) := whole n subject s
        match arms.find? fun (patterns, _) =>
            patterns.any fun w => fits (marksOf (parts n w s).1) t with
        | some (_, body) => run n body (s.exit 0)
        | none => s.exit 0
      | .branch condition yes no =>
        let s := watched (run n condition) s
        if s.stop.isSome then s
        else if s.status = 0 then run n yes s else run n no (s.exit 0)
      | .repeatWhile condition body => repeated n condition body 0 s
      | .forEach name words body =>
        let (fs, s) := match words with
          | some words => fields n words s
          | none => (s.args, s)
        (fs.foldl (fun (s, goesOn) f =>
          if goesOn then endTurn (run n body (s.set name f)) else (s, false)) (s.exit 0, true)).1
      | .define name body => { s with functions := (name, body) :: s.functions }.exit 0
      | .inner body => heed (leave s (run n body (inside s)))
      | .redirected body redirects =>
        let s := match body with
          | .simple below .. => { s with line := s.lastLine - below }
          | _ => s
        let opened := redirects.foldl (fun (acc : Except State State) r =>
          acc.bind fun s => redirect (whole n) r s) (.ok s)
        let isExec := match body with
          | .simple _ [] [w] => bareWord w == some "exec".toList
          | _ => false
        match opened with
        | .error s' =>
          let s' := { s' with outTo := s.outTo, errTo := s.errTo, input := s.input }
          if isExec then { s' with stop := some (.ended (.code s'.status)) } else heed s'
        | .ok s' =>
          if isExec then s'.exit 0
          else
            let after := run n body s'
            { after with
              outTo := s.outTo
              errTo := s.errTo
              input := if redirects.any bringsInput then s.input else after.input }
      | .pipe left right =>
        let l := run n left (inside { s with output := [], outTo := .output })
        let between := leave s { l with output := s.output }
        let r := run n right (inside { between with input := some (written l) })
        heed (leave between { r with input := between.input })
      | .both left right =>
        let s := watched (run n left) s
        if s.status = 0 then run n right s else s
      | .either left right =>
        let s := watched (run n left) s
        if s.status = 0 then s else run n right s
      | .negated body =>
        let s := watched (run n body) s
        if s.stop.isSome then s else s.exit (if s.status = 0 then 1 else 0)
      | .sequence parts => parts.foldl (fun s c => run n c s) s

/-- Turns of a loop; its status is that of the last one. -/
def repeated : Nat → Command → Command → Nat → State → State
  | 0, _, _, _, s => { s with stop := some (.ended (.code 2)) }
  | n + 1, condition, body, last, s =>
    let s := watched (run n condition) s
    if s.stop.isSome then (endTurn s).1
    else if s.status = 0 then
      match endTurn (run n body s) with
      | (s, true) => repeated n condition body s.status s
      | (s, false) => s
    else s.exit last
end

end WarmCompile.Shell
