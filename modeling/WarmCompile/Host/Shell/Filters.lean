import WarmCompile.Host.Shell.Edit
import WarmCompile.Host.Shell.Field

/-!
Programs that go through texts line by line.
-/

namespace WarmCompile.Shell

/-- The text that a program goes through: the files it is given, or its input. -/
def textOfFiles (name : String) (files : List Bytes) (s : State) : Bytes × State :=
  (if files.isEmpty then [['-']] else files).foldl (fun (bs, s) file =>
    match s.read file with
    | (.ok content, s) => (bs ++ content, s)
    | (.error e, s) => (bs, s.fail 1 (complaintOf name file e))) ([], s.exit 0)

/-- A program that changes a text as a whole. -/
def filter (name : String) (f : Bytes → Bytes) (files : List Bytes) (s : State) : State :=
  let (bs, s) := textOfFiles name files s
  s.print (f bs)

def natOf (bs : Bytes) : Nat :=
  ((textOf bs).toNat?).getD 0

/-- The number at the front of a line. -/
def leadingNumber (bs : Bytes) : Int :=
  match Arithmetic.skipGaps bs with
  | '-' :: r => -(natOf (r.takeWhile Char.isDigit) : Int)
  | r => natOf (r.takeWhile Char.isDigit)

def sort : Program := fun args s =>
  let (opts, files) := options args
  let has := fun (c : Char) => opts.any (·.contains c)
  let le := fun (a b : Bytes) =>
    if has 'n' && leadingNumber a != leadingNumber b then
      decide (leadingNumber a < leadingNumber b) != has 'r'
    else if has 'r' then notAfter b a else notAfter a b
  filter "sort" (fun bs =>
    let sorted := (linesOf bs).1.mergeSort le
    unlines (if has 'u' then sorted.eraseDups else sorted)) files s

def reverseLines : Program := fun args s =>
  filter "rev" (fun bs =>
    let (ls, ended) := linesOf bs
    unlinesAs ended (ls.map List.reverse)) args s

/-- A last line that is not ended runs into the one that comes to stand behind it. -/
def lastLinesFirst : Program := fun args s =>
  filter "tac" (fun bs =>
    match linesOf bs with
    | (ls, true) => unlines ls.reverse
    | (ls, false) => ls.getLast?.getD [] ++ unlines ls.dropLast.reverse) args s

/-- Runs of equal lines, each with its length. -/
def runsOf : List Bytes → List (Nat × Bytes)
  | [] => []
  | l :: ls =>
    match runsOf ls with
    | (n, k) :: rest => if k = l then (n + 1, k) :: rest else (1, l) :: (n, k) :: rest
    | [] => [(1, l)]

/-- A number at the right end of a column. -/
def column (width n : Nat) : Bytes :=
  let t := toBytes (toString n)
  List.replicate (width - t.length) ' ' ++ t

def unique : Program := fun args s =>
  let (opts, files) := options args
  let has := fun (c : Char) => opts.any (·.contains c)
  filter "uniq" (fun bs =>
    let runs := (runsOf (linesOf bs).1).filter fun (n, _) =>
      (!has 'd' || 1 < n) && (!has 'u' || n = 1)
    unlines (runs.map fun (n, l) => if has 'c' then column 7 n ++ ' ' :: l else l)) files s

/-- A count given with an option, as it is written, and the files behind it. -/
def countOption : List Bytes → Option (Char × Bytes) × List Bytes
  | ['-', k] :: n :: files =>
    if k.isDigit then (some ('n', [k]), n :: files) else (some (k, n), files)
  | ('-' :: k :: n) :: files =>
    if k.isDigit then (some ('n', k :: n), files) else (some (k, n), files)
  | files => (none, files)

/-- So many from the front; behind a minus sign, all but so many at the end. -/
def takeCounted {α : Type} (n : Bytes) (xs : List α) : List α :=
  match n with
  | '-' :: r => xs.take (xs.length - natOf r)
  | r => xs.take (natOf r)

/-- So many from the end; behind a plus sign, all from that one on. -/
def dropCounted {α : Type} (n : Bytes) (xs : List α) : List α :=
  match n with
  | '+' :: r => xs.drop (natOf r - 1)
  | '-' :: r | r => xs.drop (xs.length - natOf r)

/-- Changes a list of lines, a last one that is not ended staying so if it is kept last. -/
def onLines (f : List Bytes → List Bytes) (bs : Bytes) : Bytes :=
  (f ((linesOf bs).1.mapIdx fun i l =>
    if (linesOf bs).2 || i + 1 < (linesOf bs).1.length then l ++ ['\n'] else l)).flatten

def head : Program := fun args s =>
  match countOption args with
  | (some ('c', n), files) =>
    if files = ["/dev/zero".toList] then (s.print (List.replicate (natOf n) '\x00')).exit 0
    else filter "head" (takeCounted n) files s
  | (some (_, n), files) => filter "head" (onLines (takeCounted n)) files s
  | (none, files) => filter "head" (onLines (List.take 10)) files s

def tail : Program := fun args s =>
  match countOption args with
  | (some ('c', n), files) => filter "tail" (dropCounted n) files s
  | (some (_, n), files) => filter "tail" (onLines (dropCounted n)) files s
  | (none, files) => filter "tail" (onLines (dropCounted ['1', '0'])) files s

/-- Numbers from one to another, by equal steps. -/
def numbersFrom (first step last : Int) : List Int :=
  let gap := if 0 < step then last - first else first - last
  if step = 0 ∨ gap < 0 then []
  else (List.range (gap.toNat / step.natAbs + 1)).map fun (i : Nat) => first + step * i

def sequence : Program := fun args s =>
  let (separator, args) := match args with
    | ['-', 's'] :: t :: r => (t, r)
    | ('-' :: 's' :: t) :: r => (t, r)
    | r => (['\n'], r)
  let shown := fun (xs : List Int) =>
    (s.print (if xs.isEmpty then [] else
      separator.intercalate (xs.map fun x => toBytes (toString x)) ++ ['\n'])).exit 0
  match args.map fun a => (Arithmetic.integer? a).getD 0 with
  | [last] => shown (numbersFrom 1 1 last)
  | [first, last] => shown (numbersFrom first 1 last)
  | [first, step, last] => shown (numbersFrom first step last)
  | _ => s.fail 1 "seq: missing operand"

/-- Words among blanks. -/
def wordsIn (bs : Bytes) : Nat :=
  ((bs.splitOnP isSpace).filter fun (w : Bytes) => !w.isEmpty).length

def count : Program := fun args s =>
  let (opts, files) := options args
  let (bs, s) := textOfFiles "wc" files s
  let wanted := fun (c : Char) => opts.isEmpty || opts.any (·.contains c)
  let counts := (if wanted 'l' then [bs.count '\n'] else []) ++
    (if wanted 'w' then [wordsIn bs] else []) ++
    (if wanted 'c' || wanted 'm' then [bs.length] else [])
  let width := if files.isEmpty && 1 < counts.length then 7
    else if counts.length ≤ 1 then 1 else (toString bs.length).length
  s.printLine (joined (counts.map (column width) ++ files))

/-- The part of a list of lines that is searched for, each line with its number. -/
def grep : Program := fun args s =>
  let (opts, rest) := options args
  let has := fun (c : Char) => opts.any (·.contains c)
  match rest with
  | [] => s.fail 2 "Usage: grep [OPTION]... PATTERNS [FILE]..."
  | text :: files =>
    match (if has 'F' then some (Pattern.literal (has 'i') text)
        else Pattern.ofText? (has 'E') (has 'i') text) with
    | none => s.fail 2 "grep: Invalid regular expression"
    | some p =>
      let (bs, s) := textOfFiles "grep" files s
      let fitting := fun (l : Bytes) => match p.find? true l with
        | some (ahead, found, behind) =>
          !has 'x' || (ahead.isEmpty && behind.isEmpty) || found.length = l.length
        | none => false
      let found := ((linesOf bs).1.zipIdx 1).filter fun (l, _) => fitting l != has 'v'
      let mark := fun (n : Nat) => if has 'n' then toBytes (toString n) ++ [':'] else []
      let shown := if has 'o' then
          found.flatMap fun (l, n) =>
            ((p.all l).1.map (·.2)).filterMap fun m =>
              if m.isEmpty then none else some (mark n ++ m)
        else found.map fun (l, n) => mark n ++ l
      let s := if has 'q' then s
        else if has 'c' then s.printLine (toBytes (toString found.length))
        else s.print (unlines shown)
      if s.status = 0 then s.exit (if found.isEmpty then 1 else 0) else s.exit 2

/-- The scripts, and the other arguments; without `-e` the first argument is the script. -/
def scriptsIn : List Bytes → List Bytes × List Bytes
  | ['-', 'e'] :: script :: r => let (ss, files) := scriptsIn r; (script :: ss, files)
  | a :: r => let (ss, files) := scriptsIn r; (ss, a :: files)
  | [] => ([], [])

def sed : Program := fun args s =>
  let (opts, rest) := match scriptsIn args with
    | (s :: ss, rest) => ([['\n'].intercalate (s :: ss)], rest)
    | ([], rest) => ([], rest)
  let (flags, files) := options rest
  let has := fun (c : Char) => flags.any (·.contains c)
  match opts ++ files with
  | [] => s.fail 1 "Usage: sed [OPTION]... \x7bscript-only-if-no-other-script\x7d [input-file]..."
  | script :: files =>
    match readEdits (has 'E' || has 'r') (script.length + 1) script with
    | none => s.fail 1 ("sed: -e expression #1, char " ++ toString script.length ++
        ": unterminated `s' command")
    | some edits =>
      filter "sed" (fun bs =>
        let (ls, ended) := linesOf bs
        editLines (has 'n') ended (edits.map fun e => (e, false)) 1 ls) files s

/-- The positions that a list of numbers and ranges names. -/
def isListed (list : Bytes) (n : Nat) : Bool :=
  (list.splitOn ',').any fun range =>
    match range.splitOn '-' with
    | [a] => natOf a = n
    | [a, b] => natOf a ≤ n && (b.isEmpty || n ≤ natOf b)
    | _ => false

/-- The value of an option, behind its letter or as the next word; and the other words. -/
def valueOf (letter : Char) : List Bytes → Option Bytes × List Bytes
  | ['-', c] :: v :: r =>
    if c = letter then (some v, r)
    else let (found, r) := valueOf letter (v :: r); (found, ['-', c] :: r)
  | ('-' :: c :: v) :: r =>
    if c = letter then (some v, r)
    else let (found, r) := valueOf letter r; (found, ('-' :: c :: v) :: r)
  | a :: r => let (found, r) := valueOf letter r; (found, a :: r)
  | [] => (none, [])

def cut : Program := fun args s =>
  let (mark, args) := valueOf 'd' args
  let (fields, args) := valueOf 'f' args
  let (chars, args) := valueOf 'c' args
  let (bytes, args) := valueOf 'b' args
  let mark := (mark.bind List.head?).getD '\t'
  let kept := fun {α : Type} (list : Bytes) (xs : List α) =>
    ((xs.zipIdx 1).filter fun (_, i) => isListed list i).map (·.1)
  match fields, chars <|> bytes with
  | some list, _ =>
    filter "cut" (fun bs => unlines ((linesOf bs).1.map fun l =>
      if l.contains mark then [mark].intercalate (kept list (l.splitOn mark)) else l))
      (options args).2 s
  | none, some list =>
    filter "cut" (fun bs => unlines ((linesOf bs).1.map (kept list))) (options args).2 s
  | none, none => s.fail 1 "cut: you must specify a list of bytes, characters, or fields"

def numbered : Program := fun args s =>
  filter "nl" (fun bs =>
    let lines := (linesOf bs).1
    let step := fun ((n, out) : Nat × List Bytes) (l : Bytes) =>
      if l.isEmpty then (n, out ++ [List.replicate 7 ' '])
      else (n + 1, out ++ [column 6 n ++ '\t' :: l])
    unlines (lines.foldl step (1, [])).2) (options args).2 s

/-- The names in a directory that are not hidden, or the name of a file. -/
def listed (s : State) (path : Bytes) : Option (List Bytes) :=
  match s.tree.find? (textOf path) with
  | .ok (.directory _) => some ((namesIn s.tree path).filter (·.head? != some '.'))
  | .ok _ => some [path]
  | .error _ => none

def listing : Program := fun args s =>
  let files := (options args).2
  (if files.isEmpty then [['.']] else files).foldl (fun s file =>
    match listed s file with
    | some names => s.print (unlines names)
    | none => s.fail 2 ("ls: cannot access '" ++ textOf file ++ "': No such file or directory"))
    (s.exit 0)

def tee : Program := fun args s =>
  let (opts, files) := options args
  let append := opts.any (·.contains 'a')
  let (bs, s) := s.takeInput
  files.foldl (fun s file =>
    match s.openTarget file append with
    | .ok (target, s) => s.send target bs
    | .error e => s.fail 1 (complaintOf "tee" file e)) ((s.print bs).exit 0)

/-- The programs that may also be started by themselves. -/
def program? (name : String) : Option Program :=
  match name with
  | "sort" => some sort
  | "rev" => some reverseLines
  | "tac" => some lastLinesFirst
  | "uniq" => some unique
  | "head" => some head
  | "tail" => some tail
  | "seq" => some sequence
  | "wc" => some count
  | "grep" => some grep
  | "sed" => some sed
  | "cut" => some cut
  | "nl" => some numbered
  | "ls" => some listing
  | "tee" => some tee
  | name => plainProgram? name

end WarmCompile.Shell
