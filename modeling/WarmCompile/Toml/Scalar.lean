import WarmCompile.Toml.Document

/-!
Texts, numbers and moments of a TOML document.
-/

namespace WarmCompile.Toml

abbrev Rest := List Char

def isDigit (c : Char) : Bool := '0' ≤ c && c ≤ '9'

def digit? (base : Nat) (c : Char) : Option Nat :=
  let v :=
    if '0' ≤ c ∧ c ≤ '9' then some (c.toNat - '0'.toNat)
    else if 'a' ≤ c ∧ c ≤ 'f' then some (c.toNat - 'a'.toNat + 10)
    else if 'A' ≤ c ∧ c ≤ 'F' then some (c.toNat - 'A'.toNat + 10)
    else none
  v.filter (· < base)

/-- Digits, singly separated by underscores. -/
def grouped (base : Nat) (cs : List Char) : Option (List Nat) :=
  let groups := cs.splitOn '_'
  if groups.any List.isEmpty then none else groups.flatten.mapM (digit? base)

def valueOf (base : Nat) (ds : List Nat) : Nat :=
  ds.foldl (fun n d => base * n + d) 0

/-- Decimal digits without a superfluous zero in front. -/
def plainDigits (cs : List Char) : Option (List Nat) := do
  let ds ← grouped 10 cs
  match ds with
  | 0 :: _ :: _ => none
  | ds => some ds

def unsigned (cs : List Char) : Bool × List Char :=
  match cs with
  | '-' :: r => (true, r)
  | '+' :: r => (false, r)
  | r => (false, r)

def integer? (cs : List Char) : Option Int :=
  match cs with
  | '0' :: 'x' :: r => do return valueOf 16 (← grouped 16 r)
  | '0' :: 'o' :: r => do return valueOf 8 (← grouped 8 r)
  | '0' :: 'b' :: r => do return valueOf 2 (← grouped 2 r)
  | cs => do
    let (negative, r) := unsigned cs
    let n : Int := valueOf 10 (← plainDigits r)
    return if negative then -n else n

/-- The digits and the power of ten of a number that is written with a point or a power. -/
def realParts? (cs : List Char) : Option (List Nat × Int) := do
  let (m, p) ← match (unsigned cs).2.splitOnP fun c => c == 'e' || c == 'E' with
    | [m] => if m.contains '.' then some (m, (0 : Int)) else none
    | [m, p] => do
      let (negative, ds) := unsigned p
      let n : Int := valueOf 10 (← grouped 10 ds)
      some (m, if negative then -n else n)
    | _ => none
  match m.splitOn '.' with
  | [whole] => return (← plainDigits whole, p)
  | [whole, part] => do
    let places ← grouped 10 part
    return ((← plainDigits whole) ++ places, p - places.length)
  | _ => none

/-- Whether digits with a power of ten do not exceed the reals of 64 bits. -/
def isFinite (ds : List Nat) (e : Int) : Bool :=
  let n := valueOf 10 ds
  let size := (Nat.toDigits 10 n).length + e
  n = 0 || size < 300 ||
    (size ≤ 310 && n * .pow 10 e.toNat < (.pow 2 1024 - .pow 2 970) * .pow 10 (-e).toNat)

def isReal (cs : List Char) : Bool :=
  let r := (unsigned cs).2
  r = "inf".toList || r = "nan".toList ||
    match realParts? cs with
    | some (ds, e) => isFinite ds e
    | none => false

/-- Whole numbers have at most 128 bits. -/
def isInteger (n : Int) : Bool :=
  -(.pow 2 127 : Nat) ≤ n && n < (.pow 2 128 : Nat)

/-- A number of exactly so many digits within bounds. -/
def fieldIn (width low high : Nat) (cs : List Char) : Bool :=
  cs.length == width && cs.all isDigit &&
    (let n := valueOf 10 (cs.filterMap (digit? 10)); low ≤ n && n ≤ high)

def daysIn (year month : Nat) : Nat :=
  if month = 2 then
    if year % 4 = 0 && (year % 100 ≠ 0 || year % 400 = 0) then 29 else 28
  else if month ∈ [4, 6, 9, 11] then 30 else 31

def isDate (cs : List Char) : Bool :=
  match cs.splitOn '-' with
  | [y, m, d] =>
    fieldIn 4 0 9999 y && fieldIn 2 1 12 m &&
      fieldIn 2 1 (daysIn (valueOf 10 (y.filterMap (digit? 10)))
        (valueOf 10 (m.filterMap (digit? 10)))) d
  | _ => false

def isSeconds (cs : List Char) : Bool :=
  match cs.splitOn '.' with
  | [s] => fieldIn 2 0 60 s
  | [s, f] => fieldIn 2 0 60 s && !f.isEmpty && f.all isDigit
  | _ => false

def isClock (cs : List Char) : Bool :=
  match cs.splitOn ':' with
  | [h, m] => fieldIn 2 0 23 h && fieldIn 2 0 59 m
  | [h, m, s] => fieldIn 2 0 23 h && fieldIn 2 0 59 m && isSeconds s
  | _ => false

def isOffset (cs : List Char) : Bool :=
  match cs with
  | [] => true
  | [c] => c == 'Z' || c == 'z'
  | c :: r =>
    (c == '+' || c == '-') &&
      match r.splitOn ':' with
      | [h, m] => fieldIn 2 0 23 h && fieldIn 2 0 59 m
      | _ => false

def isTime (cs : List Char) : Bool :=
  let isMark := fun c => c == 'Z' || c == 'z' || c == '+' || c == '-'
  isClock (cs.takeWhile (!isMark ·)) && isOffset (cs.dropWhile (!isMark ·))

def isMoment (cs : List Char) : Bool :=
  isDate cs || (isClock cs) ||
    (isDate (cs.take 10) &&
      match cs.drop 10 with
      | c :: r => (c == 'T' || c == 't' || c == ' ') && isTime r
      | [] => false)

/-- A bare value. -/
def bare? (cs : List Char) : Option Node :=
  if cs = "true".toList then some (.bool true)
  else if cs = "false".toList then some (.bool false)
  else match integer? cs with
    | some n => if isInteger n then some (.integer n) else none
    | none => if isReal cs then some .real else if isMoment cs then some .moment else none

def isBareChar (c : Char) : Bool :=
  c.isAlphanum || c == '_' || c == '-' || c == '+' || c == '.' || c == ':'

/-- A bare value at the front; a date may be parted from its time by one blank. -/
def readBare (cs : List Char) : Option (Node × Rest) :=
  let word := cs.takeWhile isBareChar
  let rest := cs.dropWhile isBareChar
  match isDate word, rest with
  | true, ' ' :: c :: r =>
    if isDigit c then
      let time := (c :: r).takeWhile isBareChar
      (bare? (word ++ ' ' :: time)).map fun n => (n, (c :: r).dropWhile isBareChar)
    else (bare? word).map fun n => (n, rest)
  | _, _ => (bare? word).map fun n => (n, rest)

/-- Controls other than the tab stand nowhere. -/
def isControl (c : Char) : Bool :=
  (c < ' ' && c != '\t') || c == '\x7f'

def readNumbered (width : Nat) (cs : List Char) : Option (Char × Rest) := do
  let ds ← (cs.take width).mapM (digit? 16)
  if ds.length ≠ width then none
  else
    let n := valueOf 16 ds
    if n.isValidChar then some (Char.ofNat n, cs.drop width) else none

/-- What a backslash introduces. -/
def readEscape : List Char → Option (Char × Rest)
  | 'b' :: r => some ('\x08', r)
  | 't' :: r => some ('\t', r)
  | 'n' :: r => some ('\n', r)
  | 'f' :: r => some ('\x0c', r)
  | 'r' :: r => some ('\r', r)
  | 'e' :: r => some ('\x1b', r)
  | '"' :: r => some ('"', r)
  | '\\' :: r => some ('\\', r)
  | 'x' :: r => readNumbered 2 r
  | 'u' :: r => readNumbered 4 r
  | 'U' :: r => readNumbered 8 r
  | _ => none

/-- The rest of a text in double quotes on one line; the fuel is the number of characters. -/
def readBasic : Nat → List Char → Option (List Char × Rest)
  | 0, _ => none
  | _ + 1, [] => none
  | _ + 1, '"' :: r => some ([], r)
  | n + 1, '\\' :: r => do
    let (c, r) ← readEscape r
    let (s, r) ← readBasic n r
    return (c :: s, r)
  | n + 1, c :: r =>
    if isControl c then none
    else do let (s, r) ← readBasic n r; return (c :: s, r)

def readLiteral : List Char → Option (List Char × Rest)
  | [] => none
  | c :: r =>
    if c = '\'' then some ([], r)
    else if isControl c then none
    else (readLiteral r).map fun (s, r) => (c :: s, r)

/-- Three quotes end a text on several lines; up to two more before them belong to it. -/
def closesWith (q : Char) (cs : List Char) : Option (List Char × Rest) :=
  let run := (cs.takeWhile (· == q)).length
  if 3 ≤ run ∧ run ≤ 5 then some (List.replicate (run - 3) q, cs.drop run) else none

/-- A backslash at the end of a line takes away the blanks up to the next text. -/
def continues (cs : List Char) : Option Rest :=
  match cs.dropWhile fun c => c == ' ' || c == '\t' with
  | '\n' :: r => some (r.dropWhile fun c => c == ' ' || c == '\t' || c == '\n' || c == '\r')
  | '\r' :: '\n' :: r =>
    some (r.dropWhile fun c => c == ' ' || c == '\t' || c == '\n' || c == '\r')
  | _ => none

def readLines (q : Char) : Nat → List Char → Option (List Char × Rest)
  | 0, _ => none
  | n + 1, cs =>
    match closesWith q cs with
    | some found => some found
    | none =>
      match cs with
      | [] => none
      | '\n' :: r => (readLines q n r).map fun (s, r) => ('\n' :: s, r)
      | '\r' :: '\n' :: r => (readLines q n r).map fun (s, r) => ('\n' :: s, r)
      | c :: r =>
        if c = q then
          if (cs.takeWhile (· == q)).length ≤ 2 then
            (readLines q n r).map fun (s, r) => (c :: s, r)
          else none
        else if c = '\\' ∧ q = '"' then
          match continues r with
          | some r => readLines q n r
          | none => do
            let (c, r) ← readEscape r
            let (s, r) ← readLines q n r
            return (c :: s, r)
        else if isControl c then none
        else (readLines q n r).map fun (s, r) => (c :: s, r)

/-- A line feed right behind the opening quotes does not count. -/
def behindBreak : List Char → List Char
  | '\n' :: r => r
  | '\r' :: '\n' :: r => r
  | r => r

def readQuoted (cs : List Char) : Option (List Char × Rest) :=
  match cs with
  | '"' :: '"' :: '"' :: r => readLines '"' (r.length + 1) (behindBreak r)
  | '"' :: r => readBasic (r.length + 1) r
  | '\'' :: '\'' :: '\'' :: r => readLines '\'' (r.length + 1) (behindBreak r)
  | '\'' :: r => readLiteral r
  | _ => none

end WarmCompile.Toml
