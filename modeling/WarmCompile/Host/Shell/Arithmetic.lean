import WarmCompile.Host.Shell.Script

/-!
Expressions over whole numbers of 64 bits, with variables and assignments to them.
-/

namespace WarmCompile.Shell.Arithmetic

inductive Operator where
  | or | and | bitOr | bitXor | bitAnd | eq | ne | le | lt | ge | gt | shiftLeft | shiftRight
  | add | sub | mul | div | rem
  deriving DecidableEq, Repr

/-- Operators of a higher level bind more tightly. -/
def Operator.level : Operator → Nat
  | .or => 0
  | .and => 1
  | .bitOr => 2
  | .bitXor => 3
  | .bitAnd => 4
  | .eq | .ne => 5
  | .le | .lt | .ge | .gt => 6
  | .shiftLeft | .shiftRight => 7
  | .add | .sub => 8
  | .mul | .div | .rem => 9

/-- One more than the highest level. -/
def levels : Nat := 10

inductive Fault where
  | noPrimary
  | noEnd
  | noBracket
  | divisionByZero
  | illegalNumber (text : Bytes)
  deriving DecidableEq, Repr

def wrapped (x : Int) : Int :=
  Int.bmod x 0x10000000000000000

def truth (b : Bool) : Int :=
  if b then 1 else 0

def Operator.apply (o : Operator) (x y : Int) : Except Fault Int :=
  match o with
  | .or => .ok (truth (x != 0 || y != 0))
  | .and => .ok (truth (x != 0 && y != 0))
  | .bitOr => .ok (x.toInt64 ||| y.toInt64).toInt
  | .bitXor => .ok (x.toInt64 ^^^ y.toInt64).toInt
  | .bitAnd => .ok (x.toInt64 &&& y.toInt64).toInt
  | .eq => .ok (truth (x == y))
  | .ne => .ok (truth (x != y))
  | .le => .ok (truth (x ≤ y))
  | .lt => .ok (truth (x < y))
  | .ge => .ok (truth (y ≤ x))
  | .gt => .ok (truth (y < x))
  | .shiftLeft => .ok (x.toInt64 <<< y.toInt64).toInt
  | .shiftRight => .ok (x.toInt64 >>> y.toInt64).toInt
  | .add => .ok (wrapped (x + y))
  | .sub => .ok (wrapped (x - y))
  | .mul => .ok (wrapped (x * y))
  | .div => if y = 0 then .error .divisionByZero else .ok (wrapped (Int.tdiv x y))
  | .rem => if y = 0 then .error .divisionByZero else .ok (Int.tmod x y)

def skipGaps (cs : Bytes) : Bytes :=
  cs.dropWhile fun c => c == ' ' || c == '\t' || c == '\n'

/-- The operator at the front. -/
def operator? (cs : Bytes) : Option (Operator × Bytes) :=
  match skipGaps cs with
  | '|' :: '|' :: r => some (.or, r)
  | '&' :: '&' :: r => some (.and, r)
  | '|' :: r => some (.bitOr, r)
  | '^' :: r => some (.bitXor, r)
  | '&' :: r => some (.bitAnd, r)
  | '=' :: '=' :: r => some (.eq, r)
  | '!' :: '=' :: r => some (.ne, r)
  | '<' :: '<' :: r => some (.shiftLeft, r)
  | '>' :: '>' :: r => some (.shiftRight, r)
  | '<' :: '=' :: r => some (.le, r)
  | '>' :: '=' :: r => some (.ge, r)
  | '<' :: r => some (.lt, r)
  | '>' :: r => some (.gt, r)
  | '+' :: r => some (.add, r)
  | '-' :: r => some (.sub, r)
  | '*' :: r => some (.mul, r)
  | '/' :: r => some (.div, r)
  | '%' :: r => some (.rem, r)
  | _ => none

/-- The equals sign of an assignment, with the operator it may carry. -/
def assignment? (cs : Bytes) : Option (Option Operator × Bytes) :=
  match skipGaps cs with
  | '=' :: '=' :: _ => none
  | '=' :: r => some (none, r)
  | r =>
    match operator? r with
    | some (o, '=' :: behind) =>
      if 5 ≤ o.level && o.level ≤ 6 then none else some (some o, behind)
    | _ => none

def digitValue? (base : Nat) (c : Char) : Option Nat :=
  let v := if c.isDigit then c.toNat - '0'.toNat
    else if 'a' ≤ c ∧ c ≤ 'f' then c.toNat - 'a'.toNat + 10
    else if 'A' ≤ c ∧ c ≤ 'F' then c.toNat - 'A'.toNat + 10
    else base
  if v < base then some v else none

def numeral? (base : Nat) (ds : Bytes) : Option Int :=
  (ds.foldl (fun n d => do return base * (← n) + (← digitValue? base d)) (some 0)).map Int.ofNat

/-- A number as scripts write it: decimal, hexadecimal behind `0x`, octal behind `0`. -/
def natural? (cs : Bytes) : Option Int :=
  match cs with
  | [] => none
  | '0' :: 'x' :: ds | '0' :: 'X' :: ds => if ds.isEmpty then none else numeral? 16 ds
  | '0' :: ds => numeral? 8 ds
  | ds => numeral? 10 ds

def integer? (cs : Bytes) : Option Int :=
  match skipGaps cs with
  | '-' :: r => (natural? r).map (- ·)
  | '+' :: r => natural? r
  | r => natural? r

/-- Variables that an expression has assigned to, the latest first. -/
abbrev Assigned := List (Bytes × Int)

abbrev Result := Except Fault (Int × Assigned × Bytes)

/-- The number that a variable holds; none counts as zero. -/
def lookUp (get : Bytes → Bytes) (env : Assigned) (name : Bytes) : Except Fault Int :=
  match env.lookup name with
  | some x => .ok x
  | none =>
    let text := get name
    if text.isEmpty then .ok 0
    else (integer? text).elim (.error (.illegalNumber text)) .ok

mutual
/-- An assignment, a choice, or operators. -/
def full (get : Bytes → Bytes) : Nat → Assigned → Bytes → Result
  | 0, _, _ => .error .noPrimary
  | n + 1, env, cs => do
    let cs := skipGaps cs
    let name := cs.takeWhile isNameChar
    match (if name.head?.any (!·.isDigit) then assignment? (cs.drop name.length) else none) with
    | some (o, r) =>
      let (y, env, r) ← full get n env r
      let x ← match o with
        | none => .ok y
        | some o => do o.apply (← lookUp get env name) y
      return (x, (name, x) :: env, r)
    | none =>
      let (x, env, r) ← binary get n 0 env cs
      match skipGaps r with
      | '?' :: r =>
        let (yes, envYes, r) ← full get n env r
        match skipGaps r with
        | ':' :: r =>
          let (no, envNo, r) ← full get n env r
          return if x = 0 then (no, envNo, r) else (yes, envYes, r)
        | _ => .error .noEnd
      | r => return (x, env, r)

/-- Operators from some level on. -/
def binary (get : Bytes → Bytes) : Nat → Nat → Assigned → Bytes → Result
  | 0, _, _, _ => .error .noPrimary
  | n + 1, level, env, cs => do
    if levels ≤ level then primary get n env cs
    else
      let (x, env, r) ← binary get n (level + 1) env cs
      binaryFrom get n level x env r

def binaryFrom (get : Bytes → Bytes) : Nat → Nat → Int → Assigned → Bytes → Result
  | 0, _, _, _, _ => .error .noPrimary
  | n + 1, level, x, env, cs => do
    match operator? cs with
    | some (o, r) =>
      if o.level = level then
        let (y, env, r) ← binary get n (level + 1) env r
        binaryFrom get n level (← o.apply x y) env r
      else return (x, env, cs)
    | none => return (x, env, cs)

def primary (get : Bytes → Bytes) : Nat → Assigned → Bytes → Result
  | 0, _, _ => .error .noPrimary
  | n + 1, env, cs => do
    match skipGaps cs with
    | '(' :: r =>
      let (x, env, r) ← full get n env r
      match skipGaps r with
      | ')' :: r => return (x, env, r)
      | _ => .error .noBracket
    | '-' :: r =>
      let (x, env, r) ← primary get n env r
      return (wrapped (-x), env, r)
    | '+' :: r => primary get n env r
    | '!' :: r =>
      let (x, env, r) ← primary get n env r
      return (truth (x == 0), env, r)
    | '~' :: r =>
      let (x, env, r) ← primary get n env r
      return (-x - 1, env, r)
    | cs =>
      let word := cs.takeWhile isNameChar
      let r := cs.drop word.length
      match word with
      | [] => .error .noPrimary
      | c :: _ =>
        if c.isDigit then
          match natural? word with
          | some x => return (wrapped x, env, r)
          | none => .error .noEnd
        else return (← lookUp get env word, env, r)
end

/-- The value of an expression, and what it assigns; nothing counts as zero. -/
def evaluate (get : Bytes → Bytes) (text : Bytes) : Except Fault (Int × Assigned) :=
  if (skipGaps text).isEmpty then .ok (0, [])
  else match full get (16 * text.length + 32) [] text with
    | .error f => .error f
    | .ok (x, env, r) => if (skipGaps r).isEmpty then .ok (x, env) else .error .noEnd

def Fault.message (text : Bytes) : Fault → Bytes
  | .noPrimary => "arithmetic expression: expecting primary: \"".toList ++ text ++ ['"']
  | .noEnd => "arithmetic expression: expecting EOF: \"".toList ++ text ++ ['"']
  | .noBracket => "arithmetic expression: expecting ')': \"".toList ++ text ++ ['"']
  | .divisionByZero => "arithmetic expression: division by zero: \"".toList ++ text ++ ['"']
  | .illegalNumber number => "Illegal number: ".toList ++ number

end WarmCompile.Shell.Arithmetic
