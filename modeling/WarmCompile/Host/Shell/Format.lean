import WarmCompile.Host.Shell.Arithmetic
import WarmCompile.Host.Shell.State

/-!
Texts with backslashes resolved, and formats filled with arguments.
-/

namespace WarmCompile.Shell

def octalDigits (width : Nat) (cs : Bytes) : Bytes :=
  (cs.take width).takeWhile fun c => '0' ≤ c && c ≤ '7'

def octalChar (ds : Bytes) : Char :=
  Char.ofNat (ds.foldl (fun n d => 8 * n + (d.toNat - 48)) 0 % 256)

/-- A letter behind a backslash. -/
def letterEscape? : Char → Option Char
  | 'n' => some '\n'
  | 't' => some '\t'
  | 'r' => some '\r'
  | 'a' => some '\x07'
  | 'b' => some '\x08'
  | 'e' => some '\x1b'
  | 'f' => some '\x0c'
  | 'v' => some '\x0b'
  | '\\' => some '\\'
  | _ => none

/-- What a backslash in front of a text stands for, and the text behind that. -/
def escaped : Bytes → Bytes × Bytes
  | [] => (['\\'], [])
  | c :: r =>
    match letterEscape? c, octalDigits 3 (c :: r) with
    | some e, _ => ([e], r)
    | none, [] => (['\\', c], r)
    | none, ds => ([octalChar ds], (c :: r).drop ds.length)

/-- Backslashes resolved, and whether one asks for nothing to follow. A number may begin with a
zero beyond its three digits. -/
def unescape : Nat → Bytes → Bytes × Bool
  | 0, _ => ([], false)
  | _ + 1, [] => ([], false)
  | _ + 1, '\\' :: 'c' :: _ => ([], true)
  | n + 1, '\\' :: '0' :: r =>
    let ds := octalDigits 3 r
    let (t, halted) := unescape n (r.drop ds.length)
    (octalChar ds :: t, halted)
  | n + 1, '\\' :: r =>
    let (e, r) := escaped r
    let (t, halted) := unescape n r
    (e ++ t, halted)
  | n + 1, c :: r =>
    let (t, halted) := unescape n r
    (c :: t, halted)

/-- How an argument is laid out. -/
structure Layout where
  flags : Bytes
  width : Nat
  precision : Option Nat
  deriving Repr

def Layout.has (l : Layout) (c : Char) : Bool :=
  l.flags.contains c

def Layout.pad (l : Layout) (t : Bytes) : Bytes :=
  let gap := List.replicate (l.width - t.length) ' '
  if l.has '-' then t ++ gap else gap ++ t

/-- Digits with what stands in front of them. -/
def Layout.padNumber (l : Layout) (front digits : Bytes) : Bytes :=
  let digits := List.replicate (l.precision.getD 1 - digits.length) '0' ++ digits
  if l.has '0' && !l.has '-' && l.precision.isNone then
    front ++ List.replicate (l.width - front.length - digits.length) '0' ++ digits
  else l.pad (front ++ digits)

def digitsIn (base : Nat) (n : Nat) : Bytes :=
  if n = 0 then [] else Nat.toDigits base n

/-- A number of 64 bits as its kind of digits wants it. -/
def Layout.number (l : Layout) (kind : Char) (x : Int) : Bytes :=
  let bits := (x % 0x10000000000000000).toNat
  if kind = 'u' then l.padNumber [] (digitsIn 10 bits)
  else if kind = 'o' then l.padNumber (if l.has '#' then ['0'] else []) (digitsIn 8 bits)
  else if kind = 'x' then
    l.padNumber (if l.has '#' && bits != 0 then ['0', 'x'] else []) (digitsIn 16 bits)
  else if kind = 'X' then
    l.padNumber (if l.has '#' && bits != 0 then ['0', 'X'] else [])
      ((digitsIn 16 bits).map Char.toUpper)
  else
    let sign :=
      if x < 0 then ['-'] else if l.has '+' then ['+'] else if l.has ' ' then [' '] else []
    l.padNumber sign (digitsIn 10 x.natAbs)

/-- The number that an argument is, and what is wrong with it. -/
def numberOf (arg : Bytes) : Int × Option String :=
  match arg with
  | [] => (0, none)
  | '"' :: c :: _ | '\'' :: c :: _ => (c.toNat, none)
  | _ =>
    match Arithmetic.integer? arg with
    | some x =>
      if x < -0x8000000000000000 then (-0x8000000000000000, some "Numerical result out of range")
      else if 0x7fffffffffffffff < x then
        (0x7fffffffffffffff, some "Numerical result out of range")
      else (x, none)
    | none =>
      let sign := arg.takeWhile fun c => c == '-' || c == '+'
      let ds := (arg.drop sign.length).takeWhile Char.isDigit
      if ds.isEmpty then (0, some "expected numeric value")
      else ((Arithmetic.integer? (sign ++ ds)).getD 0, some "not completely converted")

/-- What a format comes to. -/
structure Printed where
  text : Bytes
  /-- Arguments that have not been used. -/
  left : List Bytes
  complaints : List Bytes
  /-- Whether nothing more is to be printed. -/
  halted : Bool

/-- A number in a format, which may be taken from the arguments. -/
def readSize (cs : Bytes) (args : List Bytes) : Nat × Bytes × List Bytes :=
  match cs with
  | '*' :: r => ((numberOf (args.head?.getD [])).1.toNat, r, args.drop 1)
  | _ =>
    let ds := cs.takeWhile Char.isDigit
    ((numberOf (['+'] ++ ds)).1.toNat, cs.drop ds.length, args)

/-- The layout behind a percent sign. -/
def readLayout (cs : Bytes) (args : List Bytes) : Layout × Bytes × List Bytes :=
  let flags := cs.takeWhile fun c => c ∈ ['-', '+', ' ', '#', '0']
  let (width, r, args) := readSize (cs.drop flags.length) args
  match r with
  | '.' :: r =>
    let (precision, r, args) := readSize r args
    (⟨flags, width, some precision⟩, r, args)
  | _ => (⟨flags, width, none⟩, r, args)

/-- One pass over a format with the arguments it uses up. -/
def formatted : Nat → Bytes → List Bytes → Printed
  | 0, _, args => ⟨[], args, [], false⟩
  | _ + 1, [], args => ⟨[], args, [], false⟩
  | n + 1, '%' :: '%' :: r, args =>
    let p := formatted n r args
    { p with text := '%' :: p.text }
  | n + 1, '%' :: r, args =>
    let (layout, behind, args) := readLayout r args
    let arg := args.head?.getD []
    let cut := fun (t : Bytes) => match layout.precision with
      | some k => t.take k
      | none => t
    match behind with
    | [] => ⟨[], args, ["missing format character".toList], true⟩
    | kind :: r =>
      if kind = 's' then
        let p := formatted n r (args.drop 1)
        { p with text := layout.pad (cut arg) ++ p.text }
      else if kind = 'c' then
        let p := formatted n r (args.drop 1)
        { p with text := layout.pad (arg.take 1) ++ p.text }
      else if kind = 'b' then
        let (t, halted) := unescape (arg.length + 1) arg
        if halted then ⟨layout.pad (cut t), [], [], true⟩
        else
          let p := formatted n r (args.drop 1)
          { p with text := layout.pad (cut t) ++ p.text }
      else if kind ∈ ['d', 'i', 'o', 'u', 'x', 'X'] then
        let (x, fault) := numberOf arg
        let p := formatted n r (args.drop 1)
        { p with
          text := layout.number kind x ++ p.text
          complaints := (fault.map fun f => arg ++ ": ".toList ++ f.toList).toList ++ p.complaints }
      else ⟨[], args, [('%' :: r.take 0) ++ [kind] ++ ": invalid directive".toList], true⟩
  | n + 1, '\\' :: r, args =>
    let (e, r) := escaped r
    let p := formatted n r args
    { p with text := e ++ p.text }
  | n + 1, c :: r, args =>
    let p := formatted n r args
    { p with text := c :: p.text }

/-- Repeats the format while arguments are left that it uses. -/
def formatAll : Nat → Bytes → List Bytes → Printed
  | 0, _, args => ⟨[], args, [], false⟩
  | n + 1, format, args =>
    let p := formatted (format.length + 1) format args
    if p.halted || p.left.isEmpty || p.left.length = args.length then p
    else
      let q := formatAll n format p.left
      { q with text := p.text ++ q.text, complaints := p.complaints ++ q.complaints }

end WarmCompile.Shell
