/-!
The fewest decimal digits that read back as a given binary64 number, and their layout.
-/

namespace WarmCompile.Text

/-- A positive number `m * 2 ^ q`, scaled with the reals that round to it to whole numbers over one
denominator. -/
structure Rounding where
  value : Nat
  low : Nat
  high : Nat
  den : Nat
  closed : Bool

/-- Below a power of two the neighbour is half as far away. -/
def Rounding.ofBinary (m : Nat) (q : Int) (narrow : Bool) : Rounding :=
  let down := if narrow then 1 else 2
  let e := q - 2
  let unit := Nat.pow 2 e.toNat
  ⟨4 * m * unit, (4 * m - down) * unit, (4 * m + 2) * unit, .pow 2 (-e).toNat, m % 2 == 0⟩

/-- `c * 10 ^ e` and a numerator over `den`, brought over one denominator. -/
def Rounding.scale (r : Rounding) (c : Nat) (e : Int) : Nat × (Nat → Nat) :=
  (c * .pow 10 e.toNat * r.den, fun n => n * .pow 10 (-e).toNat)

def Rounding.reads (r : Rounding) (c : Nat) (e : Int) : Bool :=
  let (x, up) := r.scale c e
  if r.closed then up r.low ≤ x && x ≤ up r.high else up r.low < x && x < up r.high

/-- The decimal exponent of the leading digit. -/
def Rounding.leading (r : Rounding) : Int :=
  match (List.range 700).find? fun (i : Nat) =>
      let (x, up) := r.scale 1 (320 - i)
      x ≤ up r.value with
  | some i => 320 - i
  | none => -380

/-- The nearer of the two points beside the value on the grid of step `10 ^ e`, if it reads back;
of two equally near the even one. -/
def Rounding.candidate (r : Rounding) (e : Int) : Option Nat :=
  let c := (r.value * .pow 10 (-e).toNat) / (r.den * .pow 10 e.toNat)
  match r.reads c e, r.reads (c + 1) e with
  | true, true =>
    let (x, up) := r.scale (2 * c + 1) e
    if up (2 * r.value) < x then some c
    else if x < up (2 * r.value) then some (c + 1)
    else some (if c % 2 == 0 then c else c + 1)
  | true, false => some c
  | false, true => some (c + 1)
  | false, false => none

/-- The shortest digits with the exponent of the last one. -/
def Rounding.shortest (r : Rounding) : Nat × Int :=
  let top := r.leading
  match (List.range 17).findSome? fun (k : Nat) =>
      let e := top - k
      (r.candidate e).map fun c => (c, e) with
  | some found => found
  | none => (0, 0)

/-- Digits in positional form from ten to the minus five up to below ten to the sixteenth, with at
least one place after the point; in all other sizes with a signed exponent. -/
def layout (digits : List Char) (e : Int) : List Char :=
  let size : Int := digits.length + e
  if 0 < size && size ≤ 16 then
    if 0 ≤ e then digits ++ List.replicate e.toNat '0' ++ ".0".toList
    else digits.take size.toNat ++ '.' :: digits.drop size.toNat
  else if -5 < size && size ≤ 0 then
    "0.".toList ++ List.replicate (-size).toNat '0' ++ digits
  else
    let x := size - 1
    let power := Nat.toDigits 10 x.natAbs
    let mantissa := match digits with
      | [d] => [d]
      | d :: r => d :: '.' :: r
      | [] => []
    mantissa ++ ['e', if x < 0 then '-' else '+'] ++
      (if power.length < 2 then '0' :: power else power)

/-- The text of a finite binary64 number given by its bits. -/
def shortest (bits : UInt64) : String :=
  let negative := bits >>> 63 == 1
  let exponent := ((bits >>> 52) &&& 0x7ff).toNat
  let fraction := (bits &&& 0xfffffffffffff).toNat
  let body :=
    if exponent == 0 && fraction == 0 then "0.0".toList
    else
      let m := if exponent == 0 then fraction else fraction + 0x10000000000000
      let q : Int := (if exponent == 0 then 1 else exponent) - 1075
      let (c, e) := (Rounding.ofBinary m q (fraction == 0 && 1 < exponent)).shortest
      let zeros := ((Nat.toDigits 10 c).reverse.takeWhile (· == '0')).length
      layout ((Nat.toDigits 10 c).take ((Nat.toDigits 10 c).length - zeros)) (e + zeros)
  String.ofList (if negative then '-' :: body else body)

end WarmCompile.Text
