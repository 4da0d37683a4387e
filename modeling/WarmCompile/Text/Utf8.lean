/-!
The size of a text in bytes, and reading bytes as text. Where they are not UTF-8, each longest piece
that could have begun a character is shown as one replacement character.
-/

namespace WarmCompile.Text

/-- The number of bytes a text takes. -/
def bytes : List Char → Nat
  | [] => 0
  | c :: cs => c.utf8Size + bytes cs

/-- Whether a byte continues a character, given the least and greatest it may be. -/
def continues (low high b : UInt8) : Bool :=
  low ≤ b && b ≤ high

/-- What a first byte asks for: how many bytes follow, and the bounds of the next. -/
def lead? (b : UInt8) : Option (Nat × UInt8 × UInt8) :=
  if b < 0x80 then some (0, 0x80, 0xbf)
  else if b < 0xc2 then none
  else if b < 0xe0 then some (1, 0x80, 0xbf)
  else if b = 0xe0 then some (2, 0xa0, 0xbf)
  else if b = 0xed then some (2, 0x80, 0x9f)
  else if b < 0xf0 then some (2, 0x80, 0xbf)
  else if b = 0xf0 then some (3, 0x90, 0xbf)
  else if b < 0xf4 then some (3, 0x80, 0xbf)
  else if b = 0xf4 then some (3, 0x80, 0x8f)
  else none

/-- The number behind the bits of a first byte that belong to it. -/
def leadBits (b : UInt8) (following : Nat) : Nat :=
  match following with
  | 0 => b.toNat
  | 1 => b.toNat % 0x20
  | 2 => b.toNat % 0x10
  | _ => b.toNat % 0x08

def replacement : Char := '\uFFFD'

/-- Reads on inside a character that lacks so many bytes. -/
def lossyInside : Nat → UInt8 → UInt8 → Nat → List UInt8 → List Char
  | _, _, _, _, [] => [replacement]
  | need, low, high, n, b :: r =>
    if continues low high b then
      let n := 64 * n + b.toNat % 64
      match need with
      | 0 | 1 => Char.ofNat n :: lossyStart r
      | need + 2 => lossyInside (need + 1) 0x80 0xbf n r
    else
      replacement ::
        match lead? b with
        | none => replacement :: lossyStart r
        | some (0, _, _) => Char.ofNat b.toNat :: lossyStart r
        | some (k + 1, low, high) => lossyInside (k + 1) low high (leadBits b (k + 1)) r
where
  lossyStart : List UInt8 → List Char
    | [] => []
    | b :: r =>
      match lead? b with
      | none => replacement :: lossyStart r
      | some (0, _, _) => Char.ofNat b.toNat :: lossyStart r
      | some (k + 1, low, high) => lossyInside (k + 1) low high (leadBits b (k + 1)) r

def lossy (bs : List UInt8) : String :=
  String.ofList (lossyInside.lossyStart bs)

/-- The text that bytes are, if they are one. -/
def strict? (bs : List UInt8) : Option String :=
  String.fromUTF8? ⟨bs.toArray⟩

end WarmCompile.Text
