import WarmCompile.Text.Utf8

/-!
A stream of bytes as lines. A line ends at a line feed, and a carriage return right before it does
not belong to it. What is left when the stream ends is a line too, unless it is nothing or a lone
carriage return.
-/

namespace WarmCompile

/-- Bytes of a line that has not ended yet. -/
structure Lines where
  begun : List UInt8
  deriving DecidableEq, Repr

namespace Lines

def empty : Lines := ⟨[]⟩

def lineFeed : UInt8 := 10

def carriageReturn : UInt8 := 13

/-- A text as it goes onto the stream. -/
def frame (line : String) : List UInt8 :=
  line.toUTF8.toList ++ [lineFeed]

def withoutReturn (bytes : List UInt8) : List UInt8 :=
  if bytes.getLast? = some carriageReturn then bytes.dropLast else bytes

/-- The text of a line, if its bytes are one. -/
def decode (bytes : List UInt8) : Option String :=
  Text.strict? (withoutReturn bytes)

/-- The lines that end in the bytes that come next. -/
def feed (s : Lines) (bytes : List UInt8) : List (Option String) × Lines :=
  let pieces := (s.begun ++ bytes).splitOn lineFeed
  (pieces.dropLast.map decode, ⟨pieces.getLast?.getD []⟩)

/-- The line that the end of the stream ends. -/
def last? (s : Lines) : Option (Option String) :=
  if s.begun = [] ∨ s.begun = [carriageReturn] then none else some (decode s.begun)

end Lines

end WarmCompile
