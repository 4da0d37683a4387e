import WarmCompile.Json.Fault

/-!
The smallest pieces of a JSON text: blanks, words, quoted texts and numbers.
-/

namespace WarmCompile.Json

open Text (bytes)

def isBlank (c : Char) : Bool :=
  c == ' ' || c == '\n' || c == '\t' || c == '\r'

def skipBlank (cs : List Char) : List Char :=
  cs.dropWhile isBlank

/-- The rest of a word whose first letter has been read. -/
def readWord : List Char → List Char → Except Fault (List Char)
  | [], cs => .ok cs
  | _ :: _, [] => failHere .eofValue []
  | w :: ws, c :: cs => if w = c then readWord ws cs else failNext .expectedWord (c :: cs)

def hexDigit? (c : Char) : Option Nat :=
  if '0' ≤ c ∧ c ≤ '9' then some (c.toNat - '0'.toNat)
  else if 'a' ≤ c ∧ c ≤ 'f' then some (c.toNat - 'a'.toNat + 10)
  else if 'A' ≤ c ∧ c ≤ 'F' then some (c.toNat - 'A'.toNat + 10)
  else none

def hexDigits? (ds : List Char) : Option Nat :=
  ds.foldl (fun n d => do return 16 * (← n) + (← hexDigit? d)) (some 0)

/-- Four hexadecimal digits; a fault among them is found at the fourth byte. -/
def readHex : List Char → Except Fault (Nat × List Char)
  | a :: b :: c :: d :: rest =>
    match hexDigits? [a, b, c, d] with
    | some n => .ok (n, rest)
    | none => .error ⟨.invalidEscape, .located (bytes (a :: b :: c :: d :: rest) - 4)⟩
  | cs =>
    if bytes cs < 4 then failHere .eofString []
    else .error ⟨.invalidEscape, .located (bytes cs - 4)⟩

def isLeadSurrogate (n : Nat) : Bool := 0xd800 ≤ n && n ≤ 0xdbff

def isTrailSurrogate (n : Nat) : Bool := 0xdc00 ≤ n && n ≤ 0xdfff

def pairedSurrogates (lead trail : Nat) : Nat :=
  (lead - 0xd800) * 0x400 + (trail - 0xdc00) + 0x10000

/-- The second half of a character written as two escapes. -/
def readTrail (lead : Nat) : List Char → Except Fault (Char × List Char)
  | [] => failHere .eofString []
  | '\\' :: cs =>
    match cs with
    | [] => failHere .eofString []
    | 'u' :: ds => do
      let (n, rest) ← readHex ds
      if isTrailSurrogate n then return (Char.ofNat (pairedSurrogates lead n), rest)
      else failHere .loneSurrogate rest
    | c :: r => failNext .hexEscapeEnds (c :: r)
  | c :: r => failNext .hexEscapeEnds (c :: r)

/-- A character written by number. -/
def readUnicode (cs : List Char) : Except Fault (Char × List Char) := do
  let (n, rest) ← readHex cs
  if isTrailSurrogate n then failHere .loneSurrogate rest
  else if isLeadSurrogate n then readTrail n rest
  else return (Char.ofNat n, rest)

/-- The characters that a backslash and one letter stand for. -/
def shortEscape? : Char → Option Char
  | '"' => some '"'
  | '\\' => some '\\'
  | '/' => some '/'
  | 'b' => some '\x08'
  | 'f' => some '\x0c'
  | 'n' => some '\n'
  | 'r' => some '\r'
  | 't' => some '\t'
  | _ => none

/-- What a backslash introduces. -/
def readEscape : List Char → Except Fault (Char × List Char)
  | [] => failHere .eofString []
  | c :: cs =>
    if c = 'u' then readUnicode cs
    else match shortEscape? c with
      | some e => .ok (e, cs)
      | none => failNext .invalidEscape (c :: cs)

theorem length_lt_of_readHex {cs : List Char} {n : Nat} {r : List Char}
    (h : readHex cs = .ok (n, r)) : r.length < cs.length := by
  unfold readHex at h
  split at h
  · split at h
    · cases h; simp only [List.length_cons]; omega
    · cases h
  · split at h <;> cases h

theorem length_lt_of_readTrail {lead : Nat} {cs : List Char} {c : Char} {r : List Char}
    (h : readTrail lead cs = .ok (c, r)) : r.length < cs.length := by
  revert h
  fun_cases readTrail lead cs with
  | case3 ds =>
    intro h
    cases hx : readHex ds with
    | error f => simp [hx, bind, Except.bind] at h
    | ok p =>
      have hl := length_lt_of_readHex (n := p.1) (r := p.2) (by simpa using hx)
      simp only [hx, bind, Except.bind] at h
      generalize isTrailSurrogate p.1 = trail at h
      cases trail
      · exact absurd h nofun
      · have e : p.2 = r := congrArg Prod.snd (Except.ok.inj h)
        simp only [List.length_cons, ← e]; omega
  | _ => intro h; cases h

theorem length_lt_of_readEscape {cs : List Char} {c : Char} {r : List Char}
    (h : readEscape cs = .ok (c, r)) : r.length < cs.length := by
  unfold readEscape at h
  split at h
  · cases h
  · rename_i d ds
    split at h
    · unfold readUnicode at h
      cases hx : readHex ds with
      | error f => simp [hx, bind, Except.bind] at h
      | ok p =>
        have hl := length_lt_of_readHex (n := p.1) (r := p.2) (by simpa using hx)
        simp only [hx, bind, Except.bind] at h
        split at h
        · cases h
        · split at h
          · have := length_lt_of_readTrail h
            simp only [List.length_cons]; omega
          · cases h; simp only [List.length_cons]; omega
    · split at h
      · cases h; simp
      · cases h

/-- A quoted text whose opening mark has been read. -/
def readText (cs : List Char) : Except Fault (List Char × List Char) :=
  match cs with
  | [] => failHere .eofString []
  | '"' :: rest => .ok ([], rest)
  | '\\' :: r =>
    match h : readEscape r with
    | .error f => .error f
    | .ok (c, r') =>
      have : r'.length < r.length := length_lt_of_readEscape h
      match readText r' with
      | .error f => .error f
      | .ok (s, rest) => .ok (c :: s, rest)
  | c :: r =>
    if c < ' ' then failHere .controlCharacter r
    else match readText r with
      | .error f => .error f
      | .ok (s, rest) => .ok (c :: s, rest)
  termination_by cs.length

def readString (cs : List Char) : Except Fault (Parsed String) :=
  match readText cs with
  | .error f => .error f
  | .ok (s, rest) => .ok (String.ofList s, rest)

def isDigit (c : Char) : Bool :=
  '0' ≤ c && c ≤ '9'

def digitValue (c : Char) : Nat :=
  c.toNat - '0'.toNat

/-- The digits at the front, and what follows them. -/
def readDigits (cs : List Char) : List Char × List Char :=
  (cs.takeWhile isDigit, cs.dropWhile isDigit)

/-- Digits are taken in while the number fits into 64 bits; the rest is only counted. -/
def accumulate (n : Nat) : List Char → Nat × Nat
  | [] => (n, 0)
  | d :: ds =>
    if 0x10000000000000000 ≤ 10 * n + digitValue d then (n, ds.length + 1)
    else accumulate (10 * n + digitValue d) ds

/-- Division by powers of ten too large to write at once. -/
def scaleDown : Nat → Float → Nat → Float
  | 0, f, _ => f
  | n + 1, f, e =>
    if e ≤ 308 then f / Float.ofScientific 1 false e
    else if f == 0.0 then f
    else scaleDown n (f / Float.ofScientific 1 false 308) (e - 308)

/-- `m * 10 ^ e` in binary64; nothing when it is too large. -/
def realOfParts? (negative : Bool) (m : Nat) (e : Int) : Option UInt64 :=
  let f := m.toUInt64.toFloat
  let scaled :=
    if e < 0 then scaleDown 8 f (-e).toNat
    else if e ≤ 308 then f * Float.ofScientific 1 false e.toNat
    else if f == 0.0 then f else f / 0.0
  if scaled.isInf then none else some (if negative then -scaled else scaled).toBits

def readReal (negative : Bool) (m : Nat) (e : Int) (rest : List Char) :
    Except Fault (Parsed Number) :=
  match realOfParts? negative m e with
  | some bits => .ok (.real bits, rest)
  | none => failHere .numberOutOfRange rest

/-- The digits of a power of ten as far as they stay within 31 bits. -/
def accumulatePower (n : Nat) : List Char → Nat × List Char
  | [] => (n, [])
  | d :: ds =>
    if 0x80000000 ≤ 10 * n + digitValue d then (n, d :: ds)
    else accumulatePower (10 * n + digitValue d) ds

/-- A power of ten whose `e` has been read, for a number so far read as `m * 10 ^ e`. -/
def readPower (negative : Bool) (m : Nat) (e : Int) (cs : List Char) :
    Except Fault (Parsed Number) :=
  let (down, cs) := match cs with
    | '+' :: r => (false, r)
    | '-' :: r => (true, r)
    | r => (false, r)
  match cs with
  | [] => failHere .eofValue []
  | c :: r =>
    if isDigit c then
      let (ds, rest) := readDigits (c :: r)
      match accumulatePower 0 ds with
      | (n, []) => readReal negative m (if down then e - n else e + n) rest
      | (_, _ :: excess) =>
        if m ≠ 0 && !down then failHere .numberOutOfRange (excess ++ rest)
        else .ok (.real (if negative then -0.0 else 0.0 : Float).toBits, rest)
    else failNext .invalidNumber (c :: r)

/-- What follows the whole part. -/
def readFraction (negative : Bool) (m dropped : Nat) (cs : List Char) :
    Except Fault (Parsed Number) :=
  let (ds, rest) := readDigits cs
  if ds.isEmpty then
    match rest with
    | [] => failNext .eofValue []
    | r => failNext .invalidNumber r
  else
    let (m, excess) := accumulate m ds
    let e : Int := dropped - (ds.length - excess : Nat)
    match rest with
    | 'e' :: r | 'E' :: r => readPower negative m e r
    | r => readReal negative m e r

/-- A number whose sign has been read. -/
def readNumber (negative : Bool) : List Char → Except Fault (Parsed Number)
  | [] => failHere .eofValue []
  | c :: r =>
    if !isDigit c then failNext .invalidNumber (c :: r)
    else if c = '0' ∧ (r.head?.any isDigit) then failNext .invalidNumber r
    else
      let (ds, rest) := readDigits (c :: r)
      let (m, excess) := accumulate 0 ds
      match rest with
      | '.' :: r => readFraction negative m excess r
      | 'e' :: r | 'E' :: r => readPower negative m excess r
      | r =>
        if 0 < excess then readReal negative m excess r
        else if !negative then .ok (.natural m, r)
        else if m = 0 ∨ 0x8000000000000000 < m then readReal true m 0 r
        else .ok (.negative m, r)

end WarmCompile.Json
