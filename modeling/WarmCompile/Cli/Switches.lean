/-!
Words of a command line told apart: switches with their values, and the words that stand on their
own. Everything behind a lone `--` stands on its own.
-/

namespace WarmCompile.Cli

inductive Arity where
  | none
  | one
  /-- A value may follow. -/
  | upToOne
  deriving DecidableEq, Repr

structure Switch where
  name : String
  arity : Arity
  /-- Whether an empty value will do. -/
  takesEmpty : Bool
  deriving DecidableEq, Repr

/-- Why a command line is not followed. -/
inductive Refusal where
  /-- Help is asked for. -/
  | help
  | misuse
  deriving DecidableEq, Repr

structure Words where
  given : List (String × Option String)
  plain : List String
  deriving DecidableEq, Repr

namespace Words

def empty : Words := ⟨[], []⟩

def has (w : Words) (name : String) : Bool :=
  w.given.any (·.1 == name)

def value? (w : Words) (name : String) : Option String :=
  (w.given.lookup name).join

/-- A switch counts once, with a value where it needs one. -/
def give (w : Words) (s : Switch) (value : Option String) : Except Refusal Words :=
  if w.has s.name then .error .misuse
  else match s.arity, value with
    | .none, some _ | .one, none => .error .misuse
    | _, some v =>
      if v.isEmpty && !s.takesEmpty then .error .misuse
      else .ok { w with given := w.given ++ [(s.name, some v)] }
    | _, none => .ok { w with given := w.given ++ [(s.name, none)] }

/-- A switch that still expects its value goes without. -/
def giveUp (w : Words) : Option Switch → Except Refusal Words
  | none => .ok w
  | some s => w.give s none

/-- A switch as it is written: its name, and a value behind an equals sign. -/
def named (word : List Char) : String × Option String :=
  let name := word.takeWhile (· ≠ '=')
  (String.ofList name,
    if name.length < word.length then some (String.ofList (word.drop (name.length + 1))) else none)

/-- Reads words, `expecting` being the switch that the next one may be the value of. -/
def read (switches : List Switch) (most : Nat) :
    Option Switch → Words → List String → Except Refusal Words
  | expecting, w, [] => w.giveUp expecting
  | expecting, w, word :: words =>
    match word.toList with
    | ['-', '-'] => do
      let w ← w.giveUp expecting
      let plain := w.plain ++ words
      if most < plain.length then .error .misuse else .ok { w with plain }
    | '-' :: '-' :: rest => do
      let w ← w.giveUp expecting
      let (name, value) := named rest
      match switches.find? (·.name == name) with
      | some s =>
        if s.arity = .none || value.isSome then read switches most none (← w.give s value) words
        else if w.has name then .error .misuse
        else read switches most (some s) w words
      | none => if rest = "help".toList then .error .help else .error .misuse
    | '-' :: c :: _ => do
      let _ ← w.giveUp expecting
      if c = 'h' then .error .help else .error .misuse
    | _ =>
      match expecting with
      | some s => do read switches most none (← w.give s (some word)) words
      | none =>
        if most ≤ w.plain.length then .error .misuse
        else read switches most none { w with plain := w.plain ++ [word] } words

end Words

end WarmCompile.Cli
