import WarmCompile.Cli.Switches

/-!
What a command line asks for.
-/

namespace WarmCompile.Cli

inductive Command where
  /-- Serves requests, on a socket if one is asked for, at the usual place if none is named. -/
  | daemon (socket : Option (Option String)) (foreground background : Bool)
  | ping (message socket : Option String)
  | init (project library : String) (socket : Option String) (json : Bool)
  | compile (file : String) (socket : Option String) (json : Bool)
  deriving DecidableEq, Repr

namespace Command

def socketSwitch : Switch := ⟨"socket", .one, false⟩

def flag (name : String) : Switch := ⟨name, .none, true⟩

def ofDaemon (words : List String) : Except Refusal Command := do
  let switches := [⟨"socket", .upToOne, false⟩, flag "foreground", flag "background"]
  let w ← Words.read switches 0 none .empty words
  return .daemon (w.given.lookup "socket") (w.has "foreground") (w.has "background")

def ofPing (words : List String) : Except Refusal Command := do
  let w ← Words.read [socketSwitch] 1 none .empty words
  return .ping w.plain.head? (w.value? "socket")

def ofInit (words : List String) : Except Refusal Command := do
  let switches := [⟨"fable-library", .one, true⟩, socketSwitch, flag "json"]
  let w ← Words.read switches 1 none .empty words
  match w.plain, w.value? "fable-library" with
  | [project], some library => return .init project library (w.value? "socket") (w.has "json")
  | _, _ => .error .misuse

def ofCompile (words : List String) : Except Refusal Command := do
  let w ← Words.read [socketSwitch, flag "json"] 1 none .empty words
  match w.plain with
  | [file] => return .compile file (w.value? "socket") (w.has "json")
  | _ => .error .misuse

/-- The command that the first word names. -/
def ofWords : List String → Except Refusal Command
  | [] => .error .misuse
  | name :: words =>
    match name with
    | "daemon" => ofDaemon words
    | "ping" => ofPing words
    | "init" => ofInit words
    | "compile" => ofCompile words
    | "--help" => .error .help
    | "help" =>
      match words with
      | [] => .error .help
      | [topic] =>
        if topic ∈ ["daemon", "ping", "init", "compile", "help"] then .error .help
        else .error .misuse
      | _ => .error .misuse
    | _ => if name.startsWith "-h" then .error .help else .error .misuse

def socket? : Command → Option String
  | .daemon .. => none
  | .ping _ socket | .init _ _ socket _ | .compile _ socket _ => socket

end Command

end WarmCompile.Cli
