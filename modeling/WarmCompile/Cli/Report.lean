import WarmCompile.Cli.Command
import WarmCompile.Path
import WarmCompile.Text.Quoted
import WarmCompile.Wire.Response

/-!
What the commands that talk to a daemon ask of it, and what they print.
-/

namespace WarmCompile.Cli

/-- How a command ends: its status, and what it has printed. -/
structure Report where
  code : Nat
  output : String
  complaint : String
  deriving DecidableEq, Repr

/-- A failure, and what has caused it. -/
structure Trouble where
  text : String
  cause : Option String
  deriving DecidableEq, Repr

/-- A cause stands below its failure, all of its lines indented. -/
def Trouble.message (t : Trouble) : String :=
  "Error: " ++ t.text ++ (match t.cause with
    | none => ""
    | some cause => "\n\nCaused by:\n    " ++ cause.replace "\n" "\n    ") ++ "\n"

def Report.ofTrouble (t : Trouble) : Report := ⟨1, "", t.message⟩

/-- A path as its user means it, from the directory the user is in. -/
def absolute (cwd path : String) : Except Trouble String :=
  if path.isEmpty then
    .error ⟨"Invalid path: " ++ Text.quoted path, some IoError.emptyPath.message⟩
  else .ok (Path.absolute cwd path)

namespace Command

/-- The call that a command makes; a daemon makes none. -/
def call? (cwd : String) : Command → Except Trouble (Option Call)
  | .daemon .. => .ok none
  | .ping message _ => .ok (some (.ping ⟨message⟩))
  | .init project library _ _ => do
    return some (.init ⟨← absolute cwd project, ← absolute cwd library⟩)
  | .compile file _ _ => do return some (.compile ⟨← absolute cwd file⟩)

/-- What a command that gets no result calls its failure. -/
def complaint : Method → String
  | .ping => "Ping failed"
  | .init => "Init request failed"
  | .compile => "Compile request failed"

def wantsJson : Command → Bool
  | .init _ _ _ json | .compile _ _ json => json
  | _ => false

def initLines (r : InitResult) : List String :=
  ["Project: " ++ r.project.projectFile, "Compiled " ++ toString r.files.size ++ " files"] ++
    r.files.keys.map ("  " ++ ·)

def compileLines (r : CompileResult) : List String :=
  r.files.entries.flatMap fun e => ["// ---- " ++ e.1 ++ " ----", e.2]

def printed (lines : List String) : Report :=
  ⟨0, String.join (lines.map (· ++ "\n")), ""⟩

/-- A result in its JSON form; a failed one shows in the status. -/
def printedJson (success : Bool) (j : Json) : Report :=
  ⟨if success then 0 else 1, j.pretty ++ "\n", ""⟩

/-- What a command prints of the reply to its call. -/
def report (c : Command) : Reply → Report
  | .ping r => printed [r.message]
  | .init outcome =>
    if c.wantsJson then printedJson outcome.isSuccess (outcome.toJson InitResult.shape)
    else match outcome with
      | .success r => printed (initLines r)
      | .error e => .ofTrouble ⟨"Init failed: " ++ e, none⟩
  | .compile outcome =>
    if c.wantsJson then printedJson outcome.isSuccess (outcome.toJson CompileResult.shape)
    else match outcome with
      | .success r => printed (compileLines r)
      | .error e => .ofTrouble ⟨"Compile failed: " ++ e, none⟩

/-- What a command prints of how its call has ended. -/
def conclude (c : Command) (method : Method) : Except CallError Reply → Report
  | .ok reply => c.report reply
  | .error e => .ofTrouble ⟨complaint method, some e.message⟩

end Command

end WarmCompile.Cli
