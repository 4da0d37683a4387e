import WarmCompile.Wire.Project
import WarmCompile.Compile.Backend
import WarmCompile.Json.Adjacent

/-!
Success or failure of a compile, told by a tag among the other members.
-/

namespace WarmCompile

open Json (Shape Fields Cause Fault Parsed)

inductive Outcome (α : Type) where
  | success (data : α)
  | error (text : String)
  deriving DecidableEq, Repr, Inhabited

structure InitResult where
  project : ResolvedProject
  files : Output
  deriving DecidableEq

structure CompileResult where
  files : Output
  deriving DecidableEq

def InitResult.shape : Shape InitResult :=
  .record "InitResult"
    (.field "projectOptions" ResolvedProject.shape .required <|
      .field "compiledFiles" .dictionary .required .none)
    (fun (p, f, ()) => ⟨p, f⟩) (fun r => (r.project, r.files, ()))

def CompileResult.shape : Shape CompileResult :=
  .record "CompileResult" (.field "compiledFiles" .dictionary .required .none)
    (fun (f, ()) => ⟨f⟩) (fun r => (r.files, ()))

namespace Outcome

variable {α β : Type}

def isSuccess : Outcome α → Bool
  | .success _ => true
  | .error _ => false

def toExcept : Outcome α → Except String α
  | .success a => .ok a
  | .error e => .error e

/-- A reply as an outcome, its success brought into the form of the result. -/
def ofExcept (f : α → β) : Except String α → Outcome β
  | .ok a => .success (f a)
  | .error e => .error e

inductive Tag where
  | success
  | error
  deriving DecidableEq, Repr

def tagKey : String := "type"

def Tag.cases : List (String × Tag) :=
  [("success", .success), ("error", .error)]

def dataFields (shape : Shape α) : Fields (α × Unit) :=
  .field "data" shape .required .none

def errorFields : Fields (String × Unit) :=
  .field "error" .text .required .none

def toJson (shape : Shape α) : Outcome α → Json
  | .success a => .object ((tagKey, .text "success") :: (dataFields shape).toMembers (a, ()))
  | .error e => .object ((tagKey, .text "error") :: errorFields.toMembers (e, ()))

/-- A tag in a value is a name or the number of a case. -/
def tagOf : Json → Except Cause Tag
  | .text s => Json.caseOf Tag.cases s
  | .number (.natural 0) => .ok .success
  | .number (.natural 1) => .ok .error
  | .number (.natural n) =>
    .error (.invalidValue (.number (.natural n)) "variant index 0 <= i < 2")
  | j => Json.wrongTypeOf "variant identifier" j

def successNoun : String := "struct variant Outcome::Success"

def errorNoun : String := "struct variant Outcome::Error"

def ofMembers (shape : Shape α) (tag : Tag) (ms : List (String × Json)) :
    Except Cause (Outcome α) :=
  match tag with
  | .success => do return .success (← (dataFields shape).ofMembers ms).1
  | .error => do return .error (← errorFields.ofMembers ms).1

def ofItems (shape : Shape α) (tag : Tag) (js : List Json) : Except Cause (Outcome α) :=
  match tag with
  | .success => do
    let fields := dataFields shape
    return .success (← fields.ofItems (fields.lengthNoun successNoun) 0 js).1
  | .error => do
    return .error (← errorFields.ofItems (errorFields.lengthNoun errorNoun) 0 js).1

def noun : String := "internally tagged enum Outcome"

/-- Sets the tag apart from the other members. -/
def takeTag : Option Tag × List (String × Json) → String → Json →
    Except Cause (Option Tag × List (String × Json))
  | (tag, ms), key, j =>
    if key = tagKey then
      if tag.isSome then .error (.duplicateField tagKey)
      else do return (some (← tagOf j), ms)
    else .ok (tag, ms ++ [(key, j)])

def ofJson (shape : Shape α) : Json → Except Cause (Outcome α)
  | .object ms => do
    match ← Json.membersOf takeTag (none, []) ms with
    | (some tag, ms) => ofMembers shape tag ms
    | (none, _) => .error (.missingField tagKey)
  | .list [] => .error (.missingField tagKey)
  | .list (j :: js) => do ofItems shape (← tagOf j) js
  | j => Json.wrongTypeOf noun j

/-- A tag in a text. -/
def readTag (cs : List Char) : Except Fault (Parsed Tag) := do
  let (name, r) ← Json.readTextOf "variant identifier" cs
  return (← Json.pickCase Tag.cases name r, r)

def readMember (d : Nat) : Option Tag × List (String × Json) → String → List Char →
    Except Fault (Parsed (Option Tag × List (String × Json)))
  | (tag, ms), key, cs =>
    if key = tagKey then
      if tag.isSome then Json.failOpen (.duplicateField tagKey) cs
      else do
        let (tag, cs) ← readTag (← Json.readColon cs)
        return ((some tag, ms), cs)
    else do
      let (j, cs) ← Json.readValue d (← Json.readColon cs)
      return ((tag, ms ++ [(key, j)]), cs)

/-- The content is only looked at behind the closing bracket, so its faults have no place. -/
def settle (content : Except Cause (Outcome α)) (rest : List Char) :
    Except Fault (Parsed (Outcome α)) :=
  match content with
  | .ok o => .ok (o, rest)
  | .error cause => Json.failOpen cause rest

def read (shape : Shape α) (d : Nat) (cs : List Char) : Except Fault (Parsed (Outcome α)) :=
  match Json.skipBlank cs with
  | '[' :: r => do
    let ((tag, js), r) ← Json.within d (fun d r => Json.closeList do
      let (more, r) ← Json.nextItem true r
      if !more then Json.failOpen (.missingField tagKey) r
      else
        let (tag, r) ← readTag r
        let (js, r) ← Json.readItems (Json.readValue d) (r.length + 1) false r
        return ((tag, js), r)) r
    settle (ofItems shape tag js) r
  | '\x7b' :: r => do
    let ((tag, ms), r) ← Json.within d (fun d r => Json.closeObject do
      let ((tag, ms), r) ← Json.readMembers (readMember d) (r.length + 1) true (none, []) r
      match tag with
      | some tag => return ((tag, ms), r)
      | none => Json.failOpen (.missingField tagKey) r) r
    settle (ofMembers shape tag ms) r
  | r => Json.wrongType noun r

def parse (shape : Shape α) (text : String) : Except Fault (Outcome α) :=
  Json.finish (read shape Json.depthLimit text.toList)

end Outcome

end WarmCompile
