import WarmCompile.Json.Shape
import WarmCompile.Json.Fault

/-!
Taking a value of a shape out of a JSON value that has been read before.
-/

namespace WarmCompile.Json

def wrongTypeOf {α : Type} (expected : String) (j : Json) : Except Cause α :=
  .error (.invalidType (found j) expected)

def textOf : Json → Except Cause String
  | .text s => .ok s
  | j => wrongTypeOf "a string" j

def boolOf : Json → Except Cause Bool
  | .bool b => .ok b
  | j => wrongTypeOf "a boolean" j

def intOf : Json → Except Cause Int
  | .number (.natural n) =>
    if n < 0x80000000 then .ok n else .error (.invalidValue (.number (.natural n)) "i32")
  | .number (.negative n) =>
    if n ≤ 0x80000000 then .ok (-n) else .error (.invalidValue (.number (.negative n)) "i32")
  | j => wrongTypeOf "i32" j

def sizeOf : Json → Except Cause Nat
  | .number (.natural n) => .ok n
  | .number (.negative n) => .error (.invalidValue (.number (.negative n)) "usize")
  | j => wrongTypeOf "usize" j

/-- Nothing, also written as an empty object. -/
def unitOf : Json → Except Cause Unit
  | .null => .ok ()
  | .object [] => .ok ()
  | j => wrongTypeOf "unit" j

/-- The name of a variant, and its content if it has one. -/
def variantOf : Json → Except Cause (String × Option Json)
  | .text s => .ok (s, none)
  | .object [(k, j)] => .ok (k, some j)
  | .object _ => .error (.invalidValue .object "map with a single key")
  | j => wrongTypeOf "string or map" j

def caseOf {α : Type} (cases : List (String × α)) (name : String) : Except Cause α :=
  match cases.lookup name with
  | some a => .ok a
  | none => .error (.unknownVariant name (cases.map (·.1)))

def choiceOf {α : Type} (cases : List (String × α)) (j : Json) : Except Cause α := do
  let (name, content) ← variantOf j
  let a ← caseOf cases name
  match content with
  | none => return a
  | some j => do unitOf j; return a

/-- Takes each item by the same reader. -/
def itemsOf {α : Type} (item : Json → Except Cause α) : List Json → Except Cause (List α)
  | [] => .ok []
  | j :: js => do
    let a ← item j
    return a :: (← itemsOf item js)

/-- Takes in the members one after the other. -/
def membersOf {σ : Type} (member : σ → String → Json → Except Cause σ) :
    σ → List (String × Json) → Except Cause σ
  | s, [] => .ok s
  | s, (k, j) :: ms => do membersOf member (← member s k j) ms

def dictionaryOf : Json → Except Cause (Table String)
  | .object ms => membersOf (fun t k j => do return t.insert k (← textOf j)) Table.empty ms
  | j => wrongTypeOf "a map" j

def completed {β : Type} (fs : Fields β) (slots : fs.Slots) : Except Cause β :=
  match fs.complete slots with
  | .ok b => .ok b
  | .error name => .error (.missingField name)

mutual
def Shape.ofJson : {α : Type} → Shape α → Json → Except Cause α
  | _, .text, j => textOf j
  | _, .bool, j => boolOf j
  | _, .int, j => intOf j
  | _, .size, j => sizeOf j
  | _, .optional _, .null => .ok Option.none
  | _, .optional shape, j => do return some (← shape.ofJson j)
  | _, .list shape, .list js => itemsOf (fun j => shape.ofJson j) js
  | _, .list _, j => wrongTypeOf "a sequence" j
  | _, .dictionary, j => dictionaryOf j
  | _, .choice cases _, j => choiceOf cases j
  | _, .record name fields make _, .list js => do
    return make (← fields.ofItems (fields.lengthNoun (recordNoun name)) 0 js)
  | _, .record _ fields make _, .object ms => do
    let slots ← membersOf (fun slots k j => fields.ofMember slots k j) fields.empty ms
    return make (← completed fields slots)
  | _, .record name _ _ _, j => wrongTypeOf (recordNoun name) j

/-- The fields as items in their order, and no more. -/
def Fields.ofItems : {β : Type} → Fields β → String → Nat → List Json → Except Cause β
  | _, .none, _, _, [] => .ok ()
  | _, .none, _, i, j :: js =>
    .error (.invalidLength (i + (j :: js).length) (counted i "element" ++ " in sequence"))
  | _, .field _ shape presence others, noun, i, js => do
    let (a, js) ← match js with
      | j :: js => do pure (← shape.ofJson j, js)
      | [] => match presence.padding? with
        | some a => pure (a, [])
        | Option.none => .error (.invalidLength i noun)
    return (a, ← others.ofItems noun (i + 1) js)

def Fields.ofMember : {β : Type} → (fs : Fields β) → fs.Slots → String → Json →
    Except Cause fs.Slots
  | _, .none, _, _, _ => .ok ()
  | _, .field name shape _ others, slots, key, j =>
    if key = name then
      if slots.1.isSome then .error (.duplicateField name)
      else do return (some (← shape.ofJson j), slots.2)
    else do return (slots.1, ← others.ofMember slots.2 key j)
end

def Fields.ofMembers {β : Type} (fs : Fields β) (ms : List (String × Json)) : Except Cause β := do
  completed fs (← membersOf fs.ofMember fs.empty ms)

end WarmCompile.Json
