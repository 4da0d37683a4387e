import WarmCompile.Json.Shape
import WarmCompile.Json.Skip

/-!
Reading a value of a shape straight from a text. What stands first in the text is reported first,
whether it is malformed or only unfit.
-/

namespace WarmCompile.Json

/-- Another kind of value than expected; a bracket is reported before, a scalar behind it. -/
def wrongType {α : Type} (expected : String) (cs : List Char) : Except Fault α :=
  match cs with
  | [] => failNext .eofValue []
  | '[' :: _ => failHere (.invalidType .list expected) cs
  | '\x7b' :: _ => failHere (.invalidType .object expected) cs
  | _ =>
    match readWith tooDeep tooDeep cs with
    | .error f => .error f
    | .ok (j, r) => failHere (.invalidType (found j) expected) r

def readTextOf (expected : String) (cs : List Char) : Except Fault (Parsed String) :=
  match skipBlank cs with
  | '"' :: r => readString r
  | r => wrongType expected r

def readInt (cs : List Char) : Except Fault (Parsed Int) :=
  match readWith tooDeep tooDeep cs with
  | .ok (.number (.natural n), r) =>
    if n < 0x80000000 then .ok (n, r)
    else failHere (.invalidValue (.number (.natural n)) "i32") r
  | .ok (.number (.negative n), r) =>
    if n ≤ 0x80000000 then .ok (-n, r)
    else failHere (.invalidValue (.number (.negative n)) "i32") r
  | .ok _ => wrongType "i32" (skipBlank cs)
  | .error _ => wrongType "i32" (skipBlank cs)

def readSize (cs : List Char) : Except Fault (Parsed Nat) :=
  match readWith tooDeep tooDeep cs with
  | .ok (.number (.natural n), r) => .ok (n, r)
  | .ok (.number (.negative n), r) =>
    failHere (.invalidValue (.number (.negative n)) "usize") r
  | .ok _ => wrongType "usize" (skipBlank cs)
  | .error _ => wrongType "usize" (skipBlank cs)

def readBool (cs : List Char) : Except Fault (Parsed Bool) :=
  match skipBlank cs with
  | 't' :: r => do return (true, ← readWord "rue".toList r)
  | 'f' :: r => do return (false, ← readWord "alse".toList r)
  | r => wrongType "a boolean" r

/-- The value of a member that has no content. -/
def readUnit (cs : List Char) : Except Fault (Parsed Unit) :=
  match skipBlank cs with
  | 'n' :: r => do return ((), ← readWord "ull".toList r)
  | r => wrongType "unit" r

/-- Opens a bracket if the depth allows it. -/
def within {α : Type} (d : Nat) (read : Nat → List Char → Except Fault (Parsed α))
    (r : List Char) : Except Fault (Parsed α) :=
  match d with
  | 0 => tooDeep r
  | d + 1 => read d r

/-- Finds a case by its name, which has just been read. -/
def pickCase {α : Type} (cases : List (String × α)) (name : String) (rest : List Char) :
    Except Fault α :=
  match cases.lookup name with
  | some a => .ok a
  | none => failHere (.unknownVariant name (cases.map (·.1))) rest

/-- A variant with content: an object with the variant's name as its only key. -/
def readTagged {α : Type} (content : String → List Char → Except Fault (Parsed α))
    (check : String → List Char → Except Fault Unit) (cs : List Char) :
    Except Fault (Parsed α) := do
  let (name, r) ← readTextOf "variant identifier" cs
  check name r
  let (a, r) ← content name (← readColon r)
  match skipBlank r with
  | [] => failHere .eofObject []
  | '\x7d' :: r => return (a, r)
  | r => failHere .expectedValue r

def readChoice {α : Type} (cases : List (String × α)) (d : Nat) (cs : List Char) :
    Except Fault (Parsed α) :=
  match skipBlank cs with
  | [] => failNext .eofValue []
  | '"' :: r => do
    let (name, r) ← readString r
    return (← pickCase cases name r, r)
  | '\x7b' :: r =>
    within d (fun _ => readTagged
      (fun name r => do
        let (_, r) ← readUnit r
        return (← pickCase cases name r, r))
      (fun name r => do let _ ← pickCase cases name r)) r
  | r => failNext .expectedValue r

def readDictionary (cs : List Char) : Except Fault (Parsed (Table String)) :=
  closeObject (readMembers
    (fun t key r => do
      let (s, r) ← readTextOf "a string" (← readColon r)
      return (t.insert key s, r))
    (cs.length + 1) true Table.empty cs)

/-- A member that is not asked for. -/
def skipMember (cs : List Char) : Except Fault (List Char) := do
  skipValue (← readColon cs)

mutual
def Shape.read : {α : Type} → Shape α → Nat → List Char → Except Fault (Parsed α)
  | _, .text, _, cs => readTextOf "a string" cs
  | _, .bool, _, cs => readBool cs
  | _, .int, _, cs => readInt cs
  | _, .size, _, cs => readSize cs
  | _, .optional shape, d, cs =>
    match skipBlank cs with
    | 'n' :: r => do return (Option.none, ← readWord "ull".toList r)
    | r => do let (a, r) ← shape.read d r; return (some a, r)
  | _, .list shape, d, cs =>
    match skipBlank cs with
    | '[' :: r =>
      within d (fun d r => closeList (readItems (fun r => shape.read d r) (r.length + 1) true r)) r
    | r => wrongType "a sequence" r
  | _, .dictionary, d, cs =>
    match skipBlank cs with
    | '\x7b' :: r => within d (fun _ => readDictionary) r
    | r => wrongType "a map" r
  | _, .choice cases _, d, cs => readChoice cases d cs
  | _, .record name fields make _, d, cs =>
    match skipBlank cs with
    | '[' :: r =>
      within d (fun d r => closeList do
        let noun := fields.lengthNoun (recordNoun name)
        let (b, r) ← fields.readItems d noun 0 r
        return (make b, r)) r
    | '\x7b' :: r =>
      within d (fun d r => closeObject do
        let (slots, r) ←
          readMembers (fun slots key r => fields.readMember d key slots r) (r.length + 1) true
            fields.empty r
        match fields.complete slots with
        | .ok b => return (make b, r)
        | .error name => failOpen (.missingField name) r) r
    | r => wrongType (recordNoun name) r

/-- The fields as items in their order. -/
def Fields.readItems : {β : Type} → Fields β → Nat → String → Nat → List Char →
    Except Fault (Parsed β)
  | _, .none, _, _, _, cs => .ok ((), cs)
  | _, .field _ shape presence others, d, noun, i, cs => do
    let (more, cs) ← nextItem (i == 0) cs
    let (a, cs) ←
      if more then shape.read d cs
      else match presence.padding? with
        | some a => .ok (a, cs)
        | Option.none => failOpen (.invalidLength i noun) cs
    let (b, cs) ← others.readItems d noun (i + 1) cs
    return ((a, b), cs)

/-- A member behind its key. -/
def Fields.readMember : {β : Type} → (fs : Fields β) → Nat → String → fs.Slots →
    List Char → Except Fault (Parsed fs.Slots)
  | _, .none, _, _, _, cs => do return ((), ← skipMember cs)
  | _, .field name shape _ others, d, key, slots, cs =>
    if key = name then
      if slots.1.isSome then failOpen (.duplicateField name) cs
      else do
        let (a, cs) ← shape.read d (← readColon cs)
        return ((some a, slots.2), cs)
    else do
      let (behind, cs) ← others.readMember d key slots.2 cs
      return ((slots.1, behind), cs)
end

/-- The fields of a variant, as an object or as a list. -/
def Fields.read {β : Type} (fields : Fields β) (noun : String) (d : Nat) (cs : List Char) :
    Except Fault (Parsed β) :=
  match skipBlank cs with
  | '[' :: r =>
    within d (fun d r => closeList (fields.readItems d (fields.lengthNoun noun) 0 r)) r
  | '\x7b' :: r =>
    within d (fun d r => closeObject do
      let (slots, r) ←
        readMembers (fun slots key r => fields.readMember d key slots r) (r.length + 1) true
          fields.empty r
      match fields.complete slots with
      | .ok b => return (b, r)
      | .error name => failOpen (.missingField name) r) r
  | r => wrongType noun r

/-- A value of a shape that is a whole text. -/
def Shape.parse {α : Type} (shape : Shape α) (text : String) : Except Fault α :=
  finish (shape.read depthLimit text.toList)

end WarmCompile.Json
