import WarmCompile.Json.Shape.Text
import WarmCompile.Json.Shape.Tree

/-!
Objects that tell a case under one key and its content under another, in either order. Other members
do not count.
-/

namespace WarmCompile.Json

/-- The two keys, and the cases under the first. -/
structure Adjacency (κ : Type) where
  tagKey : String
  contentKey : String
  cases : List (String × κ)

/-- What was read so far; content that comes before its tag has to wait. -/
structure Adjacent (κ α : Type) where
  tag : Option κ
  waiting : Option Json
  value : Option α

namespace Adjacency

variable {κ α : Type}

def start : Adjacent κ α := ⟨none, none, none⟩

def ofMember (a : Adjacency κ) (content : κ → Json → Except Cause α) (s : Adjacent κ α)
    (key : String) (j : Json) : Except Cause (Adjacent κ α) :=
  if key = a.tagKey then
    if s.tag.isSome then .error (.duplicateField a.tagKey)
    else do
      let tag ← choiceOf a.cases j
      match s.waiting with
      | none => return { s with tag := some tag }
      | some j => return { s with tag := some tag, value := some (← content tag j) }
  else if key = a.contentKey then
    if s.waiting.isSome || s.value.isSome then .error (.duplicateField a.contentKey)
    else match s.tag with
      | none => .ok { s with waiting := some j }
      | some tag => do return { s with value := some (← content tag j) }
  else .ok s

def complete (a : Adjacency κ) (s : Adjacent κ α) : Except Cause α :=
  match s.value, s.tag with
  | some v, _ => .ok v
  | none, none => .error (.missingField a.tagKey)
  | none, some _ => .error (.missingField a.contentKey)

def ofMembers (a : Adjacency κ) (content : κ → Json → Except Cause α)
    (ms : List (String × Json)) : Except Cause α := do
  a.complete (← membersOf (a.ofMember content) start ms)

def readMember (a : Adjacency κ) (content : κ → Json → Except Cause α)
    (readContent : κ → Nat → List Char → Except Fault (Parsed α)) (d : Nat)
    (s : Adjacent κ α) (key : String) (cs : List Char) : Except Fault (Parsed (Adjacent κ α)) :=
  if key = a.tagKey then
    if s.tag.isSome then failOpen (.duplicateField a.tagKey) cs
    else do
      let (tag, cs) ← readChoice a.cases d (← readColon cs)
      match s.waiting with
      | none => return ({ s with tag := some tag }, cs)
      | some j =>
        match content tag j with
        | .ok v => return ({ s with tag := some tag, value := some v }, cs)
        | .error cause => failOpen cause cs
  else if key = a.contentKey then
    if s.waiting.isSome || s.value.isSome then failOpen (.duplicateField a.contentKey) cs
    else match s.tag with
      | none => do
        let (j, cs) ← readValue d (← readColon cs)
        return ({ s with waiting := some j }, cs)
      | some tag => do
        let (v, cs) ← readContent tag d (← readColon cs)
        return ({ s with value := some v }, cs)
  else do return (s, ← skipMember cs)

/-- Reads the case and its content from an object, or as the two items of a list. -/
def read (a : Adjacency κ) (noun : String) (content : κ → Json → Except Cause α)
    (readContent : κ → Nat → List Char → Except Fault (Parsed α)) (d : Nat) (cs : List Char) :
    Except Fault (Parsed α) :=
  match skipBlank cs with
  | '[' :: r =>
    within d (fun d r => closeList do
      let (more, r) ← nextItem true r
      if !more then failOpen (.invalidLength 0 noun) r
      else
        let (tag, r) ← readChoice a.cases d r
        let (more, r) ← nextItem false r
        if !more then failOpen (.invalidLength 1 noun) r
        else readContent tag d r) r
  | '\x7b' :: r =>
    within d (fun d r => closeObject do
      let (s, r) ← readMembers (a.readMember content readContent d) (r.length + 1) true start r
      match a.complete s with
      | .ok v => return (v, r)
      | .error cause => failOpen cause r) r
  | r => wrongType noun r

end Adjacency

end WarmCompile.Json
