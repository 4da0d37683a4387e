import WarmCompile.Json.Basic

/-!
Shapes: descriptions of the JSON form of a type. One description gives the printer and both readers,
from a text and from a value.
-/

namespace WarmCompile.Json

/-- What happens when a member is not there. `optional` is only for objects, `elided` is like it but
also leaves the fallback out when printed, `defaulted` also fills up short lists. -/
inductive Presence (α : Type) where
  | required
  | optional (fallback : α)
  | elided (fallback : α) (isFallback : α → Bool)
  | defaulted (fallback : α)

def Presence.fallback? {α : Type} : Presence α → Option α
  | .required => none
  | .optional a | .elided a _ | .defaulted a => some a

/-- The value that a list without an item for the field gives it. -/
def Presence.padding? {α : Type} : Presence α → Option α
  | .defaulted a => some a
  | _ => none

def Presence.isShown {α : Type} : Presence α → α → Bool
  | .elided _ isFallback, a => !isFallback a
  | _, _ => true

mutual
inductive Shape : Type → Type 1 where
  | text : Shape String
  | bool : Shape Bool
  /-- A whole number of 32 bits with a sign. -/
  | int : Shape Int
  /-- A whole number of 64 bits without a sign. -/
  | size : Shape Nat
  | optional {α : Type} (shape : Shape α) : Shape (Option α)
  | list {α : Type} (shape : Shape α) : Shape (List α)
  | dictionary : Shape (Table String)
  /-- One of some names. -/
  | choice {α : Type} (cases : List (String × α)) (name : α → String) : Shape α
  | record {α β : Type} (name : String) (fields : Fields β) (make : β → α) (parts : α → β) :
      Shape α

inductive Fields : Type → Type 1 where
  | none : Fields Unit
  | field {α β : Type} (name : String) (shape : Shape α) (presence : Presence α)
      (others : Fields β) : Fields (α × β)
end

/-- The fields read so far. -/
def Fields.Slots : {β : Type} → Fields β → Type
  | _, .none => Unit
  | _, .field (α := α) _ _ _ others => Option α × others.Slots

def Fields.empty : {β : Type} → (fs : Fields β) → fs.Slots
  | _, .none => ()
  | _, .field _ _ _ others => (Option.none, others.empty)

def Fields.names : {β : Type} → Fields β → List String
  | _, .none => []
  | _, .field name _ _ others => name :: others.names

/-- All fields, or the name of the first that is missing. -/
def Fields.complete : {β : Type} → (fs : Fields β) → fs.Slots → Except String β
  | _, .none, _ => .ok ()
  | _, .field name _ presence others, slots =>
    match slots.1 <|> presence.fallback? with
    | Option.none => .error name
    | some a =>
      match others.complete slots.2 with
      | .error name => .error name
      | .ok b => .ok (a, b)

def counted (n : Nat) (noun : String) : String :=
  toString n ++ " " ++ noun ++ (if n = 1 then "" else "s")

/-- What a record of this name is called where something else stands. -/
def recordNoun (name : String) : String :=
  "struct " ++ name

/-- What a list that is too short for the fields should have been. -/
def Fields.lengthNoun {β : Type} (noun : String) (fs : Fields β) : String :=
  noun ++ " with " ++ counted fs.names.length "element"

mutual
def Shape.toJson : {α : Type} → Shape α → α → Json
  | _, .text, s => .text s
  | _, .bool, b => .bool b
  | _, .int, n => .number (if n < 0 then .negative n.natAbs else .natural n.natAbs)
  | _, .size, n => .number (.natural n)
  | _, .optional _, Option.none => .null
  | _, .optional shape, some a => shape.toJson a
  | _, .list shape, as => .list (as.map fun a => shape.toJson a)
  | _, .dictionary, t => .object (t.entries.map fun e => (e.1, .text e.2))
  | _, .choice _ name, a => .text (name a)
  | _, .record _ fields _ parts, a => .object (fields.toMembers (parts a))

def Fields.toMembers : {β : Type} → Fields β → β → List (String × Json)
  | _, .none, _ => []
  | _, .field name shape presence others, (a, b) =>
    if presence.isShown a then (name, shape.toJson a) :: others.toMembers b
    else others.toMembers b
end

end WarmCompile.Json
