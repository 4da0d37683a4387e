import WarmCompile.Table

/-!
JSON values as they are written: members keep their order and may repeat a key.
-/

namespace WarmCompile

/-- Whole numbers of 64 bits stay exact; `negative n` stands for `-n`, a real for its 64 bits. -/
inductive Json.Number where
  | natural (n : Nat)
  | negative (n : Nat)
  | real (bits : UInt64)
  deriving DecidableEq, Repr, Inhabited

inductive Json where
  | null
  | bool (b : Bool)
  | number (n : Json.Number)
  | text (s : String)
  | list (items : List Json)
  | object (members : List (String × Json))
  deriving Inhabited, Repr

namespace Json

/-- The value of a member; the last of repeated ones counts. -/
def get? : Json → String → Option Json
  | .object ms, k => ms.reverse.lookup k
  | _, _ => none

mutual
/-- Each object keeps the last member under a key, in the order of the keys. -/
def collapse : Json → Json
  | .list items => .list (collapseItems items)
  | .object ms => .object (Table.ofList (collapseMembers ms)).entries
  | j => j

def collapseItems : List Json → List Json
  | [] => []
  | j :: js => j.collapse :: collapseItems js

def collapseMembers : List (String × Json) → List (String × Json)
  | [] => []
  | (k, j) :: ms => (k, j.collapse) :: collapseMembers ms
end

end Json

end WarmCompile
