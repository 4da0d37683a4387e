import WarmCompile.Json.Basic

/-!
The tables of a TOML document while it is read. Each table remembers how it came about, since that
decides whether a later line may add to it.
-/

namespace WarmCompile.Toml

inductive Origin where
  /-- On the way to a table with a header. -/
  | implied
  | headed
  /-- On the way along a dotted key. -/
  | dotted
  | inline
  deriving DecidableEq, Repr

inductive Node where
  | text (s : String)
  | integer (n : Int)
  | real
  | bool (b : Bool)
  | moment
  | list (items : List Node)
  | table (origin : Origin) (entries : List (String × Node))
  | tables (items : List Node)
  deriving Inhabited

abbrev Entries := List (String × Node)

def setEntry (key : String) (node : Node) : Entries → Entries
  | [] => [(key, node)]
  | e :: r => if e.1 = key then (key, node) :: r else e :: setEntry key node r

/-- Adds a value under a dotted key; no entry is overwritten and no finished table extended. -/
def add (value : Node) : List String → Entries → Option Entries
  | [], _ => none
  | [k], es => if (es.lookup k).isSome then none else some (es ++ [(k, value)])
  | k :: ks, es =>
    match es.lookup k with
    | none => (add value ks []).map fun sub => es ++ [(k, .table .dotted sub)]
    | some (.table .dotted sub) =>
      (add value ks sub).map fun sub => setEntry k (.table .dotted sub) es
    | some (.table .implied sub) =>
      (add value ks sub).map fun sub => setEntry k (.table .implied sub) es
    | some _ => none

/-- Changes what the path of a header leads to. -/
def change (last : Option Node → Option Node) : List String → Entries → Option Entries
  | [], _ => none
  | [k], es => (last (es.lookup k)).map fun n => setEntry k n es
  | k :: ks, es =>
    match es.lookup k with
    | none => (change last ks []).map fun sub => es ++ [(k, .table .implied sub)]
    | some (.table .inline _) => none
    | some (.table origin sub) =>
      (change last ks sub).map fun sub => setEntry k (.table origin sub) es
    | some (.tables items) =>
      match items.getLast? with
      | some (.table origin sub) =>
        (change last ks sub).map fun sub =>
          setEntry k (.tables (items.dropLast ++ [.table origin sub])) es
      | _ => none
    | some _ => none

/-- A header opens a table once. -/
def openTable : Option Node → Option Node
  | none => some (.table .headed [])
  | some (.table .implied sub) => some (.table .headed sub)
  | some _ => none

/-- A doubled header opens one more table of a list. -/
def openTables : Option Node → Option Node
  | none => some (.tables [.table .headed []])
  | some (.tables items) => some (.tables (items ++ [.table .headed []]))
  | some _ => none

def addTo (key : List String) (value : Node) : Option Node → Option Node
  | some (.table origin sub) => (add value key sub).map (.table origin)
  | some (.tables items) =>
    match items.getLast? with
    | some (.table origin sub) =>
      (add value key sub).map fun sub => .tables (items.dropLast ++ [.table origin sub])
    | _ => none
  | _ => none

/-- Adds a value to the table opened last. -/
def addAt (header : List String) (key : List String) (value : Node) (es : Entries) :
    Option Entries :=
  if header.isEmpty then add value key es else change (addTo key value) header es

mutual
/-- Numbers beyond 64 bits and reals have no whole value, a moment only an inner one. -/
def Node.toJson : Node → Json
  | .text s => .text s
  | .integer n =>
    if 0 ≤ n then
      if n < 0x10000000000000000 then .number (.natural n.toNat) else .number (.real 0)
    else .number (.negative n.natAbs)
  | .real => .number (.real 0)
  | .bool b => .bool b
  | .moment => .object [("$__toml_private_datetime", .text "")]
  | .list items => .list (listToJson items)
  | .table _ es => .object (entriesToJson es)
  | .tables items => .list (listToJson items)

def listToJson : List Node → List Json
  | [] => []
  | n :: ns => n.toJson :: listToJson ns

def entriesToJson : List (String × Node) → List (String × Json)
  | [] => []
  | (k, n) :: es => (k, n.toJson) :: entriesToJson es
end

end WarmCompile.Toml
