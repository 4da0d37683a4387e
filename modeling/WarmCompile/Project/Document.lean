import WarmCompile.Markup.Reference
import WarmCompile.Markup.Attribute
import WarmCompile.Path
import WarmCompile.Text.Blank

/-!
What a project file says: its items, and the properties that matter for compiling. Conditions are
not looked at; items and properties count wherever they stand.
-/

namespace WarmCompile

/-- The content of one project file. -/
structure Document where
  compileItems : List String
  references : List String
  defines : List String
  targetFramework : Option String
  otherFlags : List String
  deriving DecidableEq, Repr, Inhabited

inductive DocumentFault where
  | markup (fault : Markup.Fault)
  | attribute (fault : Markup.AttributeFault)
  | value (fault : Markup.ValueFault)
  | number (fault : Markup.NumberFault)
  | noInclude (item : List Char)
  | wildcard (item : String)
  | unknownEntity (name : List Char)
  deriving DecidableEq, Repr, Inhabited

def DocumentFault.message : DocumentFault → String
  | .markup f => f.message
  | .attribute f => f.message
  | .value f => f.message
  | .number f => f.message
  | .noInclude item => "<" ++ String.ofList item ++ "> without Include"
  | .wildcard item => "wildcard includes are not supported: " ++ item
  | .unknownEntity name => "unknown entity &" ++ String.ofList name ++ ";"

namespace Document

inductive Item where
  | compile
  | reference
  deriving DecidableEq, Repr

def Item.ofName? (name : List Char) : Option Item :=
  if name = "Compile".toList then some .compile
  else if name = "ProjectReference".toList then some .reference
  else none

inductive Property where
  | defineConstants
  | targetFramework
  | targetFrameworks
  | otherFlags
  deriving DecidableEq, Repr

def Property.ofName? (name : List Char) : Option Property :=
  if name = "DefineConstants".toList then some .defineConstants
  else if name = "TargetFramework".toList then some .targetFramework
  else if name = "TargetFrameworks".toList then some .targetFrameworks
  else if name = "OtherFlags".toList then some .otherFlags
  else none

def empty : Document :=
  ⟨[], [], [], none, []⟩

/-- Adds what is not there yet. -/
def addNew (known : List String) : List String → List String
  | [] => known
  | d :: ds => addNew (if d ∈ known then known else known ++ [d]) ds

/-- The parts of a list with semicolons. -/
def listed (value : List Char) : List (List Char) :=
  (value.splitOn ';').map Text.trim

/-- A part that refers to another property. -/
def isExpansion (part : List Char) : Bool :=
  "$(".toList.isPrefixOf part

def definesOf (value : List Char) : List String :=
  ((listed value).filter fun d => !d.isEmpty && !isExpansion d).map String.ofList

def flagsOf (value : List Char) : List String :=
  ((Text.words value).filter (!isExpansion ·)).map String.ofList

/-- The first value that is not blank. -/
def frameworkOf (values : List (List Char)) : Option String :=
  (values.find? (!·.isEmpty)).map String.ofList

/-- Takes in the value of a property; the first framework counts. -/
def apply (d : Document) (property : Property) (value : List Char) : Document :=
  match property with
  | .defineConstants => { d with defines := addNew d.defines (definesOf value) }
  | .targetFramework =>
    { d with targetFramework := d.targetFramework <|> frameworkOf [Text.trim value] }
  | .targetFrameworks =>
    { d with targetFramework := d.targetFramework <|> frameworkOf (listed value) }
  | .otherFlags => { d with otherFlags := d.otherFlags ++ flagsOf value }

/-- What was read so far, and the property whose value is being collected. -/
structure Reading where
  document : Document
  current : Option (Property × List Char)
  deriving DecidableEq, Repr

/-- The path an item names, as seen from the directory of its project. -/
def includeOf (name tag : List Char) : Except DocumentFault String :=
  match Markup.attribute? "Include".toList tag with
  | .error f => .error (.attribute f)
  | .ok none => .error (.noInclude name)
  | .ok (some raw) =>
    match Markup.unescape raw with
    | .error f => .error (.value f)
    | .ok value =>
      if '*' ∈ value then .error (.wildcard (String.ofList value)) else .ok (String.ofList value)

/-- A tag lists an item or begins a property. -/
def Reading.opened (s : Reading) (dir : String) (tag : List Char) :
    Except DocumentFault Reading :=
  let name := Markup.localName (Markup.tagName tag)
  match Item.ofName? name with
  | some item => do
    let path := Path.resolve dir (← includeOf name tag)
    match item with
    | .compile =>
      return { s with document.compileItems := s.document.compileItems ++ [path] }
    | .reference =>
      return { s with document.references := s.document.references ++ [path] }
  | none =>
    match Property.ofName? name with
    | some p => .ok { s with current := some (p, []) }
    | none => .ok s

def Reading.append (s : Reading) (cs : List Char) : Reading :=
  { s with current := s.current.map fun (p, value) => (p, value ++ cs) }

def Reading.referred (s : Reading) (name : List Char) : Except DocumentFault Reading :=
  if s.current.isNone then .ok s
  else match Markup.resolve name with
    | .error f => .error (.number f)
    | .ok none => .error (.unknownEntity name)
    | .ok (some c) => .ok (s.append [c])

/-- Only the end of the same property ends it. -/
def Reading.closed (s : Reading) (name : List Char) : Reading :=
  match s.current with
  | some (p, value) =>
    if Property.ofName? (Markup.localName name) = some p then
      ⟨s.document.apply p value, none⟩
    else s
  | none => s

def Reading.step (dir : String) (s : Reading) : Markup.Event → Except DocumentFault Reading
  | .opening tag | .empty tag => s.opened dir tag
  | .text cs => .ok (s.append cs)
  | .reference name => s.referred name
  | .closing name => .ok (s.closed name)
  | .aside => .ok s

def Reading.run (dir : String) (s : Reading) : List Markup.Event → Except DocumentFault Reading
  | [] => .ok s
  | e :: es => do run dir (← s.step dir e) es

/-- The content of a project file in the directory `dir`. -/
def parse (text dir : String) : Except DocumentFault Document := do
  let stream := Markup.scan text
  let s ← Reading.run dir ⟨empty, none⟩ stream.events
  match stream.fault with
  | some f => .error (.markup f)
  | none => return s.document

end Document

end WarmCompile
