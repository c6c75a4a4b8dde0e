import ViewForge.Value.Basic
/-! Properties: what a table of descriptions says of an attribute, what the attribute binds, and the
code that applies it. -/
namespace ViewForge
open Code (Expr Stmt)

structure PropertyPath where
  scope : List String := []
  name : String
  deriving DecidableEq, Repr

namespace PropertyPath

def flatten (p : PropertyPath) : String := Text.concat (p.scope.map (· ++ ".")) ++ p.name

def memberOf (p : PropertyPath) (target : Expr) : Expr := (target.path p.scope).member p.name

end PropertyPath

inductive ControlState where
  | normal
  | highlighted
  | disabled
  | selected
  | focused
  deriving DecidableEq, Repr

namespace ControlState

def all : List ControlState := [normal, highlighted, disabled, selected, focused]

def name : ControlState → String
  | normal => "normal"
  | highlighted => "highlighted"
  | disabled => "disabled"
  | selected => "selected"
  | focused => "focused"

def ofName? (name : String) : Option ControlState := all.find? (·.name == name)

end ControlState

inductive Setter where
  | assign
  | perState (method : String)
  deriving DecidableEq, Repr

def Setter.method? : Setter → Option String
  | assign => none
  | perState method => some method

structure PropertyDescription where
  path : PropertyPath
  type : ValueType
  setter : Setter
  deriving DecidableEq, Repr

def PropertyDescription.default? (d : PropertyDescription) : Option Value := d.type.default?

def stateReference? (raw : String) : Option String :=
  match Text.trimChars raw.toList with
  | '$' :: name => if Text.isName name then some (String.ofList name) else none
  | _ => none

inductive Binding where
  | value (value : Value)
  | state (name : String)
  | code (expression : Expr)

def PropertyDescription.bind (d : PropertyDescription) (raw : String) : Result Binding :=
  match stateReference? raw with
  | some name => .ok (.state name)
  | none => (d.type.parse raw).map .value

structure Property where
  description : PropertyDescription
  controlState : Option ControlState
  binding : Binding

namespace Property

/-- Of properties with one key the later replaces the earlier. -/
def key (p : Property) : String :=
  match p.controlState with
  | some state => p.description.path.flatten ++ "." ++ state.name
  | none => p.description.path.flatten

def state? (p : Property) : Option String :=
  match p.binding with
  | .state name => some name
  | _ => none

def value? (p : Property) : Option Value :=
  match p.binding with
  | .value v => some v
  | _ => none

def isThemed (p : Property) : Bool :=
  match p.value? with
  | some v => v.isThemed
  | none => false

def code (context : RenderContext) (state : Expr) (p : Property) : Expr :=
  match p.binding with
  | .value v => v.code context
  | .state name => state.member name
  | .code e => e

def apply (p : Property) (target value : Expr) : Stmt :=
  match p.description.setter with
  | .assign => .assign (p.description.path.memberOf target) value
  | .perState method =>
    .expr ((target.path p.description.path.scope).invoke method [
      (none, value), (some "for", .implicitMember (p.controlState.getD .normal).name)])

end Property

abbrev PropertyTable := List PropertyDescription

inductive TableEntry where
  | assign (name typeName : String)
  | perState (name typeName method : String)
  | within (segment : String) (entries : List TableEntry)

namespace PropertyTable

def insert (table : PropertyTable) (d : PropertyDescription) : PropertyTable :=
  table.filter (·.path != d.path) ++ [d]

mutual

def describe (scope : List String) : TableEntry → List PropertyDescription
  | .assign name typeName => [⟨⟨scope, name⟩, .lookup typeName, .assign⟩]
  | .perState name typeName method => [⟨⟨scope, name⟩, .lookup typeName, .perState method⟩]
  | .within segment entries => describeAll (scope ++ [segment]) entries

def describeAll (scope : List String) : List TableEntry → List PropertyDescription
  | [] => []
  | e :: rest => describe scope e ++ describeAll scope rest

end

def build (entries : List TableEntry) : PropertyTable := (describeAll [] entries).foldl insert []

/-- The description of an attribute. A final control state is split off for properties that have a
value for each. -/
def find? (table : PropertyTable) (name : String) :
    Option (PropertyDescription × Option ControlState) :=
  match List.find? (fun d => d.path.flatten == name) table with
  | some d => some (d, none)
  | none => do
    let (base, last) ← Text.cutLast? '.' name
    let state ← ControlState.ofName? last
    let d ← List.find? (fun d => d.setter.method?.isSome && d.path.flatten == base) table
    return (d, some state)

def property (table : PropertyTable) (name raw : String) : Result (Option Property) :=
  match table.find? name with
  | none => .ok none
  | some (d, state) => (d.bind raw).map fun binding => some ⟨d, state, binding⟩

end PropertyTable

end ViewForge
