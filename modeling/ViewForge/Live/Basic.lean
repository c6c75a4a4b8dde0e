import ViewForge.Element.Basic
import ViewForge.Value.Live
/-! A running interface: what it is asked to do, and what it has done. Views are numbered in the
order in which they are made; the root that is there from the start is number zero. -/
namespace ViewForge

abbrev ViewNumber := Nat

inductive Instantiation where
  | view (runtimeType : String)
  | button (runtimeType buttonType : String)
  | component (typeName : String)
  deriving DecidableEq, Repr

namespace Instantiation

def ofKind : ElementKind → Instantiation
  | .widget .button => button Widget.button.runtimeType "custom"
  | .widget w => view w.runtimeType
  | .component r => component r.typeName

def runtimeType : Instantiation → String
  | view t => t
  | button t _ => t
  | component t => t

end Instantiation

inductive Inserter where
  | arrangedSubview
  | subview
  deriving DecidableEq, Repr

namespace Inserter

def name : Inserter → String
  | arrangedSubview => "arrangedSubview"
  | subview => "subview"

/-- The ways to try for a parent, the most specific first. -/
def chain : ElementKind → List Inserter
  | .widget .stackView => [arrangedSubview, subview]
  | .widget .container | .widget .scrollView | .component _ => [subview]
  | .widget _ => []

end Inserter

inductive LiveTarget where
  | view (view : ViewNumber) (anchor : Option Anchor)
  | safeArea (view : ViewNumber) (anchor : Option Anchor)
  | constant (value : Float)
  deriving DecidableEq, Repr

structure LiveConstraint where
  anchor : Anchor
  relation : Relation
  target : LiveTarget
  modifiers : List ConstraintModifier
  priority : Nat
  deriving DecidableEq, Repr

inductive LiveEvent where
  | instantiated (view : ViewNumber) (request : Instantiation)
  | set (view : ViewNumber) (key : String) (value : LiveValue)
  | inserted (parent child : ViewNumber) (inserter : Inserter) (accepted : Bool)
  | activated (view : ViewNumber) (constraint : LiveConstraint)
  deriving Repr

structure Host where
  unsupported : List String := []
  /-- The ways of insertion it takes, all of them if none is named. -/
  inserters : Option (List String) := none
  limit : Nat := 200
  deriving DecidableEq, Repr

namespace Host

def canMake (host : Host) (request : Instantiation) (made : Nat) : Bool :=
  !host.unsupported.contains request.runtimeType && decide (made < host.limit)

def accepts (host : Host) (inserter : Inserter) : Bool :=
  match host.inserters with
  | some names => names.contains inserter.name
  | none => true

end Host

inductive LiveTree where
  | node (views : List (String × ViewNumber)) (nested : List (String × LiveTree))
      (activeConstraints : Nat)

end ViewForge
