import ViewForge.Text.Basic
/-! Elements of a document, with attribute names kept as they are written. -/
namespace ViewForge.Markup

structure Node where
  name : String
  attributes : List (String × String) := []
  children : List Node := []
  text : String := ""
  deriving Repr

namespace Node

def get? (node : Node) (name : String) : Option String := node.attributes.lookup name

def flag (node : Node) (name : String) : Bool :=
  match node.get? name with
  | some value => Text.trim value == "true"
  | none => false

def child? (node : Node) (name : String) : Option Node := node.children.find? (·.name == name)

def childrenNamed (node : Node) (name : String) : List Node := node.children.filter (·.name == name)

end Node

end ViewForge.Markup
