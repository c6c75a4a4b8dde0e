import ViewForge.Project.Output
/-! A sink: what a generator hands over piece by piece is kept until it is written, and it stays
when it cannot be. -/
namespace ViewForge
open Code (Decl)

inductive Delivery where
  | imports (source : Option String) (names : List String)
  | decl (source : Option String) (decl : Decl)

namespace SourceBundle

def updateFor (source : Option String) (change : SourceUnit → SourceUnit) (b : SourceBundle) :
    SourceBundle :=
  match source with
  | none => b.updateCommon change
  | some source => b.update source change

def take (b : SourceBundle) : Delivery → SourceBundle
  | .imports source names => b.updateFor source (·.addImports names)
  | .decl source decl => b.updateFor source (·.add decl)

end SourceBundle

structure Sink where
  bundle : SourceBundle := {}
  workspace : Workspace := {}

namespace Sink

/-- Writes everything and starts anew. After a failure all of it is still there. -/
def flush (destination : Destination) : Task Sink WriteReport := do
  let sink ← get
  let (result, workspace) := (Output.write sink.bundle destination).outcome sink.workspace
  set { sink with workspace }
  let report ← result
  modify ({ · with bundle := {} })
  return report

end Sink

end ViewForge
