/-! The modules that generated source imports. -/
namespace ViewForge

abbrev Imports := List String

namespace Imports

def insert (name : String) : Imports → Imports
  | [] => [name]
  | other :: rest =>
    if name < other then name :: other :: rest
    else if name = other then other :: rest
    else other :: insert name rest

def union (a : Imports) (names : List String) : Imports :=
  names.foldl (fun all name => insert name all) a

def ofList (names : List String) : Imports := union [] names

end Imports

end ViewForge
