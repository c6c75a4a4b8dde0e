import ViewForge.Text.Basic
/-! Paths. Empty pieces and single points between the slashes stand for nothing; they are kept, so
that a path is written as it was given, but they do not tell two paths apart. -/
namespace ViewForge

inductive PathLead where
  | relative
  | root
  | here
  deriving DecidableEq, Repr

structure Path where
  lead : PathLead
  pieces : List String
  deriving DecidableEq, Repr

namespace Path

def isVoid (piece : String) : Bool := piece == "" || piece == "."

def ofPieces : List String → Path
  | "" :: piece :: rest => ⟨.root, piece :: rest⟩
  | "." :: rest => ⟨.here, rest⟩
  | pieces => ⟨.relative, pieces⟩

def ofText (s : String) : Path := ofPieces (Text.cut '/' s)

def text (p : Path) : String :=
  match p.lead with
  | .relative => Text.join "/" p.pieces
  | .root => "/" ++ Text.join "/" p.pieces
  | .here => Text.join "/" ("." :: p.pieces)

def names (p : Path) : List String := p.pieces.filter (!isVoid ·)

def same (a b : Path) : Bool := a.lead == b.lead && a.names == b.names

def trimPieces (pieces : List String) : List String := (pieces.reverse.dropWhile isVoid).reverse

def parent? (p : Path) : Option Path :=
  match p.lead, (trimPieces p.pieces).reverse with
  | lead, _ :: rest => some ⟨lead, trimPieces rest.reverse⟩
  | .here, [] => some ⟨.relative, []⟩
  | _, [] => none

def fileName? (p : Path) : Option String :=
  match (trimPieces p.pieces).getLast? with
  | some ".." => none
  | name => name

def dropNames : List String → List String → Option (List String)
  | [], pieces => some (pieces.dropWhile isVoid)
  | _ :: _, [] => none
  | name :: names, piece :: pieces =>
    if isVoid piece then dropNames (name :: names) pieces
    else if piece == name then dropNames names pieces
    else none

def below? (base p : Path) : Option Path :=
  if base.lead = .relative ∧ base.names = [] then some p
  else if base.lead = p.lead then (dropNames base.names p.pieces).map (⟨.relative, ·⟩)
  else none

/-- A path within a directory; one that starts at the root stands for itself. -/
def append (directory path : String) : String :=
  if Text.startsWith "/" path then path
  else if directory = "" || Text.endsWith "/" directory then directory ++ path
  else directory ++ "/" ++ path

end Path

end ViewForge
