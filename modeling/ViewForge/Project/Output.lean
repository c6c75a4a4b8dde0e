import ViewForge.Code.Printer
import ViewForge.Files.Basic
import ViewForge.Ordered
import ViewForge.Source.Imports
import ViewForge.Task
/-! Generated declarations on their way out: gathered by the file that they come from, and then
written to a stream, to one file, or to a file each. -/
namespace ViewForge
open Code (Decl)

structure SourceUnit where
  imports : Imports := []
  decls : List Decl := []

namespace SourceUnit

def isEmpty (u : SourceUnit) : Bool := u.imports.isEmpty && u.decls.isEmpty

def addImports (names : List String) (u : SourceUnit) : SourceUnit :=
  { u with imports := u.imports.union names }

def add (d : Decl) (u : SourceUnit) : SourceUnit := { u with decls := u.decls ++ [d] }

def render (u : SourceUnit) : String := Text.join "\n" (u.decls.map (·.render 0))

end SourceUnit

structure SourceBundle where
  common : SourceUnit := {}
  units : List (String × SourceUnit) := []

namespace SourceBundle

def update (source : String) (change : SourceUnit → SourceUnit) (b : SourceBundle) : SourceBundle :=
  let unit := (b.units.lookup source).getD {}
  { b with units := Ordered.put source (change unit) b.units }

def updateCommon (change : SourceUnit → SourceUnit) (b : SourceBundle) : SourceBundle :=
  { b with common := change b.common }

def headline : String := "// Generated by hyperc. Do not edit.\n\n"

def renderImports (imports : Imports) : String :=
  if imports.isEmpty then ""
  else Text.concat (imports.map fun name => "import " ++ name ++ "\n") ++ "\n"

def renderMerged (b : SourceBundle) : String :=
  let units := b.common :: b.units.map (·.2)
  let imports := units.foldl (fun all u => Imports.union all u.imports) []
  let bodies := (units.filter fun u => !u.decls.isEmpty).map (·.render)
  headline ++ renderImports imports ++ Text.join "\n" bodies

def renderUnit (b : SourceBundle) (u : SourceUnit) : String :=
  headline ++ renderImports (b.common.imports.union u.imports) ++ u.render

end SourceBundle

inductive Destination where
  | stream
  | file (path : String)
  | directory (path : String) (root : Option String) (skipUnchanged : Bool)
  deriving DecidableEq, Repr

structure Workspace where
  files : FileSystem := {}
  printed : String := ""
  warnings : List String := []

abbrev Work := Task Workspace

namespace Work

def ofFiles : Except FileError α → Work α
  | .ok a => pure a
  | .error e => throw (.io e.message)

def print (text : String) : Work Unit := modify fun w => { w with printed := w.printed ++ text }

def warn (messages : List String) : Work Unit :=
  modify fun w => { w with warnings := w.warnings ++ messages }

def createDirectories (path : String) : Work Unit := do
  let files ← ofFiles ((← get).files.createDirectories path)
  modify ({ · with files })

def writeText (path text : String) : Work Unit := do
  let files ← ofFiles ((← get).files.write path text.toUTF8)
  modify ({ · with files })

end Work

structure WriteReport where
  written : List String := []
  skipped : List String := []
  deriving DecidableEq, Repr

namespace Output

def commonFile : String := "Common.swift"

def nameFor (fileName : String) : String :=
  match Text.before? ".ui.xml" fileName with
  | some stem => stem ++ ".swift"
  | none =>
    match Text.before? ".styles.xml" fileName with
    | some stem => stem ++ ".styles.swift"
    | none => (Text.before? ".xml" fileName).getD fileName ++ ".swift"

/-- Sources below the root keep their place, all others go to the top. -/
def pathFor (directory : String) (root : Option String) (source : String) : String :=
  let path := Path.ofText source
  let inner := ((root.bind fun r => (Path.ofText r).below? path).bind Path.parent?).map (·.text)
  Path.append (Path.append directory (inner.getD "")) (nameFor (path.fileName?.getD source))

/-- The outputs of the units. Two sources cannot have one output; `claimed` are those taken. -/
def plan (directory : String) (root : Option String) :
    List (String × String) → List (String × SourceUnit) →
      Result (List (String × String × SourceUnit))
  | _, [] => .ok []
  | claimed, (source, unit) :: rest =>
    let path := pathFor directory root source
    match claimed.find? fun c => (Path.ofText c.1).same (Path.ofText path) with
    | some (_, first) => .error (.outputCollision path first source)
    | none => do
      let others ← plan directory root ((path, source) :: claimed) rest
      return (path, source, unit) :: others

def isUpToDate (files : FileSystem) (source output : String) : Bool :=
  match files.modified? source, files.modified? output with
  | some s, some o => decide (s ≤ o)
  | _, _ => false

def writeUnits (b : SourceBundle) (skipUnchanged : Bool) (report : WriteReport) :
    List (String × String × SourceUnit) → Work WriteReport
  | [] => pure report
  | (path, source, unit) :: rest => do
    if skipUnchanged && isUpToDate (← get).files source path then
      writeUnits b skipUnchanged { report with skipped := report.skipped ++ [path] } rest
    else
      match (Path.ofText path).parent? with
      | some parent => Work.createDirectories parent.text
      | none => pure ()
      Work.writeText path (b.renderUnit unit)
      writeUnits b skipUnchanged { report with written := report.written ++ [path] } rest

def writeDirectory (b : SourceBundle) (directory : String) (root : Option String)
    (skipUnchanged : Bool) : Work WriteReport := do
  let common := Path.append directory commonFile
  let claimed := if b.common.isEmpty then [] else [(common, "common declarations")]
  let outputs ← plan directory root claimed b.units
  Work.createDirectories directory
  if b.common.isEmpty then writeUnits b skipUnchanged {} outputs
  else
    Work.writeText common (b.renderUnit { decls := b.common.decls })
    writeUnits b skipUnchanged { written := [common] } outputs

def writeFile (b : SourceBundle) (path : String) : Work WriteReport := do
  match (Path.ofText path).parent? with
  | some parent => Work.createDirectories parent.text
  | none => pure ()
  Work.writeText path b.renderMerged
  return { written := [path] }

def write (b : SourceBundle) : Destination → Work WriteReport
  | .stream => do
    Work.print b.renderMerged
    return {}
  | .file path => writeFile b path
  | .directory path root skipUnchanged => writeDirectory b path root skipUnchanged

end Output

end ViewForge
