import ViewForge.Element.Reader
import ViewForge.Project.Output
import ViewForge.Source.Component
/-! A project compiled: its files are found, read, turned into source and written. -/
namespace ViewForge
open Code (Decl)

structure SourceFiles where
  components : List String := []
  styles : List String := []
  deriving DecidableEq, Repr

namespace SourceFiles

def isEmpty (s : SourceFiles) : Bool := s.components.isEmpty && s.styles.isEmpty

def fileName (path : String) : String := ((Path.ofText path).fileName?).getD path

def sort : List (String × FileNode) → SourceFiles
  | [] => {}
  | (_, .directory) :: rest => sort rest
  | (path, .file _) :: rest =>
    let others := sort rest
    if Text.endsWith ".ui.xml" (fileName path) then
      { others with components := path :: others.components }
    else if Text.endsWith ".styles.xml" (fileName path) then
      { others with styles := path :: others.styles }
    else others

def cannotWalk (path : String) (e : FileError) : Error :=
  .io ("Directory traversal error: IO error for operation on " ++ path ++ ": " ++ e.message)

def discover (files : FileSystem) (path : String) : Result SourceFiles :=
  match files.walk path with
  | .ok found => .ok (sort found)
  | .error e => .error (cannotWalk path e)

end SourceFiles

structure CompilerOptions where
  inputPath : String
  applicationPath : String
  configuration : Configuration
  deriving DecidableEq, Repr

structure Compilation where
  registry : Registry
  applicationPath : String
  styleSources : List (String × String) := []

structure Statistics where
  components : Nat := 0
  inlineComponents : Nat := 0
  elements : Nat := 0
  styleGroups : Nat := 0
  styles : Nat := 0
  themes : Nat := 0
  filesWritten : Nat := 0
  filesSkipped : Nat := 0
  deriving DecidableEq, Repr

namespace Compilation

def addSheet (c : Compilation) (path text : String) : Work Compilation := do
  let group ← StyleGroup.parseSheet text
  let (registry, warnings) := c.registry.addGroup group
  Work.warn warnings
  return { c with registry, styleSources := Ordered.put group.name path c.styleSources }

def readComponent (platform : Platform) (path text : String) :
    Result ComponentDefinition × List String :=
  match Markup.parse text with
  | .error e => (.error e, [])
  | .ok node =>
    let (outcome, state) := (ComponentDefinition.read node).outcome { platform, path }
    (outcome, state.warnings)

def addComponent (c : Compilation) (path text : String) : Work Compilation := do
  let (outcome, warnings) := readComponent c.registry.platform path text
  Work.warn warnings
  let definition ← outcome
  return { c with registry := c.registry.addComponent definition }

def readSource (path : String) : Work String := do
  Work.ofFiles ((← get).files.readText path)

def addFiles (add : Compilation → String → String → Work Compilation) (c : Compilation) :
    List String → Work Compilation
  | [] => pure c
  | path :: rest => do
    let c ← Task.inFile path do add c path (← readSource path)
    addFiles add c rest

def ingest (options : CompilerOptions) (sources : SourceFiles) : Work Compilation := do
  let path := options.applicationPath
  let application ← Task.inFile path do Application.parse (← readSource path)
  let c : Compilation :=
    { registry := { platform := options.configuration.platform, application },
      applicationPath := path }
  let c ← addFiles addSheet c sources.styles
  addFiles addComponent c sources.components

def sourceComment (path : String) : Decl := .comment ("Generated from " ++ path)

def addUnit (source : String) (imports : List String) (d : Decl) (b : SourceBundle) :
    SourceBundle :=
  b.update source fun u => ((u.addImports imports).add (sourceComment source)).add d

def generateStyles (c : Compilation) (configuration : Configuration) :
    List StyleGroup → SourceBundle → Result SourceBundle
  | [], b => .ok b
  | group :: rest, b => do
    let source := (c.styleSources.lookup group.name).getD group.name
    let decl ← (StyleSource.ofGlobal c.registry configuration group).decl.inFile source
    c.generateStyles configuration rest (addUnit source ["UIKit"] decl b)

def generateComponents (c : Compilation) (configuration : Configuration) :
    List ComponentDefinition → SourceBundle → Resolve SourceBundle
  | [], b => pure b
  | d :: rest, b => do
    let source ← Task.inFile d.sourcePath (c.registry.componentSource configuration d)
    c.generateComponents configuration rest (addUnit d.sourcePath source.imports source.decl b)

def statistics (c : Compilation) : Statistics :=
  let groups := c.registry.styleGroups
  let definitions := c.registry.definitions
  let all := c.registry.allDefinitions
  { components := definitions.length
    inlineComponents := all.length - definitions.length
    elements := (all.map (·.elements.length)).foldl (· + ·) 0
    styleGroups := groups.length
    styles := (groups.map (·.2.styles.length)).foldl (· + ·) 0
    themes := c.registry.application.themes.length }

def generate (c : Compilation) (configuration : Configuration) : Resolve SourceBundle := do
  let path := c.applicationPath
  let theme ← (c.registry.application.themeDecl configuration).inFile path
  let common : SourceUnit :=
    { imports := Imports.ofList ["UIKit", "Hyperdrive"], decls := [sourceComment path, theme] }
  let groups := c.registry.styleGroups.map (·.2)
  let b ← c.generateStyles configuration groups { common }
  c.generateComponents configuration c.registry.definitions b

def generateIn (c : Compilation) (configuration : Configuration) : Work SourceBundle := do
  let (outcome, state) := (c.generate configuration).outcome {}
  Work.warn state.warnings
  outcome

end Compilation

def nothingFound (path : String) : String :=
  "No .ui.xml or .styles.xml files found in " ++ path

def compile (options : CompilerOptions) (destination : Destination) : Work Statistics := do
  let sources ← SourceFiles.discover (← get).files options.inputPath
  if sources.isEmpty then Work.warn [nothingFound options.inputPath]
  let c ← Compilation.ingest options sources
  let bundle ← c.generateIn options.configuration
  let report ← Output.write bundle destination
  return { c.statistics with
    filesWritten := report.written.length, filesSkipped := report.skipped.length }

end ViewForge
