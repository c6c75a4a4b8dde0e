import ViewForge.CommandLine.Options
/-! A run of the program: what it says, how it ends and what it leaves behind. -/
namespace ViewForge

structure RunOutcome where
  exit : Nat
  stdout : String
  stderr : String
  deriving DecidableEq, Repr

def programVersion : String := "hyperc 0.1.0"

namespace Statistics

def render (s : Statistics) (milliseconds : Nat) : String :=
  let fields := [
    ("component_count", s.components), ("inline_component_count", s.inlineComponents),
    ("element_count", s.elements), ("style_group_count", s.styleGroups),
    ("style_count", s.styles), ("theme_count", s.themes), ("files_written", s.filesWritten),
    ("files_skipped", s.filesSkipped), ("compile_time_ms", milliseconds)]
  "\x7b\n" ++ Text.join ",\n" (fields.map fun f => "  \"" ++ f.1 ++ "\": " ++ toString f.2)
    ++ "\n\x7d"

end Statistics

namespace Run

def say (text : String) : Work Unit := Work.print (text ++ "\n")

def sayAll : List String → Work Unit
  | [] => pure ()
  | text :: rest => do
    say text
    sayAll rest

/-- The report on a generation; it would be in the way of source on the same stream. -/
def report (s : Statistics) (milliseconds : Nat) : List String :=
  ["✅ Generation successful!",
      "   Components: " ++ toString s.components,
      "   Style groups: " ++ toString s.styleGroups,
      "   Files written: " ++ toString s.filesWritten]
    ++ (if s.filesSkipped = 0 then [] else ["   Files unchanged: " ++ toString s.filesSkipped])
    ++ ["   Time: " ++ toString milliseconds ++ "ms"]

def generate (options : RunOptions) (showStatistics : Bool) (milliseconds : Nat) : Work String := do
  let input := options.compiler.inputPath
  let quiet := options.mode == .stdout
  if !quiet then
    say ("🔨 Generating " ++ options.compiler.configuration.platform.name ++ " code from " ++ input)
  let statistics ← compile options.compiler (options.mode.destination input)
  if !quiet then sayAll (report statistics milliseconds)
  return if showStatistics then statistics.render milliseconds ++ "\n" else ""

def summary (files : Nat) (s : Statistics) : List String := [
  "✅ " ++ toString files ++ " files - No issues found",
  "",
  "📊 Check Summary:",
  "   Components: " ++ toString s.components ++ " (" ++ toString s.inlineComponents ++ " inline)",
  "   Elements: " ++ toString s.elements,
  "   Styles: " ++ toString s.styles ++ " in " ++ toString s.styleGroups ++ " groups",
  "   Themes: " ++ toString s.themes]

def examine (options : CompilerOptions) (sources : SourceFiles) : Work Statistics := do
  let c ← Compilation.ingest options sources
  let _ ← c.generateIn options.configuration
  return c.statistics

def check (options : CompilerOptions) : Work String := do
  say ("🔍 Checking " ++ options.inputPath)
  let sources ← SourceFiles.discover (← get).files options.inputPath
  let files := sources.components.length + sources.styles.length
  let (outcome, workspace) := (examine options sources).outcome (← get)
  set workspace
  match outcome with
  | .ok statistics =>
    sayAll (summary files statistics)
    return ""
  | .error e =>
    say ("❌ " ++ e.message)
    throw e

def ofConfiguration : Except ConfigurationError α → Work α
  | .ok a => pure a
  | .error e => throw (.configuration e)

def loadSettings (path : Option String) : Work Settings := do
  match path with
  | some path => ofConfiguration (Settings.load (← get).files path)
  | none => return {}

/-- Does what is asked; `environment` names the SDK of the surrounding build, if there is one. -/
def perform (i : Invocation) (environment : Option String) (milliseconds : Nat) : Work String := do
  let settings ← loadSettings i.configPath
  match i.command with
  | none =>
    say "No subcommand specified. Use --help for usage information."
    return ""
  | some (name, given) =>
    let options ← ofConfiguration (RunOptions.resolve given settings environment)
    match name with
    | .generate => generate options (given.hasFlag "stats") milliseconds
    | .check => check options.compiler

def failure : Error → Nat × String
  | .configuration e => (2, "Configuration error: " ++ e.message ++ "\n")
  | e => (1, "Generation failed: " ++ e.message ++ "\n")

def logLine (message : String) : String :=
  "[WARN] " ++ Text.join "\n    " (Text.cut '\n' message) ++ "\n"

def run (i : Invocation) (environment : Option String) (milliseconds : Nat) (files : FileSystem) :
    RunOutcome × FileSystem :=
  let (outcome, workspace) := (perform i environment milliseconds).outcome { files }
  let log := Text.concat (workspace.warnings.map logLine)
  let (exit, last) := match outcome with
    | .ok text => (0, text)
    | .error e => failure e
  ({ exit, stdout := workspace.printed, stderr := log ++ last }, workspace.files)

end Run

end ViewForge
