import ViewForge.CommandLine.Arguments
import ViewForge.Project.Compile
import ViewForge.Settings.Json
import ViewForge.Settings.Toml.Document
/-! The options of a run: what the command line says, or else the settings file, or else the
environment. -/
namespace ViewForge
open Code (Access)

def Settings.parse (path source : String) : Except ConfigurationError Settings :=
  let orFail (kind : String) (result : Option Settings) : Except ConfigurationError Settings :=
    match result with
    | some settings => .ok settings
    | none => .error (.invalidFile s!"Invalid {kind} config: {path} is no document of settings")
  if Text.endsWith ".json" path then orFail "JSON" (Settings.Json.parse source)
  else if Text.endsWith ".toml" path then orFail "TOML" (Settings.Toml.parse source)
  else .error (.invalidFile "Config file must be .json or .toml format")

def Settings.load (files : FileSystem) (path : String) : Except ConfigurationError Settings :=
  match files.readText path with
  | .ok source => Settings.parse path source
  | .error e => .error (.invalidFile (path ++ ": " ++ e.message))

inductive OutputMode where
  | stdout
  | file (path : String)
  | directory (path : String) (skipUnchanged : Bool)
  deriving DecidableEq, Repr

def OutputMode.destination (inputPath : String) : OutputMode → Destination
  | stdout => .stream
  | file path => .file path
  | directory path skipUnchanged => .directory path (some inputPath) skipUnchanged

structure RunOptions where
  compiler : CompilerOptions
  mode : OutputMode
  deriving DecidableEq, Repr

namespace RunOptions

def selectedModes (g : Given) : List String :=
  ((g.value? "output-file").map ("--output-file " ++ ·)).toList
    ++ ((g.value? "output-dir").map ("--output-dir " ++ ·)).toList
    ++ if g.hasFlag "stdout" then ["--stdout"] else []

def settingsMode (s : Settings) (skipUnchanged : Bool) : Except ConfigurationError OutputMode :=
  match s.outputFile, s.outputDirectory with
  | some _, some _ =>
    .error (.conflictingModes "output-file and output-directory in the config file")
  | some file, none => .ok (.file file)
  | none, some directory => .ok (.directory directory skipUnchanged)
  | none, none => .ok .stdout

def outputMode (g : Given) (s : Settings) : Except ConfigurationError OutputMode :=
  let skipUnchanged := g.hasFlag "skip-unchanged" || s.skipUnchanged.getD false
  if 1 < (selectedModes g).length then
    .error (.conflictingModes (Text.join ", " (selectedModes g)))
  else match g.value? "output-file", g.value? "output-dir" with
    | some file, _ => .ok (.file file)
    | none, some directory => .ok (.directory directory skipUnchanged)
    | none, none => if g.hasFlag "stdout" then .ok .stdout else settingsMode s skipUnchanged

/-- Without a name the platform is that of the environment's SDK. -/
def platform (name environment : Option String) : Except ConfigurationError Platform :=
  match name, environment with
  | some name, _ => Platform.parse name
  | none, none => .error .missingPlatform
  | none, some sdk =>
    match Platform.ofSdk? sdk with
    | some platform => .ok platform
    | none => .error (.invalidPlatform sdk)

def require (value : Option α) (cause : ConfigurationError) : Except ConfigurationError α :=
  match value with
  | some a => .ok a
  | none => .error cause

def readOr (parse : String → Except ConfigurationError α) (default : α) :
    Option String → Except ConfigurationError α
  | some text => parse text
  | none => .ok default

def resolve (g : Given) (s : Settings) (environment : Option String) :
    Except ConfigurationError RunOptions := do
  let inputPath ← require ((g.value? "input").or s.inputPath) .missingInput
  let applicationPath ←
    require ((g.value? "app").or s.applicationDescription) .missingApplication
  let platform ← platform ((g.value? "platform").or s.platform) environment
  let minimumVersion ← readOr Version.parse .least ((g.value? "min-version").or s.minimumVersion)
  let access ← readOr Access.parse .moduleScope ((g.value? "access").or s.accessModifier)
  let liveReload := g.hasFlag "live-reload" || s.liveReload.getD false
  let mode ← outputMode g s
  return {
    compiler := {
      inputPath, applicationPath
      configuration := { platform, minimumVersion, liveReload, access } }
    mode }

end RunOptions

end ViewForge
