import ViewForge.CommandLine.Run
/-! The program: loads the files that a run can touch, runs, and stores what has changed. -/
namespace ViewForge.Program

partial def load (files : FileSystem) (path : String) : IO FileSystem := do
  match files.locate path with
  | .error _ => return files
  | .ok location =>
    try
      let real ← IO.FS.realPath path
      let metadata ← real.metadata
      if metadata.type == .dir then
        let mut files := files.put location .directory
        for entry in ← real.readDir do
          files ← load files (Path.append path entry.fileName)
        return files
      else
        let bytes ← IO.FS.readBinFile path
        let modified := metadata.modified.sec.toNat * 1000000000 + metadata.modified.nsec.toNat
        return files.put location (.file ⟨bytes, modified⟩)
    catch _ => return files

def parents (path : String) : List String :=
  let names := (Path.ofText path).pieces
  (List.range names.length).map fun n =>
    (Path.mk (Path.ofText path).lead (names.take (n + 1))).text

def loadWithParents (files : FileSystem) (path : String) : IO FileSystem := do
  let mut files := files
  for parent in (parents path).dropLast do
    if let .ok location := files.locate parent then
      try
        if (← (← IO.FS.realPath parent).metadata).type == .dir then
          files := files.put location .directory
      catch _ => pure ()
  load files path

def pathsOf (options : RunOptions) : List String :=
  [options.compiler.inputPath, options.compiler.applicationPath] ++ match options.mode with
    | .stdout => []
    | .file path => [path]
    | .directory path _ => [path]

def locationText : Location → String
  | "/" :: names => "/" ++ Text.join "/" names
  | names => Text.join "/" names

def store (since : Nat) (files : FileSystem) : IO Unit := do
  for (location, node) in files.nodes.reverse do
    match node with
    | .directory => IO.FS.createDirAll (locationText location)
    | .file file =>
      if since ≤ file.modified then
        IO.FS.createDirAll (locationText location.dropLast)
        IO.FS.writeBinFile (locationText location) file.bytes

def loadAll (paths : List String) : IO FileSystem := do
  let mut files : FileSystem := {}
  for path in paths do
    files ← loadWithParents files path
  let latest := files.nodes.foldl (fun time n => match n.2 with
    | .file file => max time file.modified
    | .directory => time) 0
  return { files with clock := latest + 1 }

def usage : String :=
  "Usage: hyperc [-c FILE] [-v] <generate|check> -i DIR -a FILE [-p PLATFORM]\n"
    ++ "         [--min-version VERSION] [--access MODIFIER] [--live-reload]\n"
    ++ "       generate also takes [-o FILE | -d DIR | --stdout] [--skip-unchanged] [--stats]\n"

def interest (i : Invocation) (environment : Option String) : IO (List String) := do
  let config := i.configPath.toList
  let files ← loadAll config
  let settings := match i.configPath with
    | some path => (Settings.load files path).toOption.getD {}
    | none => {}
  match i.command with
  | none => return config
  | some (_, given) =>
    match RunOptions.resolve given settings environment with
    | .ok options => return config ++ pathsOf options
    | .error _ => return config

def start (i : Invocation) : IO UInt32 := do
  let begun ← IO.monoMsNow
  let environment ← IO.getEnv "PLATFORM_NAME"
  let files ← loadAll (← interest i environment)
  let (outcome, after) := Run.run i environment ((← IO.monoMsNow) - begun) files
  store files.clock after
  (← IO.getStdout).putStr outcome.stdout
  (← IO.getStderr).putStr outcome.stderr
  return outcome.exit.toUInt32

end ViewForge.Program

open ViewForge in
def main (arguments : List String) : IO UInt32 := do
  match Invocation.parse arguments with
  | .ok invocation => Program.start invocation
  | .error .version =>
    IO.println programVersion
    return 0
  | .error .help =>
    IO.print Program.usage
    return 0
  | .error .usage =>
    IO.eprint ("error: unexpected arguments\n\n" ++ Program.usage)
    return 2
