import ViewForge.Files.Path
/-! A file system as a value. What is known of it are the files and directories that were put in;
the directories above the working directory, and the root, are there in any case. -/
namespace ViewForge

inductive FileError where
  | notFound
  | alreadyExists
  | notDirectory
  | isDirectory
  | invalidText
  deriving DecidableEq, Repr

def FileError.message : FileError → String
  | notFound => "No such file or directory (os error 2)"
  | alreadyExists => "File exists (os error 17)"
  | notDirectory => "Not a directory (os error 20)"
  | isDirectory => "Is a directory (os error 21)"
  | invalidText => "stream did not contain valid UTF-8"

structure File where
  bytes : ByteArray
  modified : Nat

inductive FileNode where
  | file (file : File)
  | directory

/-- The names on the way from the working directory. A slash stands for the root, and two points
for the directory above. -/
abbrev Location := List String

namespace Location

def isTop (location : Location) : Bool := location == ["/"] || location.all (· == "..")

def up (location : Location) : Location :=
  if location = ["/"] then location
  else if location.isTop then location ++ [".."]
  else location.dropLast

def contains (outer inner : Location) : Bool :=
  match outer.isPrefixOf inner, inner.drop outer.length with
  | true, name :: _ => name != "/" && name != ".."
  | _, _ => false

end Location

structure FileSystem where
  nodes : List (Location × FileNode) := []
  /-- Advances with every change of a file. -/
  clock : Nat := 0

namespace FileSystem

def node? (fs : FileSystem) (location : Location) : Option FileNode :=
  if location.isTop then some .directory else fs.nodes.lookup location

def requireDirectory (fs : FileSystem) (location : Location) : Except FileError Unit :=
  match fs.node? location with
  | some .directory => .ok ()
  | some (.file _) => .error .notDirectory
  | none => .error .notFound

/-- Goes on from a directory. Only the last name may lead to nothing. -/
def follow (fs : FileSystem) : Location → List String → Except FileError Location
  | location, [] => .ok location
  | location, piece :: rest => do
    fs.requireDirectory location
    if Path.isVoid piece then fs.follow location rest
    else if piece = ".." then fs.follow location.up rest
    else fs.follow (location ++ [piece]) rest

def start : PathLead → Location
  | .root => ["/"]
  | .relative | .here => []

def locate (fs : FileSystem) (path : String) : Except FileError Location :=
  if path = "" then .error .notFound
  else fs.follow (start (Path.ofText path).lead) (Path.ofText path).pieces

def get (fs : FileSystem) (path : String) : Except FileError FileNode := do
  match fs.node? (← fs.locate path) with
  | some node => .ok node
  | none => .error .notFound

def readBytes (fs : FileSystem) (path : String) : Except FileError ByteArray := do
  match ← fs.get path with
  | .file file => .ok file.bytes
  | .directory => .error .isDirectory

def readText (fs : FileSystem) (path : String) : Except FileError String := do
  match String.fromUTF8? (← fs.readBytes path) with
  | some text => .ok text
  | none => .error .invalidText

def modified? (fs : FileSystem) (path : String) : Option Nat :=
  match fs.get path with
  | .ok (.file file) => some file.modified
  | _ => none

def put (fs : FileSystem) (location : Location) (node : FileNode) : FileSystem :=
  { fs with nodes := (location, node) :: fs.nodes.filter (·.1 != location) }

def write (fs : FileSystem) (path : String) (bytes : ByteArray) : Except FileError FileSystem := do
  let location ← fs.locate path
  match fs.node? location with
  | some .directory => .error .isDirectory
  | _ =>
    let next := fs.put location (.file ⟨bytes, fs.clock⟩)
    .ok { next with clock := fs.clock + 1 }

def touch (fs : FileSystem) (path : String) (time : Nat) : FileSystem :=
  match fs.locate path with
  | .error _ => fs
  | .ok location =>
    match fs.node? location with
    | some (.file file) => fs.put location (.file { file with modified := time })
    | _ => fs

def createFrom : FileSystem → Location → List String → Except FileError FileSystem
  | fs, _, [] => .ok fs
  | fs, location, piece :: rest =>
    if Path.isVoid piece then createFrom fs location rest
    else if piece = ".." then createFrom fs location.up rest
    else
      let next := location ++ [piece]
      match fs.node? next with
      | some .directory => createFrom fs next rest
      | some (.file _) => .error .alreadyExists
      | none => createFrom (fs.put next .directory) next rest

def createDirectories (fs : FileSystem) (path : String) : Except FileError FileSystem :=
  createFrom fs (start (Path.ofText path).lead) (Path.ofText path).pieces

def writeWithParents (fs : FileSystem) (path : String) (bytes : ByteArray) :
    Except FileError FileSystem := do
  let parent := ((Path.ofText path).parent?.map (·.text)).getD ""
  (← fs.createDirectories parent).write path bytes

def remove (fs : FileSystem) (path : String) : FileSystem :=
  match fs.locate path with
  | .error _ => fs
  | .ok location =>
    { fs with nodes := fs.nodes.filter fun n => n.1 != location && !location.contains n.1 }

def locationLe : Location → Location → Bool
  | [], _ => true
  | _ :: _, [] => false
  | a :: as, b :: bs => if a = b then locationLe as bs else decide (a < b)

def walk (fs : FileSystem) (path : String) : Except FileError (List (String × FileNode)) := do
  let location ← fs.locate path
  let node ← fs.get path
  let inside := fs.nodes.filter fun n => location.contains n.1
  let sorted := inside.mergeSort fun a b => locationLe a.1 b.1
  .ok ((path, node) :: sorted.map fun n =>
    ((n.1.drop location.length).foldl Path.append path, n.2))

end FileSystem

end ViewForge
