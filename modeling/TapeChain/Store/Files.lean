import TapeChain.Store.Path
import TapeChain.Text.Quoted
import TapeChain.Text.Utf8

/-! A file tree and the faults of reading and writing in it. A path is followed name by name from
the working folder, or from the root if it starts with a slash. -/
namespace TapeChain

inductive FileFault where
  | missing (path : String)
  | notFolder (path : String)
  | isFolder (path : String)
  | nameTooLong (path : String)
  | embeddedNul
  /-- Any other error of a real file system, by its number. -/
  | system (number : Nat) (reason path : String)
  deriving DecidableEq

def FileFault.message : FileFault → String
  | .missing path => "[Errno 2] No such file or directory: " ++ Text.quote path
  | .notFolder path => "[Errno 20] Not a directory: " ++ Text.quote path
  | .isFolder path => "[Errno 21] Is a directory: " ++ Text.quote path
  | .nameTooLong path => "[Errno 36] File name too long: " ++ Text.quote path
  | .embeddedNul => "embedded null byte"
  | .system number reason path => s!"[Errno {number}] {reason}: " ++ Text.quote path

inductive FileNode where
  | folder
  | file (bytes : Bytes)
  deriving DecidableEq

/-- A place in the tree: the names from the root on. -/
abbrev Place := List String

structure Files where
  working : Place
  entries : List (Place × FileNode)

namespace Files

/-- What is at a place. The root is always a folder. -/
def node? (fs : Files) (place : Place) : Option FileNode :=
  if place = [] then some .folder else fs.entries.lookup place

def put (fs : Files) (place : Place) (node : FileNode) : Files :=
  { fs with entries := (place, node) :: fs.entries.filter fun e => e.1 ≠ place }

/-- Makes every folder on the way to a place that is not there yet. -/
def withFolders (fs : Files) (place : Place) : Files :=
  (List.range place.length).foldl
    (fun fs n =>
      let folder := place.take (n + 1)
      if (fs.node? folder).isSome then fs else fs.put folder .folder) fs

/-- An empty working folder. -/
def empty (working : Place) : Files := (Files.mk working []).withFolders working

/-- Adds a file or folder below the working folder, with the folders on the way. -/
def add (fs : Files) (path : String) (node : FileNode) : Files :=
  let place := fs.working ++ Path.names path
  (fs.withFolders place.dropLast).put place node

/-- The longest name, in bytes. -/
def longestName : Nat := 255

/-- The longest path, in bytes. -/
def longestPath : Nat := 4095

/-- One name further on the way of `path`. -/
def follow (fs : Files) (path : String) (place : Place) (name : String) :
    Except FileFault Place :=
  match fs.node? place with
  | none => .error (.missing path)
  | some (.file _) => .error (.notFolder path)
  | some .folder =>
    if name = "." then .ok place
    else if name = ".." then .ok place.dropLast
    else if longestName < name.utf8ByteSize then .error (.nameTooLong path)
    else .ok (place ++ [name])

/-- Where a path starts. -/
def origin (fs : Files) (path : String) : Place :=
  if Path.isAbsolute path then [] else fs.working

/-- Refuses what can be no path at all. -/
def checkPath (path : String) : Except FileFault Unit :=
  if path.toList.contains '\x00' then .error .embeddedNul
  else if path = "" then .error (.missing path)
  else if longestPath < path.utf8ByteSize then .error (.nameTooLong path)
  else .ok ()

/-- The bytes of the file at a path. -/
def read (fs : Files) (path : String) : Except FileFault Bytes := do
  checkPath path
  let place ← (Path.names path).foldlM (fs.follow path) (fs.origin path)
  match fs.node? place with
  | none => .error (.missing path)
  | some .folder => .error (.isFolder path)
  | some (.file bytes) => if Path.endsInSlash path then .error (.notFolder path) else .ok bytes

/-- The place where a file can be written. -/
def target (fs : Files) (path : String) : Except FileFault Place := do
  checkPath path
  let names := Path.names path
  match names.getLast? with
  | none => .error (.isFolder path)
  | some last =>
    let parent ← names.dropLast.foldlM (fs.follow path) (fs.origin path)
    -- a slash at the end asks for a folder
    let place ← fs.follow path parent (if Path.endsInSlash path then "." else last)
    if Path.endsInSlash path ∨ fs.node? place = some .folder then .error (.isFolder path)
    else .ok place

/-- Writes a file, in place of one that may be there. -/
def write (fs : Files) (path : String) (bytes : Bytes) : Except FileFault Files :=
  (fs.target path).map fun place => fs.put place (.file bytes)

/-- The files below the working folder, by their names from there on. -/
def listing (fs : Files) : List (String × Bytes) :=
  fs.entries.filterMap fun e =>
    match e.2 with
    | .folder => none
    | .file bytes =>
      if fs.working.isPrefixOf e.1 then
        some ("/".intercalate (e.1.drop fs.working.length), bytes)
      else none

end Files

end TapeChain
