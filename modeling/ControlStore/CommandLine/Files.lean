/-! # Files and paths

A path is followed name by name, from the root if it starts with a slash and from the working
directory otherwise.  Every name but the last has to lead to a directory.  The last one may be missing
if the file is written.  A slash at the end asks for a directory, which is neither read nor written.

The working directory lies in the directory for temporary files.  Of its surroundings only what every
system has is known: the root with its standard directories, and a few devices. -/

namespace ControlStore

/-- Why a file could not be read or written. -/
inductive FileError where
  | notFound
  | notDirectory
  | isDirectory
  | noSpace
  | nameTooLong
  | notText
deriving DecidableEq

/-- How a file error is reported. -/
def FileError.message : FileError → String
  | notFound => "No such file or directory (os error 2)"
  | notDirectory => "Not a directory (os error 20)"
  | isDirectory => "Is a directory (os error 21)"
  | noSpace => "No space left on device (os error 28)"
  | nameTooLong => "File name too long (os error 36)"
  | notText => "stream did not contain valid UTF-8"

/-! ### What there is -/

/-- A directory that a path can lead through. -/
inductive Folder where
  /-- The working directory. -/
  | working
  | root
  /-- A standard directory right below the root. -/
  | standard (name : String)
deriving DecidableEq

/-- A file that is no text on a disk. -/
inductive Device where
  /-- Reads empty and takes everything. -/
  | null
  /-- Takes nothing. -/
  | full
  | stdin
  | stdout
  | stderr
deriving DecidableEq

/-- A file by its directory and its name. -/
structure FileId where
  folder : Folder
  name : String
deriving DecidableEq

/-- What a path leads to. -/
inductive Place where
  | folder (folder : Folder)
  | file (id : FileId)
  | device (device : Device)
deriving DecidableEq

/-- The names of the standard directories right below the root. -/
def standardFolders : List String :=
  ["bin", "boot", "dev", "etc", "home", "lib", "media", "mnt", "opt", "proc", "root", "run", "sbin",
    "srv", "sys", "tmp", "usr", "var"]

/-- The directory above a directory; the root is its own. -/
def Folder.parent : Folder → Folder
  | working => standard "tmp"
  | root => root
  | standard _ => root

/-- The device with the given name. -/
def Device.ofName? : String → Option Device
  | "null" => some null
  | "full" => some full
  | "stdin" => some stdin
  | "stdout" => some stdout
  | "stderr" => some stderr
  | _ => none

/-- What every system has under a name in a directory. -/
def Folder.fixed? : Folder → String → Option Place
  | root, name => if standardFolders.contains name then some (.folder (standard name)) else none
  | standard "dev", name => (Device.ofName? name).map .device
  | _, _ => none

/-- What can be read and written: texts by their files, and the standard streams. -/
structure World where
  files : List (FileId × String)
  stdin : ByteArray
  stdout : String

namespace World

/-- The world with the given texts in the working directory. -/
def ofFiles (files : List (String × String)) (stdin : ByteArray) : World :=
  ⟨files.map fun (name, text) => (⟨.working, name⟩, text), stdin, ""⟩

/-- The texts in the working directory. -/
def workingFiles (w : World) : List (String × String) :=
  w.files.filterMap fun (id, text) => if id.folder = .working then some (id.name, text) else none

/-! ### Following paths -/

/-- The longest name, in bytes. -/
def nameLimit : Nat := 255

/-- Paths are shorter than this many bytes. -/
def pathLimit : Nat := 4096

/-- What a name stands for in a directory, if there is such a thing. -/
def find? (w : World) (folder : Folder) (name : String) : Except FileError (Option Place) :=
  if name = "." then .ok (some (.folder folder))
  else if name = ".." then .ok (some (.folder folder.parent))
  else if nameLimit < name.utf8ByteSize then .error .nameTooLong
  else
    match folder.fixed? name, w.files.lookup ⟨folder, name⟩ with
    | some place, _ => .ok (some place)
    | none, some _ => .ok (some (.file ⟨folder, name⟩))
    | none, none => .ok none

/-- The directory that a name stands for in a directory. -/
def enter (w : World) (folder : Folder) (name : String) : Except FileError Folder := do
  match ← w.find? folder name with
  | some (.folder next) => return next
  | some _ => throw .notDirectory
  | none => throw .notFound

/-- The end of a path: the directory it has reached, the last name, and whether a slash follows. -/
structure Ending where
  folder : Folder
  name : String
  slash : Bool

/-- Follows a path up to its last name; the root is its own last name. -/
def follow (w : World) (path : String) : Except FileError Ending := do
  if path.isEmpty then throw .notFound
  if pathLimit ≤ path.utf8ByteSize then throw .nameTooLong
  let start := if path.startsWith "/" then .root else .working
  let names := (path.splitOn "/").filter (· ≠ "")
  let folder ← names.dropLast.foldlM w.enter start
  return ⟨folder, names.getLastD ".", path.endsWith "/"⟩

/-! ### Reading and writing -/

/-- Bytes as a text. -/
def textOf (bytes : ByteArray) : Except FileError String :=
  match String.fromUTF8? bytes with
  | some text => .ok text
  | none => .error .notText

/-- The text of standard input. -/
def readStdin (w : World) : Except FileError String := textOf w.stdin

/-- The text of a file. -/
def read (w : World) (path : String) : Except FileError String := do
  let ending ← w.follow path
  match ← w.find? ending.folder ending.name with
  | none => throw .notFound
  | some (.folder _) => throw .isDirectory
  | some place =>
    if ending.slash then throw .notDirectory
    match place with
    | .file id => return (w.files.lookup id).getD ""
    | .device .stdin => w.readStdin
    | _ => return ""

/-- Appends to standard output. -/
def print (w : World) (text : String) : World := { w with stdout := w.stdout ++ text }

/-- Replaces the text of a file, which need not exist. -/
def write (w : World) (path text : String) : Except FileError World := do
  let ending ← w.follow path
  if ending.slash then throw .isDirectory
  let replace (id : FileId) : World := { w with files := (id, text) :: w.files.filter (·.1 ≠ id) }
  match ← w.find? ending.folder ending.name with
  | none => return replace ⟨ending.folder, ending.name⟩
  | some (.file id) => return replace id
  | some (.folder _) => throw .isDirectory
  | some (.device .full) => if text.isEmpty then return w else throw .noSpace
  | some (.device .stdout) => return w.print text
  | some (.device _) => return w

end World

end ControlStore
