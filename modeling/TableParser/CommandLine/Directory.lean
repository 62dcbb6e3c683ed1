import TableParser.Text.Split

/-!
# Directories

What the program sees of the file system: files with their contents, and directories, by the places that they have.

* **Paths** (`Path.ofText`) are followed part by part from the working directory or from the root (`Directory.enter`):
  every part but the last one has to lead to a directory.
* **Reading** (`Directory.read`) and **writing** (`Directory.write`) fail the way the system does: nothing is read
  where nothing is, a directory is no file, and a file is no directory.
-/

namespace TableParser

/-- Why the system refuses an access. -/
inductive SystemError
  | noEntry
  | notDirectory
  | isDirectory
  | nameTooLong
  | other (cause : String)
deriving DecidableEq, Repr

namespace SystemError

/-- What is told about a refused access. -/
def message : SystemError → String
  | .noEntry => "No such file or directory (os error 2)"
  | .notDirectory => "Not a directory (os error 20)"
  | .isDirectory => "Is a directory (os error 21)"
  | .nameTooLong => "File name too long (os error 36)"
  | .other cause => cause

/-- Whether the access is refused already when the file is opened for reading. -/
def isAtOpening : SystemError → Bool
  | .isDirectory => false
  | _ => true

end SystemError

/-! ## Places -/

/-- A place in the file system: the root, or the directory so many levels above the working directory, and the names
that lead down from there. -/
structure Place where
  isRooted : Bool
  levels : Nat
  names : List String
deriving DecidableEq, Repr

namespace Place

/-- The working directory. -/
def here : Place := ⟨false, 0, []⟩

/-- The root. -/
def root : Place := ⟨true, 0, []⟩

/-- The place of that name in a directory. -/
def child (p : Place) (name : String) : Place := { p with names := p.names ++ [name] }

/-- The directory above; the root is above itself. -/
def parent (p : Place) : Place :=
  if !p.names.isEmpty then { p with names := p.names.dropLast }
  else if p.isRooted then p
  else { p with levels := p.levels + 1 }

/-- A shortest path to the place. -/
def render (p : Place) : String :=
  (if p.isRooted then "/" else String.join (List.replicate p.levels "../")) ++ "/".intercalate p.names

/-- Where a part of a path leads: a point stays, two points go up. -/
def follow (p : Place) (part : String) : Place :=
  if part == "." then p else if part == ".." then p.parent else p.child part

end Place

/-! ## Paths -/

/-- A path: where it starts, its parts, and whether a slash stands behind them. -/
structure Path where
  start : Place
  parts : List String
  endsInSlash : Bool
deriving DecidableEq, Repr

namespace Path

/-- The number of bytes that a name may have. -/
def nameLimit : Nat := 255

/-- The number of bytes that a path may have. -/
def pathLimit : Nat := 4095

/-- Read a path. A slash in front starts at the root; of several slashes in a row one counts. -/
def ofText (text : String) : Path :=
  let pieces := (Text.splitOn (· == '/') text.toList).map String.ofList
  ⟨if text.toList.head? = some '/' then .root else .here, pieces.filter (· != ""), text.toList.getLast? = some '/'⟩

/-- Whether a part is a direction instead of a name. -/
def isDirection (part : String) : Bool := part == "." || part == ".."

/-- The places on the way, the last one included. -/
def places (p : Path) : List Place :=
  (List.range p.parts.length).map fun n => (p.parts.take (n + 1)).foldl Place.follow p.start

end Path

/-! ## Entries -/

/-- What is found at a place. -/
inductive Entry
  | file (content : List UInt8)
  | directory
deriving DecidableEq, Repr

/-- The entries known, by their places. The working directory, those above it and the root are always there. -/
structure Directory where
  entries : List (Place × Entry)
deriving DecidableEq, Repr

namespace Directory

/-- A working directory with the given files, and with the directories on the way to them. -/
def ofFiles (files : List (String × List UInt8)) : Directory :=
  ⟨files.flatMap fun (name, content) =>
    match (Path.ofText name).places.reverse with
    | [] => []
    | place :: above => (place, .file content) :: above.map fun place => (place, .directory)⟩

/-- What is found at a place. -/
def entry? (d : Directory) (p : Place) : Option Entry :=
  if p.names.isEmpty then some .directory else d.entries.lookup p

/-- Follow a part of a path from a directory: where it leads, and what is there. -/
def follow (d : Directory) (p : Place) (part : String) : Except SystemError (Place × Option Entry) :=
  if Path.nameLimit < part.utf8ByteSize then .error .nameTooLong
  else .ok (p.follow part, d.entry? (p.follow part))

/-- Follow parts that have to lead from directory to directory. -/
def enter (d : Directory) (p : Place) : List String → Except SystemError Place
  | [] => .ok p
  | part :: rest => do
    match ← d.follow p part with
    | (_, none) => throw .noEntry
    | (_, some (.file _)) => throw .notDirectory
    | (next, some .directory) => enter d next rest

/-- The path of a text that is not too long. -/
def path (text : String) : Except SystemError Path :=
  if Path.pathLimit < text.utf8ByteSize then .error .nameTooLong else .ok (.ofText text)

/-- The content of a file. -/
def read (d : Directory) (text : String) : Except SystemError (List UInt8) := do
  let path ← path text
  match path.parts.getLast? with
  | none => throw (if text.isEmpty then .noEntry else .isDirectory)
  | some last =>
    match ← d.follow (← d.enter path.start path.parts.dropLast) last with
    | (_, none) => throw .noEntry
    | (_, some .directory) => throw .isDirectory
    | (_, some (.file content)) => if path.endsInSlash then throw .notDirectory else return content

/-- Write a file, in the place of the one that is there. A slash behind its name asks for a directory, whatever is
there. -/
def write (d : Directory) (text : String) (content : List UInt8) : Except SystemError Directory := do
  let path ← path text
  match path.parts.getLast? with
  | none => throw (if text.isEmpty then .noEntry else .isDirectory)
  | some last =>
    let holder ← d.enter path.start path.parts.dropLast
    if path.endsInSlash && !Path.isDirection last then throw .isDirectory
    match ← d.follow holder last with
    | (_, some .directory) => throw .isDirectory
    | (place, _) => return ⟨(place, .file content) :: d.entries.filter fun (key, _) => key != place⟩

end Directory
end TableParser
