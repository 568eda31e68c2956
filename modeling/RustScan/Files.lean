import RustScan.Bytes

/-!
# A tree of files

The files a command reads and writes, as a value.  A file is known by its path from the root, a
list of names; a command names it by a text such as `d/../a.rs`, which `Files.find?` follows from
the working directory name by name, as long as it meets directories.  Several texts may lead to one
file, so everything that names a file by a text goes through `Files.find?`.

Opening a file for writing (`Files.openAppend?`, `Files.openTruncate?`) creates it where there is
nothing but a directory to hold it.  A tree is built the same way, by `Files.addDirectory` and
`Files.addFile`.
-/

set_option autoImplicit false

namespace RustScan

/-- The names that lead from the root of the tree to a file or directory. -/
abbrev Path := List Bytes

/-- A tree of directories and files, and the directory that relative paths start from. -/
structure Files where
  /-- The working directory.  It exists, and so does every directory above it. -/
  workingDir : Path
  /-- The other directories. -/
  dirs : List Path := []
  /-- The files and their content. -/
  entries : List (Path × Bytes) := []

namespace Files

/-- What is found at the end of a path. -/
inductive Node where
  | directory (path : Path)
  | file (path : Path) (content : Bytes)
  /-- Nothing yet, in a directory that exists. -/
  | vacant (path : Path)

/-- Whether there is a directory at this path. -/
def isDirectory (fs : Files) (path : Path) : Bool :=
  path.isPrefixOf fs.workingDir || fs.dirs.contains path

/-- What there is at this path, in a directory that exists. -/
def nodeAt (fs : Files) (path : Path) : Node :=
  if fs.isDirectory path then .directory path
  else match fs.entries.lookup path with
    | some content => .file path content
    | none => .vacant path

/-- The length of the longest name that a file or directory can have. -/
def longestName : Nat := 255

/-- The length of the longest text that can be followed as a path. -/
def longestText : Nat := 4095

/-- Follows one name.  An empty name and `.` stay where they are, `..` goes up; all of them need
a directory to start from.  Nothing has a name longer than `longestName`. -/
def descend (fs : Files) (node : Node) (name : Bytes) : Option Node :=
  match node with
  | .directory path =>
    if name = [] ∨ name = ascii "." then some (.directory path)
    else if name = ascii ".." then some (.directory path.dropLast)
    else if name.length ≤ longestName then some (fs.nodeAt (path ++ [name]))
    else none
  | _ => none

/-- The directory that a textual path starts from and the names that it follows from there: it
starts from the root if it begins with a slash, from the working directory otherwise.  A zero byte
ends the text of a path.  An empty text leads nowhere, nor does one longer than `longestText`. -/
def route? (fs : Files) (text : Bytes) : Option (Path × List Bytes) :=
  match text.takeWhile (· ≠ 0) with
  | [] => none
  | c :: rest =>
    if rest.length < longestText then
      some (if c = '/'.toUInt8 then [] else fs.workingDir, Bytes.split '/'.toUInt8 (c :: rest))
    else none

/-- Follows a textual path to its end. -/
def find? (fs : Files) (text : Bytes) : Option Node := do
  let (origin, names) ← fs.route? text
  names.foldlM fs.descend (.directory origin)

/-- The content of the file at a path; nothing if there is no file. -/
def contentAt (fs : Files) (path : Path) : Bytes := (fs.entries.lookup path).getD []

/-- Replaces the entry of a path in a list of files, or adds it at the end. -/
def putEntry (path : Path) (content : Bytes) : List (Path × Bytes) → List (Path × Bytes)
  | [] => [(path, content)]
  | (p, old) :: rest =>
    if p = path then (path, content) :: rest else (p, old) :: putEntry path content rest

/-- Gives the file at a path a new content, creating it if it is not there. -/
def write (fs : Files) (path : Path) (content : Bytes) : Files :=
  { fs with entries := putEntry path content fs.entries }

/-- Adds to the end of the file at a path. -/
def append (fs : Files) (path : Path) (more : Bytes) : Files :=
  fs.write path (fs.contentAt path ++ more)

/-- Opens a file for writing at its end. -/
def openAppend? (fs : Files) (text : Bytes) : Option (Path × Files) :=
  match fs.find? text with
  | some (.file path _) => some (path, fs)
  | some (.vacant path) => some (path, fs.write path [])
  | _ => none

/-- Opens a file for writing from its start, with nothing in it. -/
def openTruncate? (fs : Files) (text : Bytes) : Option (Path × Files) :=
  match fs.find? text with
  | some (.file path _) | some (.vacant path) => some (path, fs.write path [])
  | _ => none

/-! ## Building and listing a tree -/

/-- Follows names from a directory, making the directories that are not there.  Where the way is
blocked, it ends. -/
def makeDirectories (fs : Files) (origin : Path) : List Bytes → Files
  | [] => fs
  | name :: names =>
    match fs.descend (.directory origin) name with
    | some (.directory path) => fs.makeDirectories path names
    | some (.vacant path) => { fs with dirs := fs.dirs ++ [path] }.makeDirectories path names
    | _ => fs

/-- Adds a directory, with the directories that lead to it. -/
def addDirectory (fs : Files) (text : Bytes) : Files :=
  match fs.route? text with
  | some (origin, names) => fs.makeDirectories origin names
  | none => fs

/-- Adds a file, or gives one a new content.  Where there can be no file, the tree stays as it
is. -/
def addFile (fs : Files) (text content : Bytes) : Files :=
  match fs.openTruncate? text with
  | some (path, fs) => fs.write path content
  | none => fs

/-- The files below the working directory, named by the path that leads there from it. -/
def listing (fs : Files) : List (Bytes × Bytes) :=
  fs.entries.filterMap fun (path, content) =>
    if fs.workingDir.isPrefixOf path then
      some ((ascii "/").intercalate (path.drop fs.workingDir.length), content)
    else none

end Files
end RustScan
