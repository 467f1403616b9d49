/-!
# Files

What reading a file gives, and a system of files as a value. Names are paths: parts divided by slashes,
where one dot stands for the same directory and two for the one above. A path that starts with a slash
starts at the root directory, any other at the working directory.
-/

set_option autoImplicit false

namespace Lox.Command

/-- Why a file cannot be read. -/
inductive FileError where
  | missing
  | isDirectory
  /-- A part of the path but the last is a file. -/
  | notDirectory
  | nameTooLong
  /-- The bytes are no UTF-8. -/
  | notText
  | other (reason : String)
deriving DecidableEq, Repr

/-- The text of a reason. -/
def FileError.message : FileError → String
  | missing => "No such file or directory (os error 2)"
  | isDirectory => "Is a directory (os error 21)"
  | notDirectory => "Not a directory (os error 20)"
  | nameTooLong => "File name too long (os error 36)"
  | notText => "stream did not contain valid UTF-8"
  | other reason => reason

/-- What reading a file gives. -/
abbrev Contents := Except FileError ByteArray

/-- Whether there is a file, even one that cannot be read. -/
def Contents.isFile : Contents → Bool
  | .ok _ | .error (.other _) => true
  | .error _ => false

/-- The text of a file. -/
def Contents.text : Contents → Except FileError String
  | .error e => .error e
  | .ok bytes =>
    match String.fromUTF8? bytes with
    | some text => .ok text
    | none => .error .notText

/-- The files that a command can read. -/
structure Files where
  /-- The path of the working directory. -/
  directory : String
  read : String → Contents

/-- What is in and below a directory, by paths from there. -/
structure Tree where
  files : List (List String × ByteArray) := []
  /-- Directories that may hold no files. -/
  directories : List (List String) := []

namespace Tree

/-- The file at a path, the last part first. -/
def file? (t : Tree) (path : List String) : Option ByteArray := t.files.lookup path.reverse

/-- Whether there is a directory at a path, the last part first. What holds files is one. -/
def isDirectory (t : Tree) (path : List String) : Bool :=
  path.isEmpty || t.directories.contains path.reverse || t.files.any fun (name, _) =>
    path.length < name.length && name.take path.length = path.reverse

/-- What every system has: its top directories, the null device, and its standard input as a file. -/
def system (input : ByteArray) : Tree :=
  { files := [(["dev", "null"], .empty), (["dev", "stdin"], input)]
    directories :=
      ["bin", "dev", "etc", "home", "lib", "mnt", "opt", "proc", "root", "run", "sbin", "sys", "tmp",
       "usr", "var"].map ([·]) }

end Tree

/-- Where a path has led so far. A path is kept with its last part first. -/
inductive Place where
  /-- In or below the working directory. -/
  | working (path : List String)
  /-- In or below the root directory. -/
  | root (path : List String)
  /-- Above the working directory. -/
  | above
deriving DecidableEq, Repr

/-- The files of a working directory in a system. -/
structure FileSystem where
  working : Tree
  system : Tree

namespace FileSystem

/-- The most bytes of a part of a path. -/
def maxPart : Nat := 255

/-- The most bytes of a path. -/
def maxPath : Nat := 4095

/-- The path that one part leads to within a tree; none where it leads out of the tree. -/
def descend (t : Tree) (path : List String) (part : String) :
    Except FileError (Option (List String)) :=
  if !t.isDirectory path then
    .error (if (t.file? path).isSome then .notDirectory else .missing)
  else if part = "" || part = "." then .ok (some path)
  else if part = ".." then .ok (if path.isEmpty then none else some path.tail)
  else if maxPart < part.utf8ByteSize then .error .nameTooLong
  else .ok (some (part :: path))

/-- Follows one part of a path. The root directory is above itself; what the directories between it
and the working directory hold is not known. -/
def enter (fs : FileSystem) (place : Place) (part : String) : Except FileError Place :=
  match place with
  | .working path => do return (← descend fs.working path part).elim .above .working
  | .root path => do return .root ((← descend fs.system path part).getD [])
  | .above =>
    if part = "" || part = "." || part = ".." then .ok .above
    else .error (if maxPart < part.utf8ByteSize then .nameTooLong else .missing)

/-- The file at a path of a tree, the last part first. -/
def contents (t : Tree) (path : List String) : Contents :=
  match t.file? path with
  | some bytes => .ok bytes
  | none => .error (if t.isDirectory path then .isDirectory else .missing)

/-- Reads the file at a path. -/
def read (fs : FileSystem) (path : String) : Contents := do
  if maxPath < path.utf8ByteSize then throw .nameTooLong
  let start := if path.startsWith "/" then .root [] else .working []
  match ← (path.splitOn "/").foldlM fs.enter start with
  | .working path => contents fs.working path
  | .root path => contents fs.system path
  | .above => throw .isDirectory

/-- The files that a command finds in a working directory with a given path. -/
def files (fs : FileSystem) (directory : String) : Files := { directory, read := fs.read }

end FileSystem

end Lox.Command
