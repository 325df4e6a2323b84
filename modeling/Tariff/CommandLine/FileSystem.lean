import Tariff.Pricing.Failure

/-!
# Files in memory

A `FileSystem` is a tree of files with a working directory. A path is walked name by name
(`FileSystem.walk`): every name is looked up in a directory, a single dot and an empty name stay
there, two dots go up. So a path that leads through a file fails even where it goes back up at once,
and `FileSystem.read` answers as the system does that commands run on.
-/

namespace Tariff

/-- A place in the tree of files, by the names on the way from the root. -/
abbrev Place := List String

/-- Files and directories, and the directory from which relative paths start. -/
structure FileSystem where
  files : List (Place × ByteArray)
  /-- The directories that may be empty. The ones on the way to a file need not be listed. -/
  directories : List Place
  working : Place

namespace FileSystem

def nameLimit : Nat := 255

def pathLimit : Nat := 4095

/-- The directories under the root of every system. -/
def rootDirectories : List String :=
  ["bin", "boot", "dev", "etc", "home", "lib", "media", "mnt", "opt", "proc", "root", "run", "sbin",
    "srv", "sys", "tmp", "usr", "var"]

/-- The place of the empty file that every system has. -/
def nullDevice : Place := ["dev", "null"]

def names (path : String) : Place :=
  (path.splitOn "/").filter fun name => name ≠ "" && name ≠ "."

/-- A system whose working directory holds some files by their paths, and which has nothing else but
what every system has. -/
def ofWorkingFiles (files : List (String × ByteArray)) : FileSystem :=
  let working : Place := ["tmp", "work"]
  { files := (nullDevice, .empty) :: files.map fun (path, bytes) => (working ++ names path, bytes)
    directories := rootDirectories.map ([·])
    working }

def bytes? (s : FileSystem) (place : Place) : Option ByteArray :=
  (s.files.find? (·.1 = place)).map (·.2)

def isDirectory (s : FileSystem) (place : Place) : Bool :=
  place = [] || place.isPrefixOf s.working || s.directories.any place.isPrefixOf ||
    s.files.any fun file => file.1 ≠ place && place.isPrefixOf file.1

def step (s : FileSystem) (place : Place) (name : String) : Except FileError Place :=
  if !s.isDirectory place then .error .notDirectory
  else if name = "" || name = "." then .ok place
  else if name = ".." then .ok place.dropLast
  else if nameLimit < name.utf8ByteSize then .error .nameTooLong
  else
    let next := place ++ [name]
    if s.isDirectory next || (s.bytes? next).isSome then .ok next else .error .notFound

def walk (s : FileSystem) (place : Place) (names : List String) : Except FileError Place :=
  names.foldlM s.step place

def origin (s : FileSystem) (path : String) : Place :=
  if path.toList.head? = some '/' then [] else s.working

def resolve (s : FileSystem) (path : String) : Except FileError Place :=
  if path = "" then .error .notFound
  else if pathLimit < path.utf8ByteSize then .error .nameTooLong
  else s.walk (s.origin path) (path.splitOn "/")

def read (s : FileSystem) (path : String) : Except FileError String := do
  match s.bytes? (← s.resolve path) with
  | some bytes => FileError.decode bytes
  | none => .error .isDirectory

end FileSystem

end Tariff
