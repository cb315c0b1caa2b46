import PseudoLang.Command.Host

/-!
A directory in memory, as a host for the command line. Paths are taken apart at slashes and looked
up from the directory itself. Paths may lead out of it, to folders that hold nothing but what is
put there.
-/

namespace PseudoLang.Command

/-- Folders and files by the names on the way to them. The directory itself and the folders above
it, whose ways are made of `..` alone, are not listed. -/
structure Directory where
  folders : List (List String)
  files : List (List String × ByteArray)

namespace Directory

def empty : Directory := ⟨[], []⟩

/-- Whether a place is the directory itself or above it. -/
def isAtTop (place : List String) : Bool := place.all (· == "..")

/-- The folder that holds a place. -/
def parent (place : List String) : List String :=
  if isAtTop place then ".." :: place else place.dropLast

def isFolder (directory : Directory) (place : List String) : Bool :=
  isAtTop place || directory.folders.contains place

def file? (directory : Directory) (place : List String) : Option ByteArray :=
  directory.files.lookup place

/-- Walks from a folder along the names of a path. All but the last have to be folders. -/
def walk (directory : Directory) : List String → List String → Except Fault (List String)
  | here, [] => .ok here
  | here, name :: rest =>
    if name = "" ∨ name = "." then walk directory here rest
    else if name = ".." then walk directory (parent here) rest
    else
      let there := here ++ [name]
      if rest.isEmpty || directory.isFolder there then walk directory there rest
      else if (directory.file? there).isSome then .error .notDirectory
      else .error .notFound

/-- Where a path leads. -/
def locate (directory : Directory) (path : String) : Except Fault (List String) :=
  if path = "" then .error .notFound else directory.walk [] (path.splitOn "/")

def read (directory : Directory) (path : String) : Except Fault ByteArray := do
  let place ← directory.locate path
  if directory.isFolder place then throw .isDirectory
  match directory.file? place with
  | some content => return content
  | none => throw .notFound

/-- Sets the content of a file. -/
def put (directory : Directory) (place : List String) (content : ByteArray) : Directory :=
  { directory with
    files := (place, content) :: directory.files.filter fun entry => entry.1 != place }

/-- Writes a file, in a folder that is there. A path that ends in a slash can only be that of a
folder. -/
def write (directory : Directory) (path content : String) : Except Fault Directory := do
  if path = "" then throw .notFound
  let names := path.splitOn "/"
  let place ← directory.walk [] (names.reverse.dropWhile (· == "")).reverse
  if names.getLast? = some "" ∨ directory.isFolder place then throw .isDirectory
  return directory.put place content.toUTF8

/-- The places below a folder that the names of a path enter, one after the other. -/
def places (here : List String) : List String → List (List String)
  | [] => []
  | name :: rest =>
    if name = "" ∨ name = "." then places here rest
    else if name = ".." then places (parent here) rest
    else (here ++ [name]) :: places (here ++ [name]) rest

/-- The directory with one more file, and every folder that its path enters, also those that it
leaves again. -/
def add (directory : Directory) (path : String) (content : ByteArray) : Directory :=
  match (places [] (path.splitOn "/")).reverse with
  | [] => directory
  | place :: folders =>
    { directory with folders := folders.reverse ++ directory.folders }.put place content

/-- The directory as a host. Time stands still. -/
def host : Host (StateM Directory) where
  read path := fun directory => (directory.read path, directory)
  write path content := fun directory =>
    match directory.write path content with
    | .ok directory => (.ok (), directory)
    | .error fault => (.error fault, directory)
  clock := return 0

end Directory

end PseudoLang.Command
