import Stepwise.Loading
import Stepwise.Text.Parts

/-!
# Folders in memory

A folder holds files by their paths, and there is a folder at each path that leads on to a file.
Paths are relative; of what is outside nothing is known but that it is a folder.
-/

namespace Stepwise

structure Folder where
  files : List (List String × ByteArray)

namespace Folder

def empty : Folder := ⟨[]⟩

/-- The names in a path, where a dot is the folder itself and two dots lead out of it. -/
def names (path : String) : List String :=
  ((Text.parts '/' path.toList).map String.ofList).filter (· ≠ "")

def ofList (files : List (String × ByteArray)) : Folder :=
  ⟨files.map fun (path, content) => ((names path).filter (· ≠ "."), content)⟩

def file? (path : List String) (f : Folder) : Option ByteArray :=
  (f.files.find? (·.1 = path)).map (·.2)

def hasFolder (path : List String) (f : Folder) : Bool :=
  f.files.any fun (file, _) => path.length < file.length && path.isPrefixOf file

/-- What a path leads to: a folder, or what has its last name in a folder. -/
inductive Place where
  | folder
  | named (path : List String)

/-- A name has at most 255 bytes. -/
def isTooLong (path : List String) : Bool := path.getLast?.any fun name => 255 < name.utf8ByteSize

/-- Follows the names of a path from a folder. -/
def follow (f : Folder) (here : List String) : List String → Except FileError Place
  | [] => .ok .folder
  | name :: rest =>
    if name = "." then f.follow here rest
    else if name = ".." then
      if here ≠ [] then f.follow here.dropLast rest
      else if rest.all fun name => name = "." ∨ name = ".." then .ok .folder
      else .error .notFound
    else
      let path := here ++ [name]
      if rest.isEmpty then .ok (.named path)
      else if isTooLong path then .error .nameTooLong
      else if (f.file? path).isSome then .error .notDirectory
      else if f.hasFolder path then f.follow path rest
      else .error .notFound

/-- A path has at most 4095 bytes and no zero among them. Slashes alone are a folder outside. -/
def place (path : String) (f : Folder) : Except FileError Place :=
  if path.toList.contains '\x00' then .error .zeroInPath
  else if 4095 < path.utf8ByteSize then .error .nameTooLong
  else if path.isEmpty || path.toList.head? = some '/' && names path ≠ [] then .error .notFound
  else f.follow [] (names path)

/-- A slash after a name asks for a folder. -/
def endsWithSlash (path : String) : Bool := path.toList.getLast? = some '/'

def read (path : String) (f : Folder) : Except FileError ByteArray := do
  match ← f.place path with
  | .folder => .error .isDirectory
  | .named place =>
    if isTooLong place then .error .nameTooLong
    else
      match f.file? place with
      | some content => if endsWithSlash path then .error .notDirectory else .ok content
      | none => if f.hasFolder place then .error .isDirectory else .error .notFound

/-- A file that exists is replaced. -/
def write (path : String) (content : ByteArray) (f : Folder) : Except FileError Folder := do
  match ← f.place path with
  | .folder => .error .isDirectory
  | .named place =>
    if endsWithSlash path then .error .isDirectory
    else if isTooLong place then .error .nameTooLong
    else if f.hasFolder place then .error .isDirectory
    else .ok ⟨(place, content) :: f.files.filter (·.1 ≠ place)⟩

end Folder

end Stepwise
