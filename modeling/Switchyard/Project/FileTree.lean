import Switchyard.SortedMap
import Switchyard.Text

/-!
# File trees

The files and directories of a machine. A path is a text that starts at the top, with or without a
slash in front; it is followed part by part, and every part but the last has to lead to a directory.

* `FileTree.find?`: what stands at a path.
* `FileTree.write`, `FileTree.remove`: files come with the directories above them, which stay when
  the files go.
* `join`, `samePath`: paths as texts, whatever they lead to.
-/

namespace Switchyard

/-- The contents of files, and the directories, by the names that lead to them from the top. -/
structure FileTree where
  files : List (List String × ByteArray)
  directories : List (List String)

namespace FileTree

/-- What can stand at a path. -/
inductive Entry where
  | file (content : ByteArray)
  | directory (names : List String)

/-- A machine without files of its own: the directories that are always there, and the empty file. -/
def bare : FileTree :=
  ⟨[(["dev", "null"], .empty)],
    (["bin", "boot", "dev", "etc", "home", "lib", "media", "mnt", "opt", "proc", "root", "run", "sbin",
      "srv", "sys", "tmp", "usr", "var"] : List String).map ([·])⟩

def isDirectory (t : FileTree) (place : List String) : Bool :=
  place.isEmpty || t.directories.contains place

/-- The names in a directory, in order. -/
def namesIn (t : FileTree) (place : List String) : List String :=
  (SortedMap.ofList ((t.files.map Prod.fst ++ t.directories).filterMap fun p =>
    if place.isPrefixOf p then (p[place.length]?).map fun name => (name, ()) else none)).keys

def at? (t : FileTree) (place : List String) : Option Entry :=
  match t.files.lookup place with
  | some content => some (.file content)
  | none => if t.isDirectory place then some (.directory (t.namesIn place)) else none

/-- The parts of a path between slashes. -/
def parts (path : String) : List String := (Text.splitOn '/' path.toList).map String.ofList

/-- Where one part of a path leads: an empty one and a point nowhere else, two points up, but not
beyond the top. -/
def step (here : List String) (part : String) : List String :=
  if part = "" ∨ part = "." then here
  else if part = ".." then here.dropLast
  else here ++ [part]

/-- Follows the parts of a path. -/
def follow? (t : FileTree) (here : List String) : List String → Option (List String)
  | [] => some here
  | part :: rest => if t.isDirectory here then follow? t (step here part) rest else none

/-- What stands at a path. -/
def find? (t : FileTree) (path : String) : Option Entry := (t.follow? [] (parts path)).bind t.at?

def isAbsolute (path : String) : Bool := path.toList.head? == some '/'

/-- A path below another one; an absolute one stays as it is. -/
def join (front back : String) : String :=
  if isAbsolute back || front.isEmpty then back
  else if front.toList.getLast? == some '/' then front ++ back
  else front ++ "/" ++ back

/-- The names in a path: neither empty nor a single point. -/
def pathNames (path : String) : List String := (parts path).filter fun s => s != "" && s != "."

/-- Whether two texts are one path: empty names do not count, nor do single points after the start. -/
def samePath (a b : String) : Bool :=
  isAbsolute a == isAbsolute b && ((parts a).head? == some ".") == ((parts b).head? == some ".") &&
    pathNames a == pathNames b

def addDirectory (t : FileTree) (place : List String) : FileTree :=
  if t.isDirectory place then t else { t with directories := place :: t.directories }

/-- Adds the directories that the parts of a path lead to, and says where they end. -/
def makeWay (t : FileTree) (here : List String) : List String → FileTree × List String
  | [] => (t.addDirectory here, here)
  | part :: rest => makeWay (t.addDirectory here) (step here part) rest

/-- Adds a directory and those above it. -/
def makeDirectory (t : FileTree) (path : String) : FileTree := (t.makeWay [] (parts path)).1

/-- Writes a file, replacing the one at its path. -/
def write (t : FileTree) (path : String) (content : ByteArray) : FileTree :=
  let (t, here) := t.makeWay [] (parts path).dropLast
  let place := step here ((parts path).getLast?.getD "")
  { t with files := (place, content) :: t.files.filter fun f => f.1 != place }

def remove (t : FileTree) (path : String) : FileTree :=
  match t.follow? [] (parts path) with
  | some place => { t with files := t.files.filter fun f => f.1 != place }
  | none => t

end FileTree
end Switchyard
