/-
  What the command line needs of the system it runs on, and a system in memory.

  Paths are read name by name. The names `.` and `..` stand for a directory that is
  there already, so that nothing can be made at them.
-/
import Mispredict.Cli.Path
import Mispredict.Error

namespace Mispredict.Cli

/-- Files and a console. -/
class Host (m : Type → Type) where
  readFile : String → m (Except FileFault String)
  /-- The names of the plain files of a directory. -/
  listFiles : String → m (Except FileFault (List String))
  isDir : String → m Bool
  /-- Makes a directory in one that is there. -/
  makeDir : String → m (Except FileFault Unit)
  writeFile : (path text : String) → m (Except FileFault Unit)
  /-- Prints a line. -/
  print : String → m Unit

/-! ## Making directories -/

section

variable {m : Type → Type} [Monad m] [Host m]

/-- Makes a directory, or finds that it is there. -/
def ensureDir (path : String) : m (Except FileFault Unit) := do
  match ← Host.makeDir path with
  | .ok () => return .ok ()
  | .error e => return if ← Host.isDir path then .ok () else .error e

/-- Makes a directory. If there is no place for it, the directory above is made first. -/
def makeDirs (path : String) : m (Except FileFault Unit) := do
  if _h : path = "" then return .ok ()
  else
    match ← ensureDir path with
    | .error .notFound =>
      match ← makeDirs (Path.parent path) with
      | .ok () => ensureDir path
      | .error e => return .error e
    | r => return r
termination_by path.toList.length
decreasing_by exact Path.length_parent_lt _h

end

/-! ## Files in memory -/

/-- A file with its text, or a directory. -/
inductive FileEntry where
  | file (text : String)
  | directory
  deriving DecidableEq, Repr

/-- Files by the names on the way to them. -/
abbrev FileTree := List (List String × FileEntry)

namespace FileTree

/-- The directory in which the program runs. It stands in one that holds nothing else at first. -/
def home : List String := ["home"]

/-- What is at a place. -/
def entry? (t : FileTree) (place : List String) : Option FileEntry :=
  if place = [] ∨ place = home then some .directory else (t.find? (·.1 == place)).map (·.2)

/-- Puts an entry at a place, instead of what was there. -/
def put (t : FileTree) (place : List String) (e : FileEntry) : FileTree :=
  t.filter (·.1 != place) ++ [(place, e)]

/-- The names on a path. -/
def names (path : String) : List String :=
  ((path.toList.splitOn '/').filter (!·.isEmpty)).map String.ofList

/-- The most bytes that a name may have. -/
def nameLimit : Nat := 255

/-- The most bytes that a path may have. -/
def pathLimit : Nat := 4095

/-- Where names lead from a directory. All but the last must be those of directories. -/
def walk (t : FileTree) (place : List String) : List String → Except FileFault (List String)
  | [] => .ok place
  | "." :: rest => t.walk place rest
  | ".." :: rest => t.walk place.dropLast rest
  | name :: rest =>
    if nameLimit < name.utf8ByteSize then .error .nameTooLong
    else
      let place := place ++ [name]
      match t.entry? place, rest with
      | some .directory, _ => t.walk place rest
      | some (.file _), [] => .ok place
      | some (.file _), _ :: _ => .error .notADirectory
      | none, [] => .ok place
      | none, _ :: _ => .error .notFound

/-- Where a path leads. Only paths from the directory in which the program runs lead anywhere. -/
def place (t : FileTree) (path : String) : Except FileFault (List String) :=
  if pathLimit < path.utf8ByteSize then .error .nameTooLong
  else if path.toList.head? == some '/' then .error .notFound
  else t.walk home (names path)

/-- Where a path leads, and what is there. A path that ends in a slash leads to no plain file. -/
def locate (t : FileTree) (path : String) :
    Except FileFault (List String × Option FileEntry) := do
  let place ← t.place path
  match t.entry? place with
  | some (.file text) =>
    if path.toList.getLast? == some '/' then .error .notADirectory
    else return (place, some (.file text))
  | e => return (place, e)

/-- The text of the file to which a path leads. -/
def readFile (t : FileTree) (path : String) : Except FileFault String := do
  match ← t.locate path with
  | (_, some (.file text)) => return text
  | (_, some .directory) => .error .isADirectory
  | (_, none) => .error .notFound

/-- The files right inside of a directory, with their texts. -/
def listFiles (t : FileTree) (path : String) : Except FileFault (List (String × String)) := do
  match ← t.locate path with
  | (place, some .directory) =>
    return t.filterMap fun (p, e) =>
      match e, p.getLast? with
      | .file text, some name => if p.dropLast == place then some (name, text) else none
      | _, _ => none
  | (_, some (.file _)) => .error .notADirectory
  | (_, none) => .error .notFound

/-- Whether a path leads to a directory. -/
def isDir (t : FileTree) (path : String) : Bool :=
  match t.locate path with
  | .ok (_, some .directory) => true
  | _ => false

/-- Makes a directory where nothing is. -/
def makeDir (t : FileTree) (path : String) : Except FileFault FileTree := do
  let place ← t.place path
  match t.entry? place with
  | some _ => .error .alreadyExists
  | none => return t.put place .directory

/-- Writes a file, over the one that is there. -/
def writeFile (t : FileTree) (path text : String) : Except FileFault FileTree := do
  match ← t.locate path with
  | (_, some .directory) => .error .isADirectory
  | (place, _) => return t.put place (.file text)

end FileTree

/-- A system in memory. -/
structure Memory where
  files : FileTree
  /-- The lines that were printed. -/
  output : Array String

/-- Carries out a change of the files, or leaves them as they are. -/
def Memory.change (f : FileTree → Except FileFault FileTree) :
    StateM Memory (Except FileFault Unit) := do
  match f (← get).files with
  | .ok files => modify ({ · with files := files }); return .ok ()
  | .error e => return .error e

instance : Host (StateM Memory) where
  readFile path := return (← get).files.readFile path
  listFiles path := return ((← get).files.listFiles path).map (·.map (·.1))
  isDir path := return (← get).files.isDir path
  makeDir path := Memory.change (·.makeDir path)
  writeFile path text := Memory.change (·.writeFile path text)
  print line := modify fun w => { w with output := w.output.push line }

end Mispredict.Cli
