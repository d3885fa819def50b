import Afl.Base.Bytes

/-!
# A file system in memory

`InternalFileSystem` is a tree of nodes. A directory can be opened, and then be moved or erased while it is open, so the
model is a heap of nodes and node lists. A `Dir` refers to a list and remembers the path name by which it was opened; a
`DirectoryEntry` is a `Dir` with a name in it.

Files are represented by the identity of their `InternalStream`. A call that fails gives the file name and message
of its `FileProblemException`.
-/

namespace Afl.Io

/-- What a `FileNode` or a `DirectoryNode` contains: a stream, or a list of nodes. -/
inductive NodeContent
  | file (stream : Nat)
  | directory (list : Nat)
  deriving DecidableEq

structure FileNode where
  name : Bytes
  content : NodeContent
  deriving DecidableEq

/-- `FileProblemException`. -/
structure FileProblem where
  fileName : Bytes
  message : Bytes
  deriving DecidableEq

namespace Messages

def fileNotFound : Bytes := lit "File not found"

def fileExists : Bytes := lit "File exists"

def invalidFileName : Bytes := lit "Invalid file name"

def invalidOperation : Bytes := lit "Invalid operation"

end Messages

def slash : UInt8 := 0x2F

def makePathName (path name : Bytes) : Bytes :=
  if name.head? = some slash then name
  else if path = lit "." then name
  else if path ≠ [] ∧ path.getLast? ≠ some slash then path ++ [slash] ++ name
  else path ++ name

def prepareFileName (name : Bytes) : Bytes := if name.head? = some slash then name.tail else name

/-- The test of `verifyFileNameComponent`. -/
def verifyFileNameComponent (str : Bytes) : Bool := !(str.isEmpty || str.contains slash || str == lit ".")

/-- `DirectoryNode`s and `FileNode`s by identity, and the `NodeList`s with their nodes in order. New objects are
numbered; a node and its content get the same number. `directories` has all lists that were ever made, as there may be
a `Dir` for any of them, and `erased` those whose directory was erased. -/
structure InternalFileSystem where
  root : Nat
  nodes : Nat → Option FileNode
  lists : Nat → List Nat
  next : Nat
  directories : List Nat
  erased : List Nat

/-- A directory that someone has opened. -/
structure Dir where
  name : Bytes
  content : Nat

inductive OpenMode
  | openRead
  | openWrite
  | create
  | createNew
  deriving DecidableEq

namespace InternalFileSystem

def new : InternalFileSystem := ⟨0, fun _ => none, fun _ => [], 1, [0], []⟩

def named (s : InternalFileSystem) (name : Bytes) (n : Nat) : Option (Nat × FileNode) :=
  (s.nodes n).bind fun v => if v.name = name then some (n, v) else none

/-- `findNode` and `findIterator`: the first node of that name. -/
def findNode (s : InternalFileSystem) (list : Nat) (name : Bytes) : Option (Nat × FileNode) :=
  (s.lists list).findSome? (s.named name)

/-! ### Changes to the tree -/

def pushBack (lists : Nat → List Nat) (list n : Nat) : Nat → List Nat :=
  Function.update lists list (lists list ++ [n])

/-- `extractElement` on a list. -/
def extract (lists : Nat → List Nat) (list n : Nat) : Nat → List Nat :=
  Function.update lists list ((lists list).erase n)

/-- `nodes.pushBackNew(new FileNode(name))`. -/
def newFile (s : InternalFileSystem) (list : Nat) (name : Bytes) : InternalFileSystem :=
  { s with
    nodes := Function.update s.nodes s.next (some ⟨name, .file s.next⟩)
    lists := pushBack s.lists list s.next
    next := s.next + 1 }

/-- `nodes.pushBackNew(new DirectoryNode(name))`. -/
def newDirectory (s : InternalFileSystem) (list : Nat) (name : Bytes) : InternalFileSystem :=
  { s with
    nodes := Function.update s.nodes s.next (some ⟨name, .directory s.next⟩)
    lists := pushBack (Function.update s.lists s.next []) list s.next
    next := s.next + 1
    directories := s.next :: s.directories }

/-- `nodes.erase(it)`: the node is deleted. A list of nodes stays if someone has a `Dir` for it. -/
def eraseNode (s : InternalFileSystem) (list n : Nat) : InternalFileSystem :=
  { s with
    nodes := Function.update s.nodes n none
    lists := extract s.lists list n
    erased :=
      match s.nodes n with
      | some ⟨_, .directory content⟩ => content :: s.erased
      | _ => s.erased }

def setName (s : InternalFileSystem) (n : Nat) (newName : Bytes) : InternalFileSystem :=
  { s with nodes := Function.update s.nodes n ((s.nodes n).map fun v => { v with name := newName }) }

/-- `content.reset(*new InternalStream())`. -/
def resetContent (s : InternalFileSystem) (n : Nat) : InternalFileSystem :=
  { s with
    nodes := Function.update s.nodes n ((s.nodes n).map fun v => { v with content := .file s.next })
    next := s.next + 1 }

/-- `dest.pushBackNew(src.extractElement(it))`. -/
def relink (s : InternalFileSystem) (src dest n : Nat) : InternalFileSystem :=
  { s with lists := pushBack (extract s.lists src n) dest n }

/-! ### Directories and entries -/

abbrev Result (α : Type) := Except FileProblem α × InternalFileSystem

/-- `Dir::open`. The result is the stream. -/
def openIn (s : InternalFileSystem) (dir : Dir) (name fullName : Bytes) (mode : OpenMode) : Result Nat :=
  if !verifyFileNameComponent name then (.error ⟨name, Messages.invalidFileName⟩, s)
  else
    match s.findNode dir.content name with
    | some (_, ⟨_, .directory _⟩) => (.error ⟨fullName, Messages.fileExists⟩, s)
    | some (n, ⟨_, .file stream⟩) =>
      match mode with
      | .openRead | .openWrite => (.ok stream, s)
      | .create => (.ok s.next, s.resetContent n)
      | .createNew => (.error ⟨fullName, Messages.fileExists⟩, s)
    | none =>
      match mode with
      | .openRead | .openWrite => (.error ⟨fullName, Messages.fileNotFound⟩, s)
      | .create | .createNew => (.ok s.next, s.newFile dir.content name)

def getPathName (dir : Dir) (name : Bytes) : Bytes := makePathName dir.name name

def doRename (s : InternalFileSystem) (dir : Dir) (name newName : Bytes) : Result Unit :=
  if !verifyFileNameComponent newName then (.error ⟨newName, Messages.invalidFileName⟩, s)
  else
    match s.findNode dir.content name with
    | none => (.error ⟨getPathName dir name, Messages.fileNotFound⟩, s)
    | some (n, v) =>
      if newName ≠ name then
        match v.content with
        | .file _ =>
          match s.findNode dir.content newName with
          | none => (.ok (), s.setName n newName)
          | some (_, ⟨_, .directory _⟩) => (.error ⟨getPathName dir name, Messages.fileExists⟩, s)
          | some (m, ⟨_, .file _⟩) =>
            -- '*it == n' cannot happen; checking anyway
            if m = n then (.error ⟨getPathName dir name, Messages.fileExists⟩, s)
            else (.ok (), (s.eraseNode dir.content m).setName n newName)
        | .directory _ =>
          if (s.findNode dir.content newName).isSome then (.error ⟨getPathName dir name, Messages.fileExists⟩, s)
          else (.ok (), s.setName n newName)
      else (.ok (), s)

def doErase (s : InternalFileSystem) (dir : Dir) (name : Bytes) : Result Unit :=
  match s.findNode dir.content name with
  | none => (.error ⟨getPathName dir name, Messages.fileNotFound⟩, s)
  | some (n, ⟨_, .directory content⟩) =>
    if s.lists content ≠ [] then (.error ⟨getPathName dir name, Messages.fileExists⟩, s)
    else (.ok (), s.eraseNode dir.content n)
  | some (n, ⟨_, .file _⟩) => (.ok (), s.eraseNode dir.content n)

def doCreateAsDirectory (s : InternalFileSystem) (dir : Dir) (name : Bytes) : Result Unit :=
  if (s.findNode dir.content name).isSome then (.error ⟨getPathName dir name, Messages.fileExists⟩, s)
  else (.ok (), s.newDirectory dir.content name)

/-- The end of `doMoveTo`. The source iterator is null if its element was erased as the destination; extracting gives
a null pointer then, and the assignment of the name is undefined. -/
def moveNode (s : InternalFileSystem) (src n : Nat) (dest : Nat) (newName : Bytes) : Option (Result Unit) :=
  if n ∈ s.lists src then some (.ok (), (s.relink src dest n).setName n newName) else none

/-- There is no destination if it is not a `Dir` (a `RootDir`, or a directory of something else). -/
def doMoveTo (s : InternalFileSystem) (dir : Dir) (name : Bytes) (dest : Option Dir) (newName : Bytes) :
    Option (Result Unit) :=
  match dest with
  | none => some (.error ⟨getPathName dir name, Messages.invalidOperation⟩, s)
  | some d =>
    match s.findNode dir.content name with
    | none => some (.error ⟨getPathName dir name, Messages.fileNotFound⟩, s)
    | some (n, ⟨_, .file _⟩) =>
      match s.findNode d.content newName with
      | none => s.moveNode dir.content n d.content newName
      | some (_, ⟨_, .directory _⟩) => some (.error ⟨makePathName d.name newName, Messages.fileExists⟩, s)
      | some (m, ⟨_, .file _⟩) => (s.eraseNode d.content m).moveNode dir.content n d.content newName
    | some (n, ⟨_, .directory _⟩) =>
      match s.findNode d.content newName with
      | none => s.moveNode dir.content n d.content newName
      | some _ => some (.error ⟨makePathName d.name newName, Messages.fileExists⟩, s)

/-! ### Path names -/

/-- The loop of `NodeList::findDirectory`. The rest of the path name has no slash. -/
def findDirectoryLoop (s : InternalFileSystem) (fullName : Bytes) :
    Nat → Dir → Bytes → Except FileProblem (Dir × Bytes)
  | 0, dir, pathName => .ok (dir, pathName)
  | fuel + 1, dir, pathName =>
    if slash ∈ pathName then
      let componentName := pathName.takeWhile (· ≠ slash)
      let pathName := pathName.drop (componentName.length + 1)
      if componentName = lit "." then findDirectoryLoop s fullName fuel dir pathName
      else
        match s.findNode dir.content componentName with
        | some (_, ⟨_, .directory content⟩) =>
          findDirectoryLoop s fullName fuel ⟨makePathName dir.name componentName, content⟩ pathName
        | _ => .error ⟨fullName, Messages.fileNotFound⟩
    else .ok (dir, pathName)

/-- Every round of the loop consumes a slash. -/
def findDirectory (s : InternalFileSystem) (pathName fullName : Bytes) : Except FileProblem (Dir × Bytes) :=
  findDirectoryLoop s fullName pathName.length ⟨lit "/", s.root⟩ pathName

def createDirectory (s : InternalFileSystem) (dirName : Bytes) : Result Unit :=
  match s.findDirectory (prepareFileName dirName) dirName with
  | .error e => (.error e, s)
  | .ok (dir, name) =>
    if !verifyFileNameComponent name then (.error ⟨name, Messages.invalidFileName⟩, s)
    else s.doCreateAsDirectory dir name

def openFile (s : InternalFileSystem) (fileName : Bytes) (mode : OpenMode) : Result Nat :=
  match s.findDirectory (prepareFileName fileName) fileName with
  | .error e => (.error e, s)
  | .ok (dir, name) => s.openIn dir name fileName mode

/-- This changes nothing, but it is how a `Dir` is obtained (`openDirectory_mem`). -/
def openDirectory (s : InternalFileSystem) (dirName : Bytes) : Except FileProblem Dir :=
  match s.findDirectory (prepareFileName dirName) dirName with
  | .error e => .error e
  | .ok (dir, name) =>
    if name ≠ [] ∧ name ≠ lit "." then
      match s.findNode dir.content name with
      | some (_, ⟨_, .directory content⟩) => .ok ⟨makePathName dir.name name, content⟩
      | _ => .error ⟨dirName, Messages.fileNotFound⟩
    else .ok dir

end InternalFileSystem

/-- What a `DirectoryEntry` can be asked to do. -/
inductive EntryCall
  | openFile (mode : OpenMode)
  | rename (newName : Bytes)
  | erase
  | createAsDirectory
  | moveTo (dest : Option Dir) (newName : Bytes)

inductive FileSystemCall
  | createDirectory (dirName : Bytes)
  | openFile (fileName : Bytes) (mode : OpenMode)
  | entry (dir : Dir) (name : Bytes) (call : EntryCall)

namespace InternalFileSystem

def entryCall (s : InternalFileSystem) (dir : Dir) (name : Bytes) : EntryCall → Option InternalFileSystem
  | .openFile mode => some (s.openIn dir name (getPathName dir name) mode).2
  | .rename newName => some (s.doRename dir name newName).2
  | .erase => some (s.doErase dir name).2
  | .createAsDirectory => some (s.doCreateAsDirectory dir name).2
  | .moveTo dest newName => (s.doMoveTo dir name dest newName).map Prod.snd

def FileSystemCall.directories : FileSystemCall → List Dir
  | .entry dir _ (.moveTo (some dest) _) => [dir, dest]
  | .entry dir _ _ => [dir]
  | _ => []

/-- The state after a call. An entry is obtained by `getDirectoryEntryByName`, which verifies the name. An enumeration
gives entries with the names of nodes, which are such names unless `moveTo` has given out another one; calls on entries
with other names are left out. There is no state after undefined behaviour, or if a directory does not exist. -/
def step (s : InternalFileSystem) (a : FileSystemCall) : Option InternalFileSystem :=
  if ∀ dir ∈ FileSystemCall.directories a, dir.content ∈ s.directories then
    match a with
    | .createDirectory dirName => some (s.createDirectory dirName).2
    | .openFile fileName mode => some (s.openFile fileName mode).2
    | .entry dir name call => if verifyFileNameComponent name then s.entryCall dir name call else some s
  else none

end InternalFileSystem

end Afl.Io
