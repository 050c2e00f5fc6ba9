import RankOne.Disk
import RankOne.Entries

/-!
# File trees

A disk as a value: the directories and files that there are, by their names from the root down.
A path is followed name by name, and each name but the last has to lead to a directory. Relative
paths start at a home directory.
-/

set_option autoImplicit false

namespace RankOne

inductive Node
  | directory
  | file (data : Bytes)
deriving DecidableEq, Repr

abbrev Location := List String

structure FileTree where
  home : Location
  nodes : List (Location × Node)
deriving DecidableEq, Repr

namespace FileTree

def ancestors (location : Location) : List Location :=
  (List.range location.length).map fun i => location.take (i + 1)

def empty (home : Location) : FileTree :=
  ⟨home, (ancestors home).map fun location => (location, .directory)⟩

def node? (t : FileTree) : Location → Option Node
  | [] => some .directory
  | location => Entries.get? location t.nodes

def putNode (t : FileTree) (location : Location) (node : Node) : FileTree :=
  { t with nodes := Entries.put location node t.nodes }

theorem node?_putNode (t : FileTree) (location other : Location) (node : Node)
    (h : location ≠ []) :
    (t.putNode location node).node? other =
      if location = other then some node else t.node? other := by
  cases other with
  | nil => simp [node?, h]
  | cons name rest => exact Entries.get?_put location (name :: rest) node t.nodes

def eraseNode (t : FileTree) (location : Location) : FileTree :=
  { t with nodes := Entries.erase location t.nodes }

def refused {α : Type} (cause : Refusal) : Except Fault α :=
  .error (.refused cause)

def nameLimit : Nat := 255

def pathLimit : Nat := 4095

def namesOf : List Char → List Char → List String
  | name, [] => if name.isEmpty then [] else [String.ofList name.reverse]
  | name, c :: rest =>
      if c = '/' then
        if name.isEmpty then namesOf [] rest else String.ofList name.reverse :: namesOf [] rest
      else namesOf (c :: name) rest

def names (path : String) : List String :=
  namesOf [] path.toList

def pathFault? (path : String) : Option Fault :=
  if '\x00' ∈ path.toList then some (.unusable .embeddedNul)
  else if path.isEmpty then some (.refused .notFound)
  else if path.utf8ByteSize > pathLimit then some (.refused .nameTooLong)
  else none

def start (t : FileTree) (path : String) : Location :=
  if path.startsWith "/" then [] else t.home

def follow (t : FileTree) (here : Location) (name : String) : Except Fault Location :=
  match t.node? here with
  | none => refused .notFound
  | some (.file _) => refused .notDirectory
  | some .directory =>
      if name = "." then .ok here
      else if name = ".." then .ok here.dropLast
      else if name.utf8ByteSize > nameLimit then refused .nameTooLong
      else .ok (here ++ [name])

def followAll (t : FileTree) : Location → List String → Except Fault Location
  | here, [] => .ok here
  | here, name :: rest =>
      match t.follow here name with
      | .ok there => t.followAll there rest
      | .error e => .error e

def locate (t : FileTree) (path : String) : Except Fault Location :=
  match pathFault? path with
  | some fault => .error fault
  | none => t.followAll (t.start path) (names path ++ if path.endsWith "/" then ["."] else [])

def present (t : FileTree) (path : String) : Bool :=
  match t.locate path with
  | .ok location => (t.node? location).isSome
  | .error _ => false

def read (t : FileTree) (path : String) : Except Fault Bytes :=
  match t.locate path with
  | .error e => .error e
  | .ok location =>
      match t.node? location with
      | some (.file data) => .ok data
      | some .directory => refused .isDirectory
      | none => refused .notFound

def write (t : FileTree) (path : String) (data : Bytes) : Except Fault FileTree :=
  match t.locate path with
  | .error e => .error e
  | .ok location =>
      match t.node? location with
      | some .directory => refused .isDirectory
      | _ => .ok (t.putNode location (.file data))

def remove (t : FileTree) (path : String) : Except Fault FileTree :=
  match t.locate path with
  | .error e => .error e
  | .ok location =>
      match t.node? location with
      | some (.file _) => .ok (t.eraseNode location)
      | some .directory => refused .isDirectory
      | none => refused .notFound

def rename (t : FileTree) (old new : String) : Except Fault FileTree :=
  match t.read old with
  | .error e => .error e
  | .ok data =>
      match t.write new data with
      | .error e => .error e
      | .ok t' =>
          match t.locate old, t.locate new with
          | .ok source, .ok target => .ok (if source = target then t else t'.eraseNode source)
          | _, _ => .ok t'

def makeAlong (t : FileTree) : Location → List String → FileTree × Except Fault Unit
  | _, [] => (t, .ok ())
  | here, name :: rest =>
      match t.follow here name with
      | .error e => (t, .error e)
      | .ok there =>
          match t.node? there, rest with
          | some (.file _), [] => (t, refused .alreadyThere)
          | some _, rest => t.makeAlong there rest
          | none, rest => (t.putNode there .directory).makeAlong there rest

def makeDirectories (t : FileTree) (path : String) : FileTree × Except Fault Unit :=
  match pathFault? path with
  | some fault => (t, .error fault)
  | none => t.makeAlong (t.start path) (names path)

def temporaryName (i : Nat) : String :=
  let digits := (toString i).toList
  ".tmp-" ++ String.ofList (List.replicate (8 - digits.length) '0' ++ digits)

def freeName (t : FileTree) (location : Location) : String :=
  let used := fun i => (t.node? (location ++ [temporaryName i])).isSome
  temporaryName (((List.range (t.nodes.length + 1)).find? fun i => !used i).getD t.nodes.length)

def absolute (location : Location) : String :=
  "/" ++ String.intercalate "/" location

def createTemporary (t : FileTree) (directory : String) : FileTree × Except Fault String :=
  match t.locate directory with
  | .error e => (t, .error e)
  | .ok location =>
      let path := joinPath (absolute location) (t.freeName location)
      match t.write path [] with
      | .ok t' => (t', .ok path)
      | .error e => (t, .error e)

def listing (t : FileTree) : List String :=
  let below := t.nodes.filterMap fun entry =>
    match entry.2 with
    | .file _ =>
        if t.home.isPrefixOf entry.1 then
          some (String.intercalate "/" (entry.1.drop t.home.length))
        else none
    | .directory => none
  below.mergeSort fun x y => decide (x ≤ y)

end FileTree

structure Host where
  files : FileTree
  printed : List Unicode.Codes
deriving DecidableEq, Repr

namespace Host

def change (f : FileTree → Except Fault FileTree) : StateM Host (Except Fault Unit) := fun host =>
  match f host.files with
  | .ok files => (.ok (), { host with files := files })
  | .error e => (.error e, host)

def step {α : Type} (f : FileTree → FileTree × Except Fault α) :
    StateM Host (Except Fault α) := fun host =>
  let r := f host.files
  (r.2, { host with files := r.1 })

instance : Disk (StateM Host) where
  present path := fun host => (host.files.present path, host)
  read path := fun host => (host.files.read path, host)
  makeDirectories path := step fun t => t.makeDirectories path
  createTemporary directory := step fun t => t.createTemporary directory
  write path data := change fun t => t.write path data
  rename old new := change fun t => t.rename old new
  remove path := change fun t => t.remove path

instance : Console (StateM Host) where
  say line := fun host => ((), { host with printed := line :: host.printed })

end Host

end RankOne
