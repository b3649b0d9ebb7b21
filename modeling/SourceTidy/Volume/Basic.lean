import SourceTidy.Bytes
import SourceTidy.FilePath

/-! # Volumes

A volume is a tree of folders with files and symbolic links, a table of what the files hold, and a
current folder. A file in the tree is a number in the table, so that writing to a file leaves the
tree as it is, and two paths name one file exactly if they lead to one number. A file may stand in
the tree more than once. The names of entries are texts; those that are not UTF-8 are left out.

* `Volume.canonical`: the folder or file that a path leads to, with all links followed;
* `Volume.locate`: the number of a file;
* `Volume.read`, `Volume.write`.
-/

namespace SourceTidy

/-- Why an operation on files fails. -/
inductive IoError where
  | notFound
  | denied
  | alreadyExists
  | notFolder
  | isFolder
  | nameTooLong
  | tooManyLinks
  | zeroInName
  | invalidText
deriving DecidableEq, Repr

def IoError.message : IoError → String
  | .notFound => "No such file or directory (os error 2)"
  | .denied => "Permission denied (os error 13)"
  | .alreadyExists => "File exists (os error 17)"
  | .notFolder => "Not a directory (os error 20)"
  | .isFolder => "Is a directory (os error 21)"
  | .nameTooLong => "File name too long (os error 36)"
  | .tooManyLinks => "Too many levels of symbolic links (os error 40)"
  | .zeroInName => "file name contained an unexpected NUL byte"
  | .invalidText => "stream did not contain valid UTF-8"

/-- An entry of a folder. -/
inductive Node where
  /-- A file, by its number. -/
  | file (number : Nat)
  /-- A folder with its entries in no particular order. Those of some folders cannot be listed. -/
  | folder (listable : Bool) (entries : List (String × Node))
  /-- A symbolic link with the text of its target. -/
  | link (target : String)
deriving Repr

/-- What a file holds, and what may be done with it. -/
structure Stored where
  bytes : Bytes
  readable : Bool
  writable : Bool
deriving DecidableEq, Repr

/-- A tree of files, their contents, and the current folder by the names that lead to it. -/
structure Volume where
  root : Node
  store : List Stored
  current : List String
deriving Repr

namespace Node

/-- The entries of a folder, and none of any other node. -/
def entries : Node → List (String × Node)
  | .folder _ entries => entries
  | _ => []

def isFolder : Node → Bool
  | .folder _ _ => true
  | _ => false

/-- The node at the end of the names. No links are followed. -/
def find? : Node → List String → Option Node
  | node, [] => some node
  | node, name :: names =>
    match node.entries.lookup name with
    | some entry => entry.find? names
    | none => none

end Node

namespace Volume

/-! ## Where a path leads -/

/-- How many links a path may go through. -/
def maxLinks : Nat := 40

/-- How many octets the name of an entry may have. -/
def maxName : Nat := 255

/-- How many octets the text of a path may have. -/
def maxPath : Nat := 4095

/-- Why a folder has no entry of that name. -/
def missing (name : String) : IoError :=
  if maxName < name.utf8ByteSize then .nameTooLong else .notFound

/-- Follows names from the folder `here`, through `links` links at most. The result is the way from
the root to where they lead, with no link on it. -/
def follow (v : Volume) (links : Nat) (here : List String) (names : List String) :
    Except IoError (List String) :=
  match names with
  | [] => .ok here
  | name :: names =>
    match v.root.find? here with
    | some (.folder _ entries) =>
      if name = "." then v.follow links here names
      -- no link is on the way so far, so the folder above has one name less
      else if name = ".." then v.follow links here.dropLast names
      else match entries.lookup name with
        | none => .error (missing name)
        | some (.link target) =>
          match links with
          | 0 => .error .tooManyLinks
          | links + 1 =>
            let path := FilePath.ofTarget target
            v.follow links (if path.absolute then [] else here) (path.parts ++ names)
        | some _ => v.follow links (here ++ [name]) names
    | some _ => .error .notFolder
    | none => .error .notFound
termination_by (links, names.length)

/-- The way from the root to where a path leads. The empty path leads nowhere. -/
def canonical (v : Volume) (path : FilePath) : Except IoError (List String) :=
  let way :=
    if path.absolute then v.follow maxLinks [] path.parts
    else if path.parts.isEmpty then .error .notFound
    else v.follow maxLinks v.current path.parts
  way.mapError fun e => if path.hasZero then .zeroInName else e

/-- The node to which a path leads. -/
def resolve (v : Volume) (path : FilePath) : Except IoError Node :=
  match v.canonical path with
  | .ok way =>
    match v.root.find? way with
    | some node => .ok node
    | none => .error .notFound
  | .error .zeroInName => .error .zeroInName
  -- a path that is too long is refused as such, whatever else is wrong with it
  | .error e => .error (if maxPath < path.toString.utf8ByteSize then .nameTooLong else e)

/-- Does the path lead to anything? -/
def isPresent (v : Volume) (path : FilePath) : Bool :=
  match v.resolve path with
  | .ok _ => true
  | .error _ => false

/-- Does the path lead to a file? -/
def isFile (v : Volume) (path : FilePath) : Bool :=
  match v.resolve path with
  | .ok (.file _) => true
  | _ => false

/-- The number of the file to which a path leads. -/
def locate (v : Volume) (path : FilePath) : Except IoError Nat := do
  match ← v.resolve path with
  | .file number => .ok number
  | _ => .error .isFolder

/-! ## Contents -/

/-- What the file at a path holds. -/
def read (v : Volume) (path : FilePath) : Except IoError Bytes := do
  match v.store[← v.locate path]? with
  | some stored => if stored.readable then .ok stored.bytes else .error .denied
  | none => .error .notFound

/-- The volume after the file at a path has been given a new content. -/
def write (v : Volume) (path : FilePath) (bytes : Bytes) : Except IoError Volume := do
  let number ← v.locate path
  match v.store[number]? with
  | some stored =>
    if stored.writable then .ok { v with store := v.store.set number { stored with bytes } }
    else .error .denied
  | none => .error .notFound

end Volume

end SourceTidy
