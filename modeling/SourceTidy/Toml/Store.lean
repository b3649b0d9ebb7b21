import SourceTidy.Toml.Value
import Std.Data.HashMap

/-! # The keys of a TOML document

The keys that a document has defined so far, each under its full path. A path goes from the
outermost table down; inside of a list of tables it goes through the number of an element.

* `Store.descend?`: the table that dotted keys lead to, made where it is missing;
* `Store.define?`: a key and its value;
* `Store.openTable?`, `Store.openElement?`: the two kinds of table headers.

Each of them fails where a key would be defined twice.
-/

namespace SourceTidy.Toml

/-- One step of a path. -/
inductive Segment where
  | key (name : String)
  | element (index : Nat)
deriving DecidableEq, Hashable, Repr

abbrev Path := List Segment

/-- How a key is defined. -/
inductive Definition where
  | value (v : Value)
  /-- A table by a header of its own. -/
  | table
  /-- A table that only the header of an inner table has named. -/
  | implied
  /-- A table made by a dotted key. -/
  | dotted
  /-- A list of tables, with the number of its elements. -/
  | tables (count : Nat)
deriving Repr

/-- The definitions by their paths. -/
structure Store where
  entries : Std.HashMap Path Definition
deriving Repr

namespace Store

def empty : Store := ⟨∅⟩

def find? (s : Store) (path : Path) : Option Definition := s.entries[path]?

def insert (s : Store) (path : Path) (d : Definition) : Store := ⟨s.entries.insert path d⟩

/-- The path of the table under `path`, if there is one that may be reached: the last element of a
list of tables, or the table itself. Dotted keys do not reach into a table with a header. -/
def reach? (path : Path) (dotted : Bool) : Definition → Option Path
  | .value _ => none
  | .tables count => some (path ++ [.element (count - 1)])
  | .table => if dotted then none else some path
  | .implied | .dotted => some path

/-- Follows keys from the table at `base`, making the tables that are missing. -/
def descend? (s : Store) (dotted : Bool) (base : Path) : List String → Option (Store × Path)
  | [] => some (s, base)
  | k :: keys =>
    let path := base ++ [.key k]
    match s.find? path with
    | none => (s.insert path (if dotted then .dotted else .implied)).descend? dotted path keys
    | some d =>
      match reach? path dotted d with
      | none => none
      | some next => s.descend? dotted next keys

/-- Splits off the last part of a key. -/
def splitLast : List String → Option (List String × String)
  | [] => none
  | [k] => some ([], k)
  | k :: rest => (splitLast rest).map fun (front, last) => (k :: front, last)

/-- Defines a key of the table at `base`. A dotted key may only add to tables that dotted keys have
made. -/
def define? (s : Store) (base : Path) (keys : List String) (v : Value) : Option Store := do
  let (front, last) ← splitLast keys
  let (s, parent) ← s.descend? true base front
  let mayAdd := front.isEmpty || (match s.find? parent with
    | some .dotted => true
    | _ => false)
  let path := parent ++ [.key last]
  if mayAdd && (s.find? path).isNone then some (s.insert path (.value v)) else none

/-- The header `[keys]`: the path of its table. -/
def openTable? (s : Store) (keys : List String) : Option (Store × Path) := do
  let (front, last) ← splitLast keys
  let (s, parent) ← s.descend? false [] front
  let path := parent ++ [.key last]
  match s.find? path with
  | none | some .implied => some (s.insert path .table, path)
  | some _ => none

/-- The header `[[keys]]`: the path of the new element. -/
def openElement? (s : Store) (keys : List String) : Option (Store × Path) := do
  let (front, last) ← splitLast keys
  let (s, parent) ← s.descend? false [] front
  let path := parent ++ [.key last]
  match s.find? path with
  | none => some (s.insert path (.tables 1), path ++ [.element 0])
  | some (.tables count) => some (s.insert path (.tables (count + 1)), path ++ [.element count])
  | some _ => none

/-- The definition of a key of the outermost table. -/
def root? (s : Store) (key : String) : Option Definition := s.find? [.key key]

end Store

end SourceTidy.Toml
