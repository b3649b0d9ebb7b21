import SourceTidy.Text.Cut

/-! # Paths

A path is a list of names that starts at the root or at the current folder. Its text has `/` between
the names. Repeated slashes mean one, and a dot means nothing except as the first name of a relative
path.

A name is a text. Names that are not UTF-8, which a disk may hold, are left out.

* `FilePath.ofString`, `FilePath.ofTarget`: the path of a text, and of the text of a link;
* `FilePath.parent?`, `FilePath.child`, `FilePath.join`;
* `FilePath.relative`: the way from one path to another.
-/

namespace SourceTidy

/-- A path as a list of names. -/
structure FilePath where
  /-- Does it start at the root? -/
  absolute : Bool
  parts : List String
deriving DecidableEq, Repr

namespace FilePath

/-- The names in a text. -/
def names (text : List Char) : List String :=
  ((Text.cutAt '/' text).map String.ofList).filter fun name => name != "" && name != "."

/-- Does a relative path begin with the current folder? -/
def startsHere (text : List Char) : Bool := (Text.cutAt '/' text).head? == some ['.']

/-- The path that a text stands for. -/
def ofString (s : String) : FilePath :=
  let text := s.toList
  if text.head? == some '/' then ⟨true, names text⟩
  else ⟨false, (if startsHere text then ["."] else []) ++ names text⟩

/-- Does the text say that it means a folder, by a slash or a dot at its end? -/
def meansFolder (text : List Char) : Bool :=
  match (Text.cutAt '/' text).getLast? with
  | some [] | some ['.'] => true
  | _ => false

/-- The path that the text of a link stands for. If the text means a folder then a dot is the last
name, which leads on from a folder only. -/
def ofTarget (s : String) : FilePath :=
  let p := ofString s
  if meansFolder s.toList then { p with parts := p.parts ++ ["."] } else p

/-- The text of a path. -/
def toString (p : FilePath) : String :=
  (if p.absolute then "/" else "") ++ "/".intercalate p.parts

/-- Does the character with the number zero stand in the path? -/
def hasZero (p : FilePath) : Bool := p.parts.any fun name => name.toList.any fun c => c.toNat == 0

/-- The folder above. The root and the empty path have none. -/
def parent? (p : FilePath) : Option FilePath :=
  if p.parts.isEmpty then none else some { p with parts := p.parts.dropLast }

/-- The entry of that name in the folder `p`. -/
def child (p : FilePath) (name : String) : FilePath := { p with parts := p.parts ++ [name] }

/-- The path `q` as it is meant in the folder `p`. -/
def join (p q : FilePath) : FilePath :=
  if q.absolute || (p.parts.isEmpty && !p.absolute) then q
  -- a dot counts only at the start of a path
  else { p with parts := p.parts ++ q.parts.filter (· != ".") }

/-- What follows the last dot of the last name, unless the name has no other dot and begins with
it. -/
def extension? (p : FilePath) : Option String := do
  let name ← p.parts.getLast?
  if name == ".." then none
  let pieces := Text.cutAt '.' name.toList
  match pieces with
  | [] | [_] => none
  | [first, last] => if first.isEmpty then none else some (String.ofList last)
  | _ => pieces.getLast?.map String.ofList

/-! ## The way from one path to another -/

/-- The names that lead from the folder `base` to `path`, of which `moved` says whether some are
known already. There is no such way if `base` goes up from a folder whose name is not known. -/
def route? (moved : Bool) : List String → List String → Option (List String)
  | path, [] => some path
  | [], _ :: base => (route? true [] base).map (".." :: ·)
  | a :: path, b :: base =>
    if !moved && a == b then route? false path base
    else if b == "." then (route? true path base).map (a :: ·)
    else if b == ".." then none
    else some (".." :: base.map (fun _ => "..") ++ a :: path)

/-- The path that leads from the folder `base` to `path`, if there is one. -/
def relative? (base path : FilePath) : Option FilePath :=
  if base.absolute == path.absolute then
    (route? false path.parts base.parts).map (FilePath.mk false)
  else if path.absolute then some path
  else none

/-- The path below `base`, or as it is if no way leads from there. -/
def relative (base path : FilePath) : FilePath := (relative? base path).getD path

/-- The text of the path below `base`. A path to which no way leads keeps its text. -/
def relativeText (base path : String) : String :=
  let p := ofString path
  match relative? (ofString base) p with
  | some q => if q.absolute then path else q.toString
  | none => path

end FilePath

end SourceTidy
