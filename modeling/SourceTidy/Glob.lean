/-! # Patterns of file names

A pattern stands for a set of names:

* `?` is any character, and `*` any run of characters;
* `**`, which is a part of a path by itself, is any run of folders;
* `[a-z]` is one character of a set, and `[!a-z]` one character outside of it; the first character
  of a set stands for itself, even a bracket;
* every other character stands for itself.

Names are compared as they are: case matters, and a dot or a slash is a character as any other.
-/

namespace SourceTidy

/-- One piece of a pattern. -/
inductive Glob.Piece where
  | char (c : Char)
  | anyChar
  | anyRun
  | anyFolders
  /-- A character between the two of some pair. -/
  | oneOf (ranges : List (Char × Char))
  /-- A character between the two of no pair. -/
  | noneOf (ranges : List (Char × Char))
deriving DecidableEq, Repr

/-- A pattern of file names. -/
structure Glob where
  pieces : List Glob.Piece
deriving DecidableEq, Repr

namespace Glob

/-! ## Reading -/

/-- What can be wrong with a pattern. -/
inductive Problem where
  | wildcards
  | recursiveWildcards
  | range
deriving DecidableEq, Repr

/-- A problem and the position of the character at which it is noticed. -/
structure Fault where
  problem : Problem
  position : Nat
deriving DecidableEq, Repr

def Problem.message : Problem → String
  | .wildcards => "wildcards are either regular `*` or recursive `**`"
  | .recursiveWildcards => "recursive wildcards must form a single path component"
  | .range => "invalid range pattern"

def Fault.message (f : Fault) : String :=
  "Pattern syntax error near position " ++ toString f.position ++ ": " ++ f.problem.message

/-- The pairs of a set. Three characters of which the middle one is a dash make a pair, and any
other character is a pair with itself. -/
def ranges : List Char → List (Char × Char)
  | [] => []
  | low :: dash :: high :: rest =>
    if dash = '-' then (low, high) :: ranges rest else (low, low) :: ranges (dash :: high :: rest)
  | c :: rest => (c, c) :: ranges rest

/-- The piece that begins with a star, and how many more characters belong to it. -/
def readStars (position : Nat) (previous : Option Char) (rest : List Char) :
    Except Fault (Piece × Nat) :=
  match (rest.takeWhile (· = '*')).length with
  | 0 => .ok (.anyRun, 0)
  | 1 =>
    -- slashes, or the ends of the pattern, have to stand around two stars
    if previous.all (· = '/') then
      match rest.drop 1 with
      | [] => .ok (.anyFolders, 1)
      | c :: _ =>
        if c = '/' then .ok (.anyFolders, 2) else .error ⟨.recursiveWildcards, position + 2⟩
    else .error ⟨.recursiveWildcards, position - 1⟩
  | _ => .error ⟨.wildcards, position + 2⟩

/-- The piece that begins with a bracket, and how many more characters belong to it. -/
def readSet (position : Nat) (rest : List Char) : Except Fault (Piece × Nat) :=
  let negated := rest.head? == some '!'
  match if negated then rest.tail else rest with
  | [] => .error ⟨.range, position⟩
  | first :: more =>
    -- the first member may be a bracket, so the end is looked for after it
    match more.idxOf? ']' with
    | none => .error ⟨.range, position⟩
    | some n =>
      let members := ranges (first :: more.take n)
      if negated then .ok (.noneOf members, n + 3) else .ok (.oneOf members, n + 2)

/-- The piece that begins with `c`, and how many more characters belong to it. -/
def readPiece (position : Nat) (previous : Option Char) (c : Char) (rest : List Char) :
    Except Fault (Piece × Nat) :=
  if c = '?' then .ok (.anyChar, 0)
  else if c = '*' then readStars position previous rest
  else if c = '[' then readSet position rest
  else .ok (.char c, 0)

/-- The pieces of a pattern from `position` on, after the next `skip` characters. -/
def readPieces (position : Nat) (previous : Option Char) :
    Nat → List Char → Except Fault (List Piece)
  | _, [] => .ok []
  | skip + 1, c :: rest => readPieces (position + 1) (some c) skip rest
  | 0, c :: rest => do
    let (piece, extra) ← readPiece position previous c rest
    let pieces ← readPieces (position + 1) (some c) extra rest
    return piece :: pieces

def parse (pattern : String) : Except Fault Glob :=
  (readPieces 0 none 0 pattern.toList).map Glob.mk

/-- Does the pattern stand for itself only? -/
def isLiteral (pattern : String) : Bool :=
  pattern.toList.all fun c => c != '?' && c != '*' && c != '[' && c != ']'

/-! ## Matching -/

/-- Is the character between the two of some pair? -/
def inRanges (ranges : List (Char × Char)) (c : Char) : Bool :=
  ranges.any fun (low, high) => decide (low ≤ c) && decide (c ≤ high)

/-- What may be left of a name after a run of characters. -/
def suffixes : List Char → List (List Char)
  | [] => [[]]
  | c :: rest => (c :: rest) :: suffixes rest

/-- What follows each slash of a name. -/
def afterSlashes : List Char → List (List Char)
  | [] => []
  | c :: rest => if c = '/' then rest :: afterSlashes rest else afterSlashes rest

/-- What may be left of a name after a run of folders: all of it, what follows a slash, or
nothing. -/
def afterFolders (name : List Char) : List (List Char) :=
  name :: (afterSlashes name ++ [[]])

/-- Does the piece stand for the character, which it takes alone? -/
def Piece.accepts : Piece → Char → Bool
  | .char c, x => x == c
  | .anyChar, _ => true
  | .oneOf set, x => inRanges set x
  | .noneOf set, x => !inRanges set x
  | .anyRun, _ | .anyFolders, _ => false

/-- How a name compares with some pieces. -/
inductive Outcome where
  /-- The pieces make up the name. -/
  | whole
  /-- A character is not the one that a piece stands for, or characters are left over. -/
  | differs
  /-- The name ends too early. Then it does so, too, if a run before the pieces takes more of it. -/
  | ends
deriving DecidableEq, Repr

/-- The outcome for the first of some names that does not differ. -/
def firstSettled (settle : List Char → Outcome) : List (List Char) → Outcome
  | [] => .differs
  | name :: rest =>
    match settle name with
    | .differs => firstSettled settle rest
    | settled => settled

/-- Compares a name with pieces. A run takes as little as it can; when the name has ended too early,
no longer run is tried. -/
def outcome : List Piece → List Char → Outcome
  | [], name => if name.isEmpty then .whole else .differs
  | .anyRun :: pieces, name => firstSettled (outcome pieces) (suffixes name)
  | .anyFolders :: pieces, name => firstSettled (outcome pieces) (afterFolders name)
  | _ :: _, [] => .ends
  | piece :: pieces, c :: rest => if piece.accepts c then outcome pieces rest else .differs

/-- Does the pattern stand for the name? -/
def accepts (g : Glob) (name : String) : Bool := outcome g.pieces name.toList = .whole

end Glob

end SourceTidy
