import SourceTidy.Number
import SourceTidy.Yaml.Node

/-! # YAML values

A plain scalar without a tag is null, a boolean, an integer, a float or a string, by its text. A
node that has a tag of the document's own, which starts with an exclamation mark, is a tagged value.
A node makes a value if no mapping in it has a key twice, if its scalars fit their tags and their
numbers 64 bits, and if neither nesting nor aliases go too far.

* `scalar?`: the value of a scalar;
* `Document.value?`: the value of a node, with its aliases followed;
* `Value.mark`: a text that tells values apart;
* `decode`: is a text one document with a value?
-/

namespace SourceTidy.Yaml

/-- What a scalar stands for. -/
inductive Scalar where
  | null
  | boolean (b : Bool)
  | integer (n : Int)
  /-- A finite float, by the multiple of `2 ^ -1074` that it is. -/
  | float (n : Int)
  /-- An infinite float, or none. -/
  | special (name : String)
  | string (text : List Char)
deriving DecidableEq, Repr

def isNull (s : List Char) : Bool :=
  ["null", "Null", "NULL", "~"].any (·.toList == s)

def boolean? (s : List Char) : Option Bool :=
  if ["true", "True", "TRUE"].any (·.toList == s) then some true
  else if ["false", "False", "FALSE"].any (·.toList == s) then some false
  else none

/-! ## Numbers -/

/-- The number that the digits write in the given base, of which there is one at least. -/
def digits? (base : Nat) (s : List Char) : Option Nat := do
  if s.isEmpty then none
  let values ← s.mapM hexValue?
  if values.all (· < base) then some (values.foldl (fun n d => n * base + d) 0) else none

/-- A decimal text with needless zeros in front, which is no number. -/
def isPadded (s : List Char) : Bool :=
  let body := if nextOf ['-', '+'] s then s.tail else s
  1 < body.length && body.head? == some '0' && body.all Char.isDigit

/-- A number without a sign, in base ten or with a mark for another base. -/
def magnitude? (s : List Char) : Option Nat :=
  match s with
  | '0' :: 'x' :: rest => digits? 16 rest
  | '0' :: 'o' :: rest => digits? 8 rest
  | '0' :: 'b' :: rest => digits? 2 rest
  | _ => digits? 10 s

def integer? (s : List Char) : Option Int :=
  if isPadded s then none
  else match s with
    | '-' :: rest => (magnitude? rest).map fun n => -Int.ofNat n
    | '+' :: rest => (magnitude? rest).map Int.ofNat
    | _ => (magnitude? s).map Int.ofNat

/-- A decimal number with an optional fraction and exponent, after its sign. -/
def decimalFloat? (negative : Bool) (s : List Char) : Option Scalar := do
  let isMark (c : Char) : Bool := c == 'e' || c == 'E'
  let mantissa := s.takeWhile fun c => !isMark c
  let whole := mantissa.takeWhile Char.isDigit
  let fraction := mantissa.drop (whole.length + 1)
  if whole.length < mantissa.length && (mantissa.drop whole.length).head? != some '.' then none
  if whole.isEmpty && fraction.isEmpty then none
  if !fraction.all Char.isDigit then none
  let exponent ←
    if mantissa.length < s.length then
      let e := s.drop (mantissa.length + 1)
      match e with
      | '-' :: ds => (digits? 10 ds).map fun n => -Int.ofNat n
      | '+' :: ds => (digits? 10 ds).map Int.ofNat
      | ds => (digits? 10 ds).map Int.ofNat
    else some 0
  let significand := (digits? 10 (whole ++ fraction)).getD 0
  let n ← Number.double? significand (exponent - fraction.length)
  return .float (if negative then -Int.ofNat n else Int.ofNat n)

/-- A float with its sign. -/
def float? (s : List Char) : Option Scalar :=
  let isOneOf (names : List String) : Bool := names.any (·.toList == s)
  if isOneOf [".inf", ".Inf", ".INF", "+.inf", "+.Inf", "+.INF"] then some (.special "inf")
  else if isOneOf ["-.inf", "-.Inf", "-.INF"] then some (.special "-inf")
  else if isOneOf [".nan", ".NaN", ".NAN"] then some (.special "nan")
  else match s with
    | '-' :: rest => decimalFloat? true rest
    | '+' :: rest => decimalFloat? false rest
    | _ => decimalFloat? false s

/-! ## Scalars -/

/-- What a plain scalar without a tag stands for, unless it is an integer that only 128 bits can
hold. -/
def plainScalar? (s : List Char) : Option Scalar :=
  if s.isEmpty || isNull s then some .null
  else match boolean? s with
    | some b => some (.boolean b)
    | none =>
      match integer? s with
      | some n =>
        if Number.isBetween 63 64 n then some (.integer n)
        else if Number.isBetween 127 128 n then none
        -- an integer beyond 128 bits is taken for a float
        else some ((float? s).getD (.string s))
      | none => if isPadded s then some (.string s) else some ((float? s).getD (.string s))

/-- The tag of a kind of scalar that has a form of its own. -/
def coreTag (name : String) : Tag := coreAddress ++ Bytes.ofString name

/-- What a scalar stands for, if its text fits its tag. With a tag of the document's own that is no
text it counts as one without. -/
def scalar? (text : List Char) (style : Style) (tag : Option Tag) : Option Scalar :=
  let untagged := if style = .plain then plainScalar? text else some (.string text)
  match tag with
  | none => untagged
  | some t =>
    if t = coreTag "bool" then (boolean? text).map .boolean
    else if t = coreTag "int" then
      match integer? text with
      | some n => if Number.isBetween 63 64 n then some (.integer n) else none
      | none => none
    else if t = coreTag "float" then float? text
    else if t = coreTag "null" then (if isNull text then some .null else none)
    else if Bytes.nextIs 0x21 t then untagged
    else some (.string text)

/-! ## Values -/

/-- What a node stands for. -/
inductive Value where
  | scalar (s : Scalar)
  | sequence (items : List Value)
  /-- The keys and, in the same order, their values. -/
  | mapping (keys values : List Value)
  | tagged (name : String) (value : Value)
deriving Repr

/-- A text that tells scalars apart, with its length or an end mark. -/
def Scalar.mark : Scalar → String
  | .null => "n"
  | .boolean b => if b then "t" else "f"
  | .integer n => "i" ++ toString n ++ ";"
  | .float n => "d" ++ toString n ++ ";"
  | .special name => "x" ++ name ++ ";"
  | .string text => "s" ++ toString text.length ++ ";" ++ String.ofList text

mutual

/-- A text that tells values apart. The order of the keys in a mapping makes no difference. -/
def Value.mark : Value → String
  | .scalar s => s.mark
  | .sequence items => "[" ++ String.join (marks items) ++ "]"
  | .mapping keys values =>
    let entries := (marks keys).zipWith (· ++ ·) (marks values)
    "(" ++ String.join (entries.mergeSort fun a b => decide (a ≤ b)) ++ ")"
  | .tagged name value => "!" ++ toString name.length ++ ";" ++ name ++ value.mark

/-- The texts of several values. -/
def marks : List Value → List String
  | [] => []
  | v :: rest => v.mark :: marks rest

end

/-! ## Nodes -/

/-- How deep sequences and mappings may nest. -/
def maxDepth : Nat := 128

/-- How many aliases may be followed for each node. -/
def maxRepetition : Nat := 100

/-- The name of a tag of the document's own, without the exclamation mark before it, and without a
second one, as long as something is left. -/
def tagName? (t : Tag) : Option String :=
  let strip (s : Tag) : Tag := if Bytes.nextIs 0x21 s && 1 < s.length then s.drop 1 else s
  let name := strip t
  if Bytes.nextIs 0x21 t && Utf8.valid name then
    some (String.ofList (Utf8.decode (strip name)))
  else none

namespace Document

/-- A reading that can follow as many aliases as the state says. -/
abbrev Reading := StateT Nat Option

/-- The node itself or, for an alias, what it stands for. -/
def follow (d : Document) : Node → Reading Node
  | .alias number => do
    let left ← get
    if left = 0 then failure
    set (left - 1)
    d.target? number
  | node => pure node

/-- The value with the tag of its node, if that is one of the document's own. -/
def withTag (tag : Option Tag) (v : Value) : Value :=
  match tag.bind tagName? with
  | some name => .tagged name v
  | none => v

/-- The value of a node with at most `depth` levels. A scalar with a tag of the document's own is
read as one without. -/
def value (d : Document) : (depth : Nat) → Node → Reading Value
  | depth, node => do
    match depth, ← d.follow node with
    | _, .scalar text style tag =>
      let core := tag.filter fun t => (tagName? t).isNone
      return withTag tag (.scalar (← scalar? text style core))
    | n + 1, .sequence items tag =>
      return withTag tag (.sequence (← items.mapM (d.value n)))
    | n + 1, .mapping keys values tag => do
      let ks ← keys.mapM (d.value n)
      -- keys are the same if their values are, however they are written
      let names := marks ks
      if names.eraseDups.length < names.length then failure
      return withTag tag (.mapping ks (← values.mapM (d.value n)))
    | _, _ => failure

/-- The value of a document. -/
def value? (d : Document) : Option Value :=
  ((d.value maxDepth d.root).run (maxRepetition * d.events)).map Prod.fst

end Document

/-- The document in a text, or the line from which on the text makes none. An empty text has no
document. -/
def parse (source : Bytes) : Except Nat (Option Document) := do
  match readDocument (← tokens source) with
  | some d => return d
  | none => throw 1

/-- Is the text one document that has a value? If not, the line of the problem. -/
def decode (source : Bytes) : Except Nat Unit := do
  match ← parse source with
  | none => return ()
  | some d => if d.value?.isSome then return () else throw 1

end SourceTidy.Yaml
