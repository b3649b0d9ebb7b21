import SourceTidy.Text.Alphanumeric

/-! # Patterns of field values

A directive can ask for the value of a field: true, false, a number, or a pattern for a text. A
pattern is a regular expression with groups, classes in brackets, repetitions and escapes. Since a
closing brace ends the field, no pattern has a count or a name in braces.

* `isPattern`: is a text a regular expression?
* `isFieldValue`: is it a value to ask for?
-/

namespace SourceTidy.LogFilter

/-! ## Escapes -/

/-- What one piece of a pattern stands for. -/
inductive Piece where
  | literal (c : Char)
  /-- One character of a set. -/
  | set
  /-- The start or the end of the text. -/
  | edge
deriving DecidableEq, Repr

def hexDigit? (c : Char) : Option Nat :=
  if '0' ≤ c && c ≤ '9' then some (c.toNat - '0'.toNat)
  else if 'a' ≤ c && c ≤ 'f' then some (c.toNat - 'a'.toNat + 10)
  else if 'A' ≤ c && c ≤ 'F' then some (c.toNat - 'A'.toNat + 10)
  else none

/-- The character whose number has `n` hexadecimal digits at the start of the text. -/
def numbered? (n : Nat) (text : List Char) : Option (Piece × Nat) := do
  let digits ← (text.take n).mapM hexDigit?
  let code := digits.foldl (fun v d => v * 16 + d) 0
  if digits.length = n && code.isValidChar then some (.literal (Char.ofNat code), n + 1) else none

/-- The letters that stand for a control character. -/
def controls : List (Char × Nat) :=
  [('a', 0x07), ('f', 0x0C), ('t', 0x09), ('n', 0x0A), ('r', 0x0D), ('v', 0x0B)]

/-- The letters of the categories of characters. -/
def categories : List Char := ['L', 'M', 'N', 'P', 'S', 'Z', 'C']

/-- An escape after its backslash: what it stands for, and its extent. The edges of words cannot be
asked for. -/
def escape? : List Char → Option (Piece × Nat)
  | [] => none
  | c :: rest =>
    if c = 'x' then numbered? 2 rest
    else if c = 'u' then numbered? 4 rest
    else if c = 'U' then numbered? 8 rest
    else if c = 'p' || c = 'P' then
      if rest.head?.any fun x => categories.contains x.toUpper then some (.set, 2) else none
    else if ['d', 'D', 's', 'S', 'w', 'W'].contains c then some (.set, 1)
    else if c = 'A' || c = 'z' then some (.edge, 1)
    else match controls.lookup c with
      | some n => some (.literal (Char.ofNat n), 1)
      | none =>
        -- any other sign stands for itself
        if c.toNat < 0x80 && !c.isAlphanum && c != '<' && c != '>' then some (.literal c, 1)
        else none

/-! ## Classes in brackets -/

/-- One member of a class and its extent. -/
def member? : List Char → Option (Piece × Nat)
  | [] => none
  | '\\' :: rest =>
    match escape? rest with
    | some (.edge, _) | none => none
    | some (piece, n) => some (piece, n + 1)
  | c :: _ => some (.literal c, 1)

/-- The extent of a member, or of two with a dash between them. -/
def range? (text : List Char) : Option Nat := do
  let (low, n) ← member? text
  match text.drop n with
  | '-' :: c :: rest =>
    -- a last dash stands for itself, and two dashes are a difference of classes
    if c = ']' || c = '-' then some n
    else
      let (high, m) ← member? (c :: rest)
      match low, high with
      | .literal a, .literal b => if a ≤ b then some (n + 1 + m) else none
      | _, _ => none
  | _ => some n

/-- The extent of what may only stand at the start of a class: a negation, and dashes or a bracket
that stand for themselves. -/
def classStart (text : List Char) : Nat :=
  let negation := if text.head? == some '^' then 1 else 0
  let dashes := ((text.drop negation).takeWhile (· == '-')).length
  let bracket := if dashes = 0 && (text.drop negation).head? == some ']' then 1 else 0
  negation + dashes + bracket

/-- The names of classes that can stand between colons. -/
def classNames : List String :=
  ["alnum", "alpha", "ascii", "blank", "cntrl", "digit", "graph", "lower", "print", "punct",
   "space", "upper", "word", "xdigit"]

/-- The extent of a class by name after its bracket, as in `[:alpha:]`. -/
def namedClass? (text : List Char) : Option Nat :=
  match text with
  | ':' :: rest =>
    let negation := if rest.head? == some '^' then 1 else 0
    let name := (rest.drop negation).takeWhile Char.isAlpha
    if classNames.contains (String.ofList name) &&
        [':', ']'].isPrefixOf (rest.drop (negation + name.length)) then
      some (negation + name.length + 3)
    else none
  | _ => none

/-- The extent of the rest of a class inside of `levels` others; the first `skip` characters have
been read. -/
def classRest : (levels skip : Nat) → List Char → Option Nat
  | _, _, [] => none
  | levels, skip + 1, _ :: rest => (classRest levels skip rest).map (· + 1)
  | levels, 0, c :: rest =>
    if c = ']' then
      match levels with
      | 0 => some 1
      | outer + 1 => (classRest outer 0 rest).map (· + 1)
    else if c = '[' then
      match namedClass? rest with
      | some n => (classRest levels n rest).map (· + 1)
      | none => (classRest (levels + 1) (classStart rest) rest).map (· + 1)
    -- two of these signs are an operation on classes
    else if ['&', '-', '~'].contains c && rest.head? == some c then
      (classRest levels 1 rest).map (· + 1)
    else
      match range? (c :: rest) with
      | some n => (classRest levels (n - 1) rest).map (· + 1)
      | none => none

/-! ## Groups -/

/-- What has been read of a pattern. -/
structure Progress where
  /-- How many groups are open. -/
  groups : Nat := 0
  /-- Does something stand here that can be repeated? -/
  repeatable : Bool := false
  /-- The names of the groups so far. -/
  names : List (List Char) := []
deriving Repr

/-- Flags, without the mark that ends them. Each comes once, and after a dash there is one at
least. -/
def areFlags (flags : List Char) : Bool :=
  flags.all (['i', 'm', 's', 'U', 'u', 'R', 'x', '-'].contains ·) && flags.eraseDups == flags &&
    flags.getLast? != some '-'

/-- The name of a group. -/
def isGroupName (name : List Char) : Bool :=
  match name with
  | [] => false
  | c :: rest =>
    (c == '_' || (Text.isAlphanumeric c && !c.isDigit)) &&
      rest.all fun c => ['_', '.', '[', ']'].contains c || Text.isAlphanumeric c

/-- A group with a name, of which `extent` characters have been read before the name. -/
def namedGroup? (p : Progress) (extent : Nat) (text : List Char) : Option (Progress × Nat) :=
  let name := text.takeWhile (· != '>')
  if name.length < text.length && isGroupName name && !p.names.contains name then
    some ({ groups := p.groups + 1, names := name :: p.names }, extent + name.length + 1)
  else none

/-- What follows the parenthesis of a group, and its extent: a name, flags, or nothing. -/
def group? (p : Progress) (text : List Char) : Option (Progress × Nat) :=
  match text with
  | '?' :: 'P' :: '<' :: rest => namedGroup? p 3 rest
  | '?' :: '<' :: rest => namedGroup? p 2 rest
  | '?' :: rest =>
    let flags := rest.takeWhile fun c => c != ':' && c != ')'
    let extent := flags.length + 2
    if !areFlags flags then none
    else match rest.drop flags.length with
      | ':' :: _ => some ({ p with groups := p.groups + 1, repeatable := false }, extent)
      -- flags for what follows, which open no group
      | ')' :: _ => if flags.isEmpty then none else some ({ p with repeatable := false }, extent)
      | _ => none
  | _ => some ({ p with groups := p.groups + 1, repeatable := false }, 0)

/-! ## Patterns -/

/-- Is the text the rest of a pattern? The first `skip` characters have been read. -/
def isPatternRest : Progress → (skip : Nat) → List Char → Bool
  | p, _, [] => p.groups == 0
  | p, skip + 1, _ :: rest => isPatternRest p skip rest
  | p, 0, c :: rest =>
    let atom : Progress := { p with repeatable := true }
    if c = '(' then
      match group? p rest with
      | some (p', n) => isPatternRest p' n rest
      | none => false
    else if c = ')' then p.groups != 0 && isPatternRest { atom with groups := p.groups - 1 } 0 rest
    else if c = '|' then isPatternRest { p with repeatable := false } 0 rest
    else if c = '[' then
      match classRest 0 (classStart rest) rest with
      | some n => isPatternRest atom n rest
      | none => false
    else if ['?', '*', '+'].contains c then
      -- a question mark after the sign makes the repetition a short one
      p.repeatable && isPatternRest p (if rest.head? == some '?' then 1 else 0) rest
    -- a count would need a closing brace, which ends the field
    else if c = '{' then false
    else if c = '\\' then
      match escape? rest with
      | some (_, n) => isPatternRest atom n rest
      | none => false
    else isPatternRest atom 0 rest

/-- Is the text a regular expression? -/
def isPattern (text : List Char) : Bool := isPatternRest {} 0 text

/-! ## Values -/

/-- Is the text a number: digits with an optional sign, point and exponent, or the name of one? -/
def isNumber (text : List Char) : Bool :=
  let isSign (c : Char) : Bool := c == '+' || c == '-'
  let body := if text.head?.any isSign then text.tail else text
  let mantissa := body.takeWhile fun c => c != 'e' && c != 'E'
  let whole := mantissa.takeWhile Char.isDigit
  let fraction := mantissa.drop (whole.length + 1)
  let exponent := body.drop (mantissa.length + 1)
  let digits := if exponent.head?.any isSign then exponent.tail else exponent
  let hasMantissa :=
    (mantissa.length == whole.length || (mantissa.drop whole.length).head? == some '.') &&
      fraction.all Char.isDigit && !(whole.isEmpty && fraction.isEmpty)
  let hasExponent :=
    mantissa.length == body.length || (!digits.isEmpty && digits.all Char.isDigit)
  ["inf", "infinity", "nan"].any (·.toList == body.map Char.toLower) || (hasMantissa && hasExponent)

/-- Can a field be asked for the value? Words and texts are patterns. -/
def isFieldValue (text : List Char) : Bool := isNumber text || isPattern text

end SourceTidy.LogFilter
