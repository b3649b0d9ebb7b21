import SourceTidy.Number
import SourceTidy.Toml.Text

/-! # TOML numbers and dates

A value without quotes is a word of letters, digits and a few signs. It is a boolean, an integer of
64 or 128 bits, a finite or named float, or a date, a time or both.
-/

namespace SourceTidy.Toml

/-! ## Numbers -/

/-- The digits of a group, underscores between two digits left out. -/
def groupedDigits? (isDigit : Char → Bool) : List Char → Option (List Char)
  | [] => none
  | [c] => if isDigit c then some [c] else none
  | c :: d :: rest =>
    if !isDigit c then none
    else if d = '_' then (groupedDigits? isDigit rest).map (c :: ·)
    else (groupedDigits? isDigit (d :: rest)).map (c :: ·)

/-- The number that the digits write in the given base. -/
def digitsValue (base : Nat) (digits : List Char) : Nat :=
  digits.foldl (fun n c => n * base + (hexValue? c).getD 0) 0

def isBelow (base : Nat) (c : Char) : Bool := (hexValue? c).any (· < base)

/-- A decimal number without needless zeros in front. -/
def decimal? (s : List Char) : Option Nat := do
  let digits ← groupedDigits? Char.isDigit s
  if digits.head? == some '0' && 1 < digits.length then none else some (digitsValue 10 digits)

/-- The sign of a number and what follows it. -/
def splitSign (s : List Char) : Bool × List Char :=
  match s with
  | '+' :: rest => (false, rest)
  | '-' :: rest => (true, rest)
  | _ => (false, s)

/-- How integers are held. -/
inductive Width where
  /-- In 64 bits with a sign. -/
  | narrow
  /-- In 128 bits, with or without a sign. -/
  | wide
deriving DecidableEq, Repr

def Width.fits (w : Width) (n : Int) : Bool :=
  match w with
  | .narrow => Number.isBetween 63 63 n
  | .wide => Number.isBetween 127 128 n

/-- An integer, in base ten or with a mark for another base. -/
def integer? (width : Width) (s : List Char) : Option Int := do
  let magnitude (base : Nat) (digits : List Char) : Option Int :=
    (groupedDigits? (isBelow base) digits).map fun ds => Int.ofNat (digitsValue base ds)
  let n ← match s with
    | '0' :: 'x' :: rest => magnitude 16 rest
    | '0' :: 'o' :: rest => magnitude 8 rest
    | '0' :: 'b' :: rest => magnitude 2 rest
    -- only decimal numbers have a sign
    | _ =>
      let (negative, body) := splitSign s
      (decimal? body).map fun n => if negative then -Int.ofNat n else Int.ofNat n
  if width.fits n then some n else none

/-- Is the word a float: a number with a fraction or an exponent, infinity, or no number at all? -/
def isFloat (s : List Char) : Bool :=
  let (_, body) := splitSign s
  if body == ['i', 'n', 'f'] || body == ['n', 'a', 'n'] then true
  else
    let isMark (c : Char) : Bool := c == 'e' || c == 'E'
    let mantissa := body.takeWhile fun c => !isMark c
    let exponentPart := body.drop (mantissa.length + 1)
    let whole := mantissa.takeWhile (· != '.')
    let fraction := mantissa.drop (whole.length + 1)
    let hasPoint := whole.length < mantissa.length
    let hasExponent := mantissa.length < body.length
    let (negative, exponentDigits) := splitSign exponentPart
    let fractionDigits? := if hasPoint then groupedDigits? Char.isDigit fraction else some []
    let exponentDigits? :=
      if hasExponent then groupedDigits? Char.isDigit exponentDigits else some []
    match decimal? whole, fractionDigits?, exponentDigits? with
    | some n, some fs, some es =>
      let e := Int.ofNat (digitsValue 10 es)
      (hasPoint || hasExponent) &&
        (Number.double? (n * Nat.pow 10 fs.length + digitsValue 10 fs)
          ((if negative then -e else e) - fs.length)).isSome
    | _, _, _ => false

/-! ## Dates and times -/

/-- The number of exactly `n` digits at the start of the text, and the rest. -/
def digits? (n : Nat) (s : List Char) : Option (Nat × List Char) :=
  let ds := s.take n
  if ds.length = n && ds.all Char.isDigit then some (digitsValue 10 ds, s.drop n) else none

/-- The text after `c`. -/
def after? (c : Char) (s : List Char) : Option (List Char) :=
  match s with
  | x :: rest => if x = c then some rest else none
  | [] => none

def isLeap (year : Nat) : Bool := year % 4 == 0 && (year % 100 != 0 || year % 400 == 0)

def daysIn (year month : Nat) : Nat :=
  if month = 2 then (if isLeap year then 29 else 28)
  else if [4, 6, 9, 11].contains month then 30
  else 31

/-- The text after a date `YYYY-MM-DD`. -/
def date? (s : List Char) : Option (List Char) := do
  let (year, s) ← digits? 4 s
  let (month, s) ← digits? 2 (← after? '-' s)
  let (day, s) ← digits? 2 (← after? '-' s)
  if 1 ≤ month && month ≤ 12 && 1 ≤ day && day ≤ daysIn year month then some s else none

/-- The text after the seconds of a time, which may be left out, and their fraction. -/
def seconds? (s : List Char) : Option (List Char) :=
  match s with
  | ':' :: rest => do
    let (second, rest) ← digits? 2 rest
    -- the number 60 is for a leap second
    if 60 < second then none
    else match rest with
      | '.' :: fraction =>
        let ds := fraction.takeWhile Char.isDigit
        if ds.isEmpty then none else some (fraction.drop ds.length)
      | _ => some rest
  | _ => some s

/-- The text after a time `HH:MM`, with or without seconds. -/
def time? (s : List Char) : Option (List Char) := do
  let (hour, s) ← digits? 2 s
  let (minute, s) ← digits? 2 (← after? ':' s)
  if hour ≤ 23 && minute ≤ 59 then seconds? s else none

/-- Is the text an offset from universal time, or empty? -/
def isOffset (s : List Char) : Bool :=
  match s with
  | [] | ['Z'] | ['z'] => true
  | sign :: rest =>
    if sign = '+' || sign = '-' then
      match digits? 2 rest with
      | some (hour, ':' :: rest) =>
        match digits? 2 rest with
        | some (minute, []) => hour ≤ 23 && minute ≤ 59
        | _ => false
      | _ => false
    else false

/-- Is the word a date, a time, or both? -/
def isDatetime (s : List Char) : Bool :=
  match date? s with
  | some [] => true
  | some (delimiter :: rest) =>
    (delimiter == 'T' || delimiter == 't' || delimiter == ' ') && (time? rest).any isOffset
  | none => time? s == some []

/-! ## Words -/

def isWordChar (c : Char) : Bool :=
  c.isAlphanum || c == '_' || c == '+' || c == '-' || c == '.' || c == ':'

/-- The word at the start of the text. A date takes a time after one space along. -/
def word (s : List Char) : List Char :=
  let first := s.takeWhile isWordChar
  if date? first == some [] then
    match s.drop first.length with
    | ' ' :: c :: rest =>
      if c.isDigit then first ++ ' ' :: (c :: rest).takeWhile isWordChar else first
    | _ => first
  else first

/-- The value that a word writes. -/
def wordValue? (width : Width) (w : List Char) : Option Value :=
  if w == ['t', 'r', 'u', 'e'] then some (.boolean true)
  else if w == ['f', 'a', 'l', 's', 'e'] then some (.boolean false)
  else match integer? width w with
    | some n => some (.integer n)
    | none => if isFloat w then some .float else if isDatetime w then some .datetime else none

end SourceTidy.Toml
