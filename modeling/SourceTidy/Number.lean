/-! # Ranges of numbers

The formats hold integers in words of 64 or 128 bits and floats in doubles of 64 bits. What is out
of range, and which floats are the same, is decided on exact numbers.
-/

namespace SourceTidy.Number

/-- Is the number at least `-2 ^ negative` and less than `2 ^ positive`? -/
def isBetween (negative positive : Nat) (n : Int) : Bool :=
  -Int.ofNat (Nat.pow 2 negative) ≤ n && n < Int.ofNat (Nat.pow 2 positive)

/-! ## Doubles

A double is a multiple of `2 ^ -1074` with at most 53 binary places, less than `2 ^ 1024`. -/

/-- The least number that rounds to an infinite double. -/
def infinite : Nat := Nat.pow 2 1024 - Nat.pow 2 970

/-- The quotient rounded to a whole number, a tie going to the even neighbour. -/
def roundQuotient (n d : Nat) : Nat :=
  let rest := n % d
  if 2 * rest > d || (2 * rest = d && n / d % 2 = 1) then n / d + 1 else n / d

/-- The quotient rounded to 53 binary places or, if it has fewer before the point, to a whole
number. -/
def roundPlaces (n d : Nat) : Nat :=
  let unit := Nat.pow 2 ((n / d).log2 + 1 - 53)
  roundQuotient n (d * unit) * unit

/-- The double nearest to `significand * 10 ^ exponent`, in multiples of `2 ^ -1074`, unless it is
infinite. -/
def double? (significand : Nat) (exponent : Int) : Option Nat :=
  let raised := exponent.toNat
  let lowered := (-exponent).toNat
  if significand = 0 then some 0
  -- powers that decide by their size alone are not computed
  else if raised > 310 then none
  else if significand.log2 + 1080 < 3 * lowered then some 0
  else
    let n := roundPlaces (significand * Nat.pow 10 raised * Nat.pow 2 1074) (Nat.pow 10 lowered)
    if n < Nat.pow 2 2098 then some n else none

end SourceTidy.Number
