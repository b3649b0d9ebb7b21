/-! # TOML values

What a TOML document gives to a key. Only strings, booleans and lists are kept in full: settings use
nothing else.
-/

namespace SourceTidy.Toml

/-- The value of a key. -/
inductive Value where
  | string (text : String)
  | boolean (b : Bool)
  | integer (n : Int)
  | float
  | datetime
  | array (items : List Value)
  /-- A table written in one pair of braces. -/
  | table
deriving Repr

/-- What can be wrong with a document. -/
inductive Problem where
  | unexpectedCharacter
  | unexpectedEnd
  | invalidString
  | invalidValue
  | duplicateKey
  | tooDeep
deriving DecidableEq, Repr

def Problem.message : Problem → String
  | .unexpectedCharacter => "unexpected character"
  | .unexpectedEnd => "unexpected end of document"
  | .invalidString => "invalid string"
  | .invalidValue => "invalid value"
  | .duplicateKey => "duplicate key"
  | .tooDeep => "too deep nesting"

end SourceTidy.Toml
