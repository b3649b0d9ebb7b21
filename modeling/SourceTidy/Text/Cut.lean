/-! # Cutting texts

A text is cut at each occurrence of a character. There is always one piece more than there are cuts.
-/

namespace SourceTidy.Text

/-- Cuts a text at each `c`. -/
def cutAt (c : Char) : List Char → List (List Char)
  | [] => [[]]
  | x :: rest =>
    if x = c then [] :: cutAt c rest
    else match cutAt c rest with
      | [] => [[x]]
      | piece :: pieces => (x :: piece) :: pieces

end SourceTidy.Text
