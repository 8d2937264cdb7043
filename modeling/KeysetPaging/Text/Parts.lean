/-! # Texts in parts

A text is cut at every occurrence of one character. The pieces keep their order, and there is
always at least one.
-/

namespace KeysetPaging.Text

/-- The pieces of a text between the occurrences of a character. -/
def cutAt (mark : Char) : List Char → List (List Char)
  | [] => [[]]
  | c :: cs =>
      if c = mark then [] :: cutAt mark cs
      else match cutAt mark cs with
        | [] => [[c]]
        | piece :: rest => (c :: piece) :: rest

end KeysetPaging.Text
