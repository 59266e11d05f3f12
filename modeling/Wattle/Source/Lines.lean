/-!
# The lines of a text

A line ends at a line feed, and one carriage return directly before the line feed belongs to the
line end. The text after the last line feed is a line only if it is not empty, and a carriage
return anywhere else is an ordinary character.
-/

namespace Wattle

def lines : List Char → List (List Char)
  | [] => []
  | '\n' :: rest => [] :: lines rest
  | '\r' :: '\n' :: rest => [] :: lines rest
  | c :: rest =>
    match lines rest with
    | [] => [[c]]
    | line :: others => (c :: line) :: others

end Wattle
