/-!
# Pieces of texts
-/

namespace TileProgram
namespace Text

/-- The pieces between occurrences of a character; there is at least one. -/
def split (mark : Char) : List Char → List (List Char)
  | [] => [[]]
  | c :: rest =>
      if c = mark then [] :: split mark rest
      else
        match split mark rest with
        | [] => [[c]]
        | piece :: more => (c :: piece) :: more

/-- What stands before and after the first occurrence of a character. -/
def cut? (mark : Char) : List Char → Option (List Char × List Char)
  | [] => none
  | c :: rest =>
      if c = mark then some ([], rest)
      else (cut? mark rest).map fun (before, after) => (c :: before, after)

/-- What follows a beginning, if the text starts with it. -/
def after? : List Char → List Char → Option (List Char)
  | [], cs => some cs
  | _ :: _, [] => none
  | b :: beginning, c :: cs => if b = c then after? beginning cs else none

end Text
end TileProgram
