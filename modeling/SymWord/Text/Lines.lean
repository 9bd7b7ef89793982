/-!
# Lines

Text, or bytes of which it is not yet known whether they are text, cut into lines. A separator ends
a line, so there is no line after the last separator.
-/

namespace SymWord

namespace Text

variable {α : Type} [DecidableEq α]

/-- The lines of a list, without their separators. -/
def lines (sep : α) : List α → List (List α)
  | [] => []
  | a :: rest =>
    if a = sep then [] :: lines sep rest
    else
      match lines sep rest with
      | [] => [[a]]
      | l :: ls => (a :: l) :: ls

end Text

end SymWord
