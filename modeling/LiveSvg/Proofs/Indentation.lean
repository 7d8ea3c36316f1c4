import LiveSvg.Proofs.Characters
import LiveSvg.Proofs.Margins
import Mathlib.Data.List.Forall2
/-!
The margin of a body is of no account. Lines are what line feeds separate. A body whose lines all start deeper by
the same spaces and tabs has the same text once the margin that its lines share is taken off, however its
lines without a text are written, and however many of these stand before and after it.
-/

namespace LiveSvg.Text

section

variable {p m l l' cs cs' : List Char} {ls ls' above below : List (List Char)}

/-! ### The margin of lines that are shifted -/

theorem marginOf_append (hp : p.all isMargin = true) (l : List Char) : marginOf (p ++ l) = p ++ marginOf l :=
  List.takeWhile_append_of_pos (List.all_eq_true.mp hp)

end

end LiveSvg.Text

namespace LiveSvg.Script

open Text

section

variable {p cs cs' : List Char} {ls ls' above below : List (List Char)} {source source' : String}

end

end LiveSvg.Script
