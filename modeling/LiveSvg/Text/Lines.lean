import LiveSvg.Text.Blank
/-!
Lines of a text and their margins: the margin that all lines share can be taken off, and one put
on again. Lines of blanks have no margin of their own.
-/

namespace LiveSvg.Text

/-- The margin of a line: the spaces and tabs that it starts with. -/
def isMargin (c : Char) : Bool := c == ' ' || c == '\t'

def marginOf (line : List Char) : List Char := line.takeWhile isMargin

/-- The longest common beginning. -/
def commonPrefix : List Char → List Char → List Char
  | a :: as, b :: bs => if a = b then a :: commonPrefix as bs else []
  | _, _ => []

/-- The margin that all lines share which hold more than spaces and tabs. -/
def sharedMargin (lines : List (List Char)) : List Char :=
  match (lines.filter fun l => !l.all isMargin).map marginOf with
  | [] => []
  | m :: rest => rest.foldl commonPrefix m

/-- The lines without the margin that they share; those of spaces and tabs become empty. -/
def withoutMargin (lines : List (List Char)) : List (List Char) :=
  let margin := (sharedMargin lines).length
  lines.map fun l => if l.all isMargin then [] else l.drop margin

/-- The text without the margin that its lines share. -/
def dedented (cs : List Char) : List Char :=
  ['\n'].intercalate (withoutMargin (splitAt '\n' cs))

/-- Whether a character ends a line. -/
def isLineEnd (c : Char) : Bool :=
  let n := c.toNat
  (10 ≤ n && n ≤ 13) || (28 ≤ n && n ≤ 30) || n == 0x85 || n == 0x2028 || n == 0x2029

/-- The lines of a text, each with its end. -/
def linesWithEnds : List Char → List (List Char)
  | [] => []
  | '\r' :: '\n' :: rest => ['\r', '\n'] :: linesWithEnds rest
  | c :: rest =>
    if isLineEnd c then [c] :: linesWithEnds rest
    else
      match linesWithEnds rest with
      | line :: lines => (c :: line) :: lines
      | [] => [[c]]

/-- The text with a margin before every line that is not blank. -/
def indented (margin cs : List Char) : List Char :=
  (linesWithEnds cs).flatMap fun l => if l.all isBlank then l else margin ++ l

/-- The text without the given character at its ends. -/
def trimmedOf (mark : Char) (cs : List Char) : List Char :=
  ((cs.dropWhile (· == mark)).reverse.dropWhile (· == mark)).reverse

/-- The text with every line ended alike, whether by a return, a line feed or both. -/
def withLineFeeds : List Char → List Char
  | [] => []
  | '\r' :: '\n' :: rest => '\n' :: withLineFeeds rest
  | c :: rest => (if c = '\r' then '\n' else c) :: withLineFeeds rest

end LiveSvg.Text
