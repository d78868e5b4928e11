/-!
# Characters of YAML

The classes of characters that a YAML text is read by, and the place of a reader in a text.  Every
text is read with its line ends unified: a line feed stands for a carriage return, for both together
and for the next-line character, while the line and the paragraph separator stay as they are.
-/

namespace ClassicalPlanner.Yaml

/-- A character that a YAML text may hold. -/
def isAllowed (c : Char) : Bool :=
  let n := c.toNat
  n == 0x9 || n == 0xA || n == 0xD || (0x20 ≤ n && n ≤ 0x7E) || n == 0x85
    || (0xA0 ≤ n && n ≤ 0xFFFD) || 0x10000 ≤ n

/-- The text with its line ends unified. -/
def unifyBreaks (text : List Char) : List Char := go [] text
where
  /-- `read` is the text before, backwards. -/
  go (read : List Char) : List Char → List Char
    | '\r' :: '\n' :: cs => go ('\n' :: read) cs
    | c :: cs => go ((if c == '\r' || c == '\x85' then '\n' else c) :: read) cs
    | [] => read.reverse

/-- A space or a tab. -/
def isBlank (c : Char) : Bool := c == ' ' || c == '\t'

/-- The end of a line. -/
def isBreak (c : Char) : Bool := c == '\n' || c == '\u2028' || c == '\u2029'

/-- Whether a word ends here: at a blank, the end of the line or of the text. -/
def atGap : List Char → Bool
  | [] => true
  | c :: _ => isBlank c || isBreak c

/-- Whether a line ends here. -/
def atBreak : List Char → Bool
  | [] => true
  | c :: _ => isBreak c

/-- A character of the names of anchors, directives and tag handles. -/
def isNameChar (c : Char) : Bool := c.isAlphanum || c == '_' || c == '-'

/-- A character that opens or closes a flow collection or separates its items. -/
def isFlowMark (c : Char) : Bool :=
  c == ',' || c == '[' || c == ']' || c == '\x7b' || c == '\x7d'

/-- The marker that starts a document. -/
def startMarker : List Char := ['-', '-', '-']

/-- The marker that ends a document. -/
def endMarker : List Char := ['.', '.', '.']

/-- Whether a line starts with a marker of a document's start or end. -/
def isMarkerLine (cs : List Char) : Bool :=
  (cs.take 3 == startMarker || cs.take 3 == endMarker) && atGap (cs.drop 3)

/-- The value of a hexadecimal digit. -/
def hexDigit? (c : Char) : Option Nat :=
  if c.isDigit then some (c.toNat - 48)
  else if 'a' ≤ c && c ≤ 'f' then some (c.toNat - 87)
  else if 'A' ≤ c && c ≤ 'F' then some (c.toNat - 55)
  else none

/-- A reader's place in a text. -/
structure Cursor where
  /-- The text still to be read. -/
  rest : List Char
  line : Nat := 0
  /-- The number of characters before `rest` on its line. -/
  column : Nat := 0
deriving Repr

namespace Cursor

/-- Goes on by a number of characters of the same line. -/
def advance (c : Cursor) (n : Nat) : Cursor :=
  { c with rest := c.rest.drop n, column := c.column + n }

/-- Goes on by the characters of the same line that satisfy a test. -/
def advanceWhile (c : Cursor) (p : Char → Bool) : Cursor :=
  c.advance (c.rest.takeWhile p).length

/-- Goes on behind the end of the line, if it is here. -/
def nextLine (c : Cursor) : Cursor :=
  if c.rest.head?.any isBreak then
    { rest := c.rest.drop 1, line := c.line + 1, column := 0 }
  else c

/-- Goes on behind blanks and a comment to the end of the line and beyond it; nothing else may
stand there. -/
def endLine? (c : Cursor) : Option Cursor :=
  let c := c.advanceWhile isBlank
  let c := if c.rest.head? == some '#' then c.advanceWhile (!isBreak ·) else c
  if atBreak c.rest then some c.nextLine else none

end Cursor

end ClassicalPlanner.Yaml
