import ClassicalPlanner.Yaml.Character

/-!
# Scalars of YAML

The five styles of scalars: plain, in single or double quotes, literal and folded.  Each reader
starts behind the mark that tells the style and gives the text with the place behind it.

Between the lines of a plain or quoted scalar there is a `Gap`: its blanks vanish, a single line end
becomes a space, and of several the first vanishes.
-/

namespace ClassicalPlanner.Yaml

/-- How a scalar is written. -/
inductive Style where
  | plain
  | singleQuoted
  | doubleQuoted
  | literal
  | folded
deriving DecidableEq, Repr

/-! ### Gaps -/

/-- What stands between two words of a scalar.  Texts are kept backwards. -/
inductive Gap where
  /-- Blanks on one line. -/
  | blanks (read : List Char)
  /-- The first line end, if it counts, and those after it. -/
  | breaks (first later : List Char)

namespace Gap

/-- No gap. -/
def none : Gap := blanks []

/-- Whether there is no gap. -/
def isNone : Gap → Bool
  | blanks read => read.isEmpty
  | breaks _ _ => false

/-- Whether a line ends in the gap. -/
def isBroken : Gap → Bool
  | blanks _ => false
  | breaks _ _ => true

/-- The gap with one more blank or line end. -/
def add (c : Char) : Gap → Gap
  | blanks read => if isBreak c then breaks [c] [] else blanks (c :: read)
  | breaks first later => breaks first (if isBreak c then c :: later else later)

/-- The text that the gap stands for, backwards. -/
def text : Gap → List Char
  | blanks read => read
  | breaks first later =>
    if first != ['\n'] then later ++ first
    else if later.isEmpty then [' '] else later

end Gap

/-! ### Plain scalars -/

/-- Reads a plain scalar, of which `read` has been read backwards.  The lines after the first are
indented by `margin` at least, and not by tabs.  The gap behind the scalar is read with it. -/
def plainScalar (flow : Bool) (margin : Nat) (read : List Char) (gap : Gap) (line column : Nat) :
    List Char → Option (List Char × Gap × Cursor)
  | [] => some (read.reverse, gap, ⟨[], line, column⟩)
  | c :: cs =>
    if isBlank c then
      if gap.isBroken && c == '\t' && column < margin then none
      else plainScalar flow margin read (gap.add c) line (column + 1) cs
    else if isBreak c then plainScalar flow margin read (gap.add c) (line + 1) 0 cs
    else if !gap.isNone
        && (c == '#' || (column == 0 && isMarkerLine (c :: cs)) || (!flow && column < margin)) then
      some (read.reverse, gap, ⟨c :: cs, line, column⟩)
    else if flow && c == ':' && cs.head?.any (fun next => isFlowMark next || next == '?') then none
    else if (c == ':' && atGap cs) || (flow && isFlowMark c) then
      some (read.reverse, gap, ⟨c :: cs, line, column⟩)
    else plainScalar flow margin (c :: (gap.text ++ read)) .none line (column + 1) cs

/-! ### Quoted scalars -/

/-- Reads a single-quoted scalar, in which a quote is written twice.  A line must not look like a
marker. -/
def singleQuoted (read : List Char) (gap : Gap) (line column : Nat) :
    List Char → Option (List Char × Cursor)
  | [] => none
  | '\'' :: '\'' :: cs =>
    singleQuoted ('\'' :: (gap.text ++ read)) .none line (column + 2) cs
  | c :: cs =>
    if isBlank c then singleQuoted read (gap.add c) line (column + 1) cs
    else if isBreak c then singleQuoted read (gap.add c) (line + 1) 0 cs
    else if c == '\'' then some ((gap.text ++ read).reverse, ⟨cs, line, column + 1⟩)
    else if column == 0 && isMarkerLine (c :: cs) then none
    else singleQuoted (c :: (gap.text ++ read)) .none line (column + 1) cs

/-- The character that a letter stands for after a backslash. -/
def escaped? : Char → Option Char
  | '0' => some '\x00'
  | 'a' => some '\x07'
  | 'b' => some '\x08'
  | 't' => some '\t'
  | '\t' => some '\t'
  | 'n' => some '\n'
  | 'v' => some '\x0b'
  | 'f' => some '\x0c'
  | 'r' => some '\r'
  | 'e' => some '\x1b'
  | ' ' => some ' '
  | '"' => some '"'
  | '/' => some '/'
  | '\\' => some '\\'
  | 'N' => some '\x85'
  | '_' => some '\xa0'
  | 'L' => some '\u2028'
  | 'P' => some '\u2029'
  | _ => none

/-- The number of hexadecimal digits after a letter that follows a backslash. -/
def escapeWidth? : Char → Option Nat
  | 'x' => some 2
  | 'u' => some 4
  | 'U' => some 8
  | _ => none

/-- Reads a character written by its number in a number of hexadecimal digits. -/
def numbered? (width : Nat) (cs : List Char) : Option Char := do
  let digits ← (cs.take width).mapM hexDigit?
  let code := digits.foldl (fun n d => n * 16 + d) 0
  if digits.length = width ∧ code.isValidChar then some (Char.ofNat code) else none

/-- Reads a double-quoted scalar.  A backslash before a line end takes it away; blanks before the
backslash stay. -/
def doubleQuoted : (bound : Nat) → (read : List Char) → Gap → Cursor → Option (List Char × Cursor)
  | 0, _, _, _ => none
  | bound + 1, read, gap, ⟨rest, line, column⟩ =>
    match rest with
    | [] => none
    | c :: cs =>
      if isBlank c then doubleQuoted bound read (gap.add c) ⟨cs, line, column + 1⟩
      else if isBreak c then doubleQuoted bound read (gap.add c) ⟨cs, line + 1, 0⟩
      else
        let read := gap.text ++ read
        if c == '"' then some (read.reverse, ⟨cs, line, column + 1⟩)
        else if column == 0 && isMarkerLine (c :: cs) then none
        else if c != '\\' then doubleQuoted bound (c :: read) .none ⟨cs, line, column + 1⟩
        else
          match cs with
          | [] => none
          | mark :: cs =>
            if isBreak mark then doubleQuoted bound read (.breaks [] []) ⟨cs, line + 1, 0⟩
            else
              match escaped? mark, escapeWidth? mark with
              | some c, _ => doubleQuoted bound (c :: read) .none ⟨cs, line, column + 2⟩
              | none, some width =>
                match numbered? width cs with
                | some c =>
                  doubleQuoted bound (c :: read) .none ⟨cs.drop width, line, column + 2 + width⟩
                | none => none
              | none, none => none

/-! ### Block scalars -/

/-- What becomes of the line ends behind a block scalar. -/
inductive Chomping where
  | strip
  /-- The first line end stays. -/
  | clip
  | keep
deriving DecidableEq, Repr

namespace Chomping

/-- The chomping that a sign asks for. -/
def ofSign? : Char → Option Chomping
  | '-' => some strip
  | '+' => some keep
  | _ => none

end Chomping

/-- Reads the header of a block scalar: a sign and a digit, each of which may be left out, in either
order. -/
def blockHeader (c : Cursor) : Chomping × Option Nat × Cursor :=
  let sign? (c : Cursor) : Option Chomping := c.rest.head?.bind Chomping.ofSign?
  let digit? (c : Cursor) : Option Nat :=
    (c.rest.head?.filter Char.isDigit).map fun d => d.toNat - 48
  match sign? c, digit? c with
  | some chomping, _ =>
    match digit? (c.advance 1) with
    | some n => (chomping, some n, c.advance 2)
    | none => (chomping, none, c.advance 1)
  | none, some n =>
    match sign? (c.advance 1) with
    | some chomping => (chomping, some n, c.advance 2)
    | none => (.clip, some n, c.advance 1)
  | none, none => (.clip, none, c)

/-- Skips indentation and empty lines in front of a line of a block scalar.  Without a given
indentation all spaces are skipped.  Gives the line ends, backwards, and the greatest indentation
met. -/
def blockGap (indent : Option Nat) (breaks : List Char) (deepest line column : Nat) :
    List Char → Option (List Char × Nat × Cursor)
  | [] => some (breaks, max deepest column, ⟨[], line, column⟩)
  | c :: cs =>
    let outside := indent.all (column < ·)
    if c == ' ' && outside then blockGap indent breaks deepest line (column + 1) cs
    else if c == '\t' && outside then none
    else if isBreak c then
      blockGap indent (c :: breaks) (max deepest column) (line + 1) 0 cs
    else some (breaks, max deepest column, ⟨c :: cs, line, column⟩)

/-- What has been read of a block scalar: its text, the end of its last line and the empty lines
after that, all backwards. -/
structure BlockText where
  read : List Char := []
  lineEnd : List Char := []
  empty : List Char := []
  /-- Whether the last line started with a blank. -/
  indented : Bool := false

namespace BlockText

/-- The text up to a new line.  In a folded scalar the line end between two lines becomes a space,
unless one of them starts with a blank or there are empty lines between them. -/
def beforeLine (t : BlockText) (folded indented : Bool) : List Char :=
  if folded && t.lineEnd == ['\n'] && !t.indented && !indented then
    t.empty ++ (if t.empty.isEmpty then ' ' :: t.read else t.read)
  else t.empty ++ (t.lineEnd ++ t.read)

/-- The whole text. -/
def finish (t : BlockText) (chomping : Chomping) : List Char :=
  (match chomping with
    | .strip => t.read
    | .clip => t.lineEnd ++ t.read
    | .keep => t.empty ++ (t.lineEnd ++ t.read)).reverse

end BlockText

/-- Reads the lines of a block scalar with a given indentation. -/
def blockLines (folded : Bool) (indent : Nat) :
    (bound : Nat) → BlockText → Cursor → Option (BlockText × Cursor)
  | 0, _, _ => none
  | bound + 1, t, c =>
    if c.column != indent || c.rest.isEmpty then some (t, c)
    else do
      let indented := c.rest.head?.any isBlank
      let content := c.rest.takeWhile (!isBreak ·)
      let c := c.advance content.length
      let lineEnd := c.rest.take 1
      let c := c.nextLine
      let (empty, _, next) ← blockGap (some indent) [] 0 c.line c.column c.rest
      blockLines folded indent bound
        { read := content.reverse ++ t.beforeLine folded indented, lineEnd, empty, indented } next

/-- Reads a block scalar.  Its indentation is counted from the column before `margin`; if it is not
given, it is that of the first line that is not empty, or more if an empty line is indented more. -/
def blockScalar (folded : Bool) (margin : Nat) (c : Cursor) : Option (List Char × Cursor) := do
  let (chomping, digit, c) := blockHeader c
  if digit == some 0 then failure
  let c ← c.endLine?
  let given := digit.map (margin - 1 + ·)
  let (empty, deepest, c) ← blockGap given [] 0 c.line c.column c.rest
  let indent := given.getD (max deepest (max margin 1))
  let (t, c) ← blockLines folded indent (c.rest.length + 1) { empty } c
  return (t.finish chomping, c)

end ClassicalPlanner.Yaml
