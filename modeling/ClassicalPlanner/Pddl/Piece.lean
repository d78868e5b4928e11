import ClassicalPlanner.Model.Error
import ClassicalPlanner.Text.Blank

/-!
# Pieces of a definition

A definition text is cut into pieces at one level of nesting: words, and groups whose contents stay
as written.  `Piece.split` counts open parentheses and fails where they do not match, quoting the
text from there on.
-/

namespace ClassicalPlanner.Pddl

/-- A word, or a group given by the text between its parentheses. -/
inductive Piece where
  | word (text : String)
  | group (inside : String)
deriving DecidableEq, Repr, Inhabited

namespace Piece

/-- A piece as it was written. -/
def text : Piece → String
  | word text => text
  | group inside => "(" ++ inside ++ ")"

/-- A piece that is a word. -/
def word? : Piece → Option String
  | word text => some text
  | group _ => none

/-- The contents of a piece that is a group. -/
def inside? : Piece → Option String
  | word _ => none
  | group inside => some inside

/-- The first forty characters of a text, to be quoted. -/
def excerpt (cs : List Char) : String := String.ofList (cs.take 40)

/-- A piece to be quoted. -/
def quoted (p : Piece) : String := excerpt p.text.toList

/-- Where the scan of a text stands; characters are kept in reverse. -/
inductive Scan where
  | between
  | inWord (read : List Char)
  /-- Inside a group that opened at `start`, with `depth` more groups open in it. -/
  | inGroup (start : List Char) (depth : Nat) (inside : List Char)

/-- The pieces that a scan adds when a text ends or a blank comes. -/
def Scan.pending : Scan → List Piece
  | .inWord read => [.word (String.ofList read.reverse)]
  | .between | .inGroup _ _ _ => []

/-- The pieces of the rest of a text. -/
def scan : Scan → List Char → Except Malformation (List Piece)
  | .inGroup start _ _, [] => .error (.unclosed (excerpt start))
  | s, [] => .ok s.pending
  | .inGroup start depth inside, c :: cs =>
    if c = '(' then scan (.inGroup start (depth + 1) (c :: inside)) cs
    else if c = ')' then
      match depth with
      | 0 => do return .group (String.ofList inside.reverse) :: (← scan .between cs)
      | depth + 1 => scan (.inGroup start depth (c :: inside)) cs
    else scan (.inGroup start depth (c :: inside)) cs
  | s, c :: cs =>
    if c = '(' then do return s.pending ++ (← scan (.inGroup (c :: cs) 0 []) cs)
    else if c = ')' then .error (.unopened (excerpt (c :: cs)))
    else if Text.isSeparator c then do return s.pending ++ (← scan .between cs)
    else match s with
      | .inWord read => scan (.inWord (c :: read)) cs
      | _ => scan (.inWord [c]) cs

/-- The pieces of a text. -/
def split (text : String) : Except Malformation (List Piece) := scan .between text.toList

end Piece

/-- The lines of a text without their ends: a line feed, or a carriage return and a line feed. -/
def lines (cs : List Char) : List (List Char) :=
  go [] cs
where
  /-- `line` is the line being read, backwards. -/
  go (line : List Char) : List Char → List (List Char)
    | [] => if line.isEmpty then [] else [line.reverse]
    | '\n' :: cs =>
      (match line with
        | '\r' :: line => line.reverse
        | line => line.reverse) :: go [] cs
    | c :: cs => go (c :: line) cs

/-- The text without comments, which go from a semicolon to the end of the line. -/
def stripComments (text : String) : String :=
  String.ofList (['\n'].intercalate ((lines text.toList).map (·.takeWhile (· != ';'))))

end ClassicalPlanner.Pddl
