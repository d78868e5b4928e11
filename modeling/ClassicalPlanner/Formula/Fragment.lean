import ClassicalPlanner.Formula.Error
import ClassicalPlanner.Text.Blank

/-!
# Fragments of formula text

Formula text is a list of fragments: words, and parenthesised groups of fragments.  A group also
keeps its text as written.  `Fragment.ofChars` reads a text from left to right with a stack of open
groups; it fails exactly where parentheses do not match.
-/

namespace ClassicalPlanner

/-- A word, or a parenthesised group with the text between its parentheses. -/
inductive Fragment where
  | word (text : String)
  | group (inside : String) (parts : List Fragment)
deriving Repr, Inhabited

namespace Fragment

/-- A fragment as it was written. -/
def text : Fragment → String
  | word text => text
  | group inside _ => "(" ++ inside ++ ")"

/-- A group that is still open, or the whole text. -/
structure Frame where
  /-- The characters read so far. -/
  inside : String := ""
  /-- The fragments that are complete, in reverse. -/
  parts : List Fragment := []
  /-- The word being read. -/
  word : String := ""

namespace Frame

/-- Ends the word being read, if any. -/
def endWord (f : Frame) : Frame :=
  if f.word.isEmpty then f else { f with parts := .word f.word :: f.parts, word := "" }

/-- Reads a character that is no parenthesis. -/
def push (f : Frame) (c : Char) : Frame :=
  if Text.isSeparator c then { f.endWord with inside := f.inside.push c }
  else { f with inside := f.inside.push c, word := f.word.push c }

/-- The fragments of a frame that ends here. -/
def close (f : Frame) : List Fragment := f.endWord.parts.reverse

/-- Adds a group that has just been closed. -/
def pushGroup (f : Frame) (inner : Frame) : Frame :=
  { inside := f.inside ++ "(" ++ inner.inside ++ ")"
    parts := .group inner.inside inner.close :: f.parts
    word := "" }

end Frame

/-- Reads characters into the innermost frame; `outer` are the frames around it. -/
def read (frame : Frame) (outer : List Frame) :
    List Char → Except Imbalance (List Fragment)
  | [] => if outer.isEmpty then .ok frame.close else .error .unclosed
  | '(' :: cs => read {} (frame.endWord :: outer) cs
  | ')' :: cs =>
    match outer with
    | [] => .error .unopened
    | f :: outer => read (f.pushGroup frame) outer cs
  | c :: cs => read (frame.push c) outer cs

/-- The fragments of a text. -/
def ofChars (cs : List Char) : Except Imbalance (List Fragment) := read {} [] cs

/-- The fragments of a formula: blanks around it do not count, nor does one pair of parentheses
around all of it. -/
def ofFormula (text : String) : Except Imbalance (List Fragment) :=
  match ofChars (Text.trim text.toList) with
  | .ok [.group _ parts] => .ok parts
  | result => result

end Fragment

end ClassicalPlanner
