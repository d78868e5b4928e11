/-!
# JSON text

Values as indented JSON: two spaces a level, one item a line, and empty lists and objects as `[]`
and as a pair of braces.
-/

namespace ClassicalPlanner.Text

/-- A JSON value. -/
inductive Json where
  | nat (n : Nat)
  | bool (b : Bool)
  | text (s : String)
  | list (items : List Json)
  | object (fields : List (String × Json))
deriving Repr, Inhabited

namespace Json

/-- A hexadecimal digit. -/
def hexDigit (n : Nat) : Char := Nat.digitChar (n % 16)

/-- A character inside a quoted text. -/
def quoteChar (c : Char) : List Char :=
  match c with
  | '"' => ['\\', '"']
  | '\\' => ['\\', '\\']
  | '\n' => ['\\', 'n']
  | '\r' => ['\\', 'r']
  | '\t' => ['\\', 't']
  | '\x08' => ['\\', 'b']
  | '\x0c' => ['\\', 'f']
  | c =>
    if c.toNat < 0x20 then ['\\', 'u', '0', '0', hexDigit (c.toNat / 16), hexDigit c.toNat] else [c]

/-- A text in quotes. -/
def quote (s : String) : String := "\"" ++ String.ofList (s.toList.flatMap quoteChar) ++ "\""

/-- The lines of a list or object. -/
def wrap (opening closing : String) (items : List (List String)) : List String :=
  match items with
  | [] => [opening ++ closing]
  | items => opening :: join items ++ [closing]
where
  /-- Indents items and puts a comma behind each but the last. -/
  join : List (List String) → List String
    | [] => []
    | [item] => item.map ("  " ++ ·)
    | item :: rest => (comma item).map ("  " ++ ·) ++ join rest
  /-- Puts a comma behind the last line. -/
  comma : List String → List String
    | [] => []
    | [line] => [line ++ ","]
    | line :: rest => line :: comma rest

/-- Puts the name of a field in front of its first line. -/
def label (name : String) : List String → List String
  | [] => []
  | line :: rest => (quote name ++ ": " ++ line) :: rest

mutual

/-- The lines of a value. -/
def lines : Json → List String
  | nat n => [toString n]
  | bool b => [if b then "true" else "false"]
  | text s => [quote s]
  | list items => wrap "[" "]" (itemLines items)
  | object fields => wrap "\x7b" "\x7d" (fieldLines fields)

/-- The lines of each item of a list. -/
def itemLines : List Json → List (List String)
  | [] => []
  | item :: rest => lines item :: itemLines rest

/-- The lines of each field of an object. -/
def fieldLines : List (String × Json) → List (List String)
  | [] => []
  | (name, value) :: rest => label name (lines value) :: fieldLines rest

end

end Json

end ClassicalPlanner.Text
