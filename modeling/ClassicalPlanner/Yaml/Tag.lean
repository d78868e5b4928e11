import ClassicalPlanner.Yaml.Character

/-!
# Tags, anchors and directives of YAML

A tag is a sequence of bytes, since a percent sign and two digits stand for a byte.  In a text it is
given as a handle and a suffix; `%TAG` directives say what handles stand for.
-/

namespace ClassicalPlanner.Yaml

/-- A tag of a node. -/
abbrev Tag := List UInt8

namespace Tag

/-- The tag with a text. -/
def ofString (text : String) : Tag := text.toUTF8.toList

/-- The tag that the standard gives a kind of scalar. -/
def standard (kind : String) : Tag := ofString ("tag:yaml.org,2002:" ++ kind)

/-- The tag of a single exclamation mark, which says nothing about a scalar that is there. -/
def unspecific : Tag := ofString "!"

/-- The name of a local tag, which starts with an exclamation mark. -/
def localName? (tag : Tag) : Option String :=
  match tag with
  | 0x21 :: name => String.fromUTF8? ⟨name.toArray⟩
  | _ => none

end Tag

/-- What handles stand for. -/
abbrev Handles := List (String × Tag)

namespace Handles

/-- The handles of every document that does not say otherwise. -/
def standard : Handles := [("!", Tag.unspecific), ("!!", Tag.standard "")]

/-- The tag that a handle and a suffix stand for.  Without a handle it is the suffix. -/
def tag? (handles : Handles) (handle : String) (suffix : Tag) : Option Tag :=
  if handle.isEmpty then some suffix
  else (handles.lookup handle).map (· ++ suffix)

end Handles

/-! ### Addresses -/

/-- A character of a tag; the separators of flow style are characters of some tags only. -/
def isTagChar (separators : Bool) (c : Char) : Bool :=
  isNameChar c || ";/?:@&=+$.%!~*'()".toList.contains c
    || (separators && (c == ',' || c == '[' || c == ']'))

/-- A byte written as a percent sign and two hexadecimal digits. -/
def percentByte? : List Char → Option UInt8
  | '%' :: high :: low :: _ => do
    return UInt8.ofNat ((← hexDigit? high) * 16 + (← hexDigit? low))
  | _ => none

/-- The number of bytes of a character whose first byte is given. -/
def byteCount? (first : UInt8) : Option Nat :=
  let n := first.toNat
  if n < 0x80 then some 1
  else if n < 0xC0 then none
  else if n < 0xE0 then some 2
  else if n < 0xF0 then some 3
  else if n < 0xF8 then some 4
  else none

/-- Reads bytes that continue a character. -/
def continuingBytes : Nat → Cursor → Option (Tag × Cursor)
  | 0, c => some ([], c)
  | n + 1, c => do
    let byte ← percentByte? c.rest
    if byte.toNat / 64 != 2 then failure
    let (bytes, c) ← continuingBytes n (c.advance 3)
    return (byte :: bytes, c)

/-- Reads the characters of a tag. -/
def tagChars (separators : Bool) : (bound : Nat) → Cursor → Option (Tag × Cursor)
  | 0, _ => none
  | bound + 1, c => do
    match c.rest with
    | [] => return ([], c)
    | char :: _ =>
      if char == '%' then
        let first ← percentByte? c.rest
        let (others, c) ← continuingBytes ((← byteCount? first) - 1) (c.advance 3)
        let (bytes, c) ← tagChars separators bound c
        return (first :: others ++ bytes, c)
      else if isTagChar separators char then
        let (bytes, c) ← tagChars separators bound (c.advance 1)
        return (UInt8.ofNat char.toNat :: bytes, c)
      else return ([], c)

/-- Reads the part of a tag behind `head`; the whole must have a character.  A byte zero ends a tag
whatever follows it. -/
def address (separators : Bool) (head : Option Tag) (c : Cursor) : Option (Tag × Cursor) := do
  let (bytes, next) ← tagChars separators (c.rest.length + 1) c
  if head.isNone && next.column == c.column then failure
  return ((head.getD [] ++ bytes).takeWhile (· != 0), next)

/-! ### Tags -/

/-- Reads what looks like a handle: an exclamation mark and a name, with a second exclamation mark
if there is one. -/
def handle (c : Cursor) : Option (String × Cursor) :=
  match c.rest with
  | '!' :: cs =>
    let name := cs.takeWhile isNameChar
    let closing := (cs.drop name.length).take 1
    let closing := if closing == ['!'] then closing else []
    let text := '!' :: name ++ closing
    some (String.ofList text, c.advance text.length)
  | _ => none

/-- Whether a text is a handle that a suffix follows. -/
def isClosedHandle (text : String) : Bool :=
  2 ≤ text.length && text.toList.getLast? == some '!'

/-- Reads a tag: `!<tag>`, a handle with a suffix, or an exclamation mark with a suffix that may be
empty.  A blank must follow, or in flow style a comma. -/
def tagToken (flow : Bool) (c : Cursor) : Option (String × Tag × Cursor) := do
  let (handle, suffix, c) ←
    if c.rest[1]? == some '<' then do
      let (suffix, c) ← address true none (c.advance 2)
      if c.rest.head? != some '>' then failure
      pure ("", suffix, c.advance 1)
    else do
      let (text, c) ← handle c
      if isClosedHandle text then
        let (suffix, c) ← address false none c
        pure (text, suffix, c)
      else
        let (suffix, c) ← address false (some (Tag.ofString (text.drop 1).toString)) c
        pure (if suffix.isEmpty then ("", Tag.unspecific, c) else ("!", suffix, c))
  if atGap c.rest || (flow && c.rest.head? == some ',') then return (handle, suffix, c) else failure

/-! ### Anchors -/

/-- Reads the name of an anchor or an alias, and looks at what follows it. -/
def anchorName (c : Cursor) : Option (String × Cursor) :=
  let name := c.rest.takeWhile isNameChar
  let next := c.advance name.length
  if !name.isEmpty && (atGap next.rest || next.rest.head?.any ("?:,]\x7d%@`".toList.contains ·)) then
    some (String.ofList name, next)
  else none

/-! ### Directives -/

/-- A directive in front of a document. -/
inductive Directive where
  | version (major minor : Nat)
  | handle (name : String) (tag : Tag)
deriving DecidableEq, Repr

/-- Reads a part of a version number, of nine digits at most. -/
def versionPart (c : Cursor) : Option (Nat × Cursor) :=
  let digits := c.rest.takeWhile Char.isDigit
  if digits.isEmpty || 9 < digits.length then none
  else some (digits.foldl (fun n d => n * 10 + (d.toNat - 48)) 0, c.advance digits.length)

/-- Reads a directive behind its percent sign, to the end of its line. -/
def directive (c : Cursor) : Option (Directive × Cursor) := do
  let name := c.rest.takeWhile isNameChar
  let c := c.advance name.length
  if !atGap c.rest then failure
  let c := c.advanceWhile isBlank
  match String.ofList name with
  | "YAML" =>
    let (major, c) ← versionPart c
    if c.rest.head? != some '.' then failure
    let (minor, c) ← versionPart (c.advance 1)
    return (.version major minor, ← c.endLine?)
  | "TAG" =>
    let (name, c) ← handle c
    if name != "!" && !isClosedHandle name then failure
    if !c.rest.head?.any isBlank then failure
    let (tag, c) ← address true none (c.advanceWhile isBlank)
    if !atGap c.rest then failure
    return (.handle name tag, ← c.endLine?)
  | _ => failure

end ClassicalPlanner.Yaml
