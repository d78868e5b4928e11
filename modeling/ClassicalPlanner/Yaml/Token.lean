import ClassicalPlanner.Yaml.Scalar
import ClassicalPlanner.Yaml.Tag

/-!
# Tokens of YAML

A text is cut into tokens (`Token.ofChars?`).  Block collections have no marks of their own: their
tokens come from the columns at which entries start.  A key of a mapping is recognized only when the
colon behind it is met; its token is then put in front of the tokens of the key.
-/

namespace ClassicalPlanner.Yaml

/-- A token of a YAML text. -/
inductive Token where
  | directive (directive : Directive)
  | documentStart
  | documentEnd
  | blockSequence
  | blockMapping
  /-- The end of a block collection. -/
  | blockEnd
  | flowSequence
  | flowSequenceEnd
  | flowMapping
  | flowMappingEnd
  /-- The dash in front of an item. -/
  | item
  /-- The comma of flow collections. -/
  | separator
  | key
  | value
  | alias (name : String)
  | anchor (name : String)
  | tag (handle : String) (suffix : Tag)
  | scalar (text : String) (style : Style)
deriving DecidableEq, Repr

/-- A place where the key of a mapping may have started. -/
structure PossibleKey where
  /-- The number of tokens in front of it. -/
  index : Nat
  line : Nat
  column : Nat
  /-- Whether nothing but a key can stand there. -/
  required : Bool

/-- How far a text has been cut. -/
structure Cutting where
  cursor : Cursor
  tokens : Array Token := #[]
  /-- The least column of text inside the innermost block collection; zero outside of all. -/
  margin : Nat := 0
  /-- The margins of the block collections around that one, and zero. -/
  outerMargins : List Nat := []
  /-- The key that may have started in the innermost flow collection, or outside of all. -/
  key? : Option PossibleKey := none
  /-- The same for the collections around it, from the inside. -/
  outerKeys : List (Option PossibleKey) := []
  /-- Whether a key may start here. -/
  keyAllowed : Bool := true

namespace Cutting

/-- Whether the text is in flow style here. -/
def inFlow (s : Cutting) : Bool := !s.outerKeys.isEmpty

/-- Adds a token. -/
def push (s : Cutting) (t : Token) : Cutting := { s with tokens := s.tokens.push t }

/-- Goes on behind a number of characters. -/
def advance (s : Cutting) (n : Nat) : Cutting := { s with cursor := s.cursor.advance n }

/-! ### Keys -/

/-- Forgets the key that may have started; it fails if there has to be one. -/
def dropKey (s : Cutting) : Option Cutting :=
  if s.key?.any (·.required) then none else some { s with key? := none }

/-- Notes that a key may start here, if it may. -/
def noteKey (s : Cutting) : Option Cutting :=
  if s.keyAllowed then do
    let s ← s.dropKey
    return { s with key? := some {
      index := s.tokens.size, line := s.cursor.line, column := s.cursor.column
      required := !s.inFlow && s.margin == s.cursor.column + 1 } }
  else some s

/-- Forgets a key that has become too long: a key stands on one line and has at most 1024
characters. -/
def freshKey (c : Cursor) (key? : Option PossibleKey) : Option (Option PossibleKey) :=
  match key? with
  | some key =>
    if key.line < c.line || key.column + 1024 < c.column then
      if key.required then none else some none
    else some key
  | none => some none

/-- Forgets all keys that have become too long. -/
def dropLongKeys (s : Cutting) : Option Cutting := do
  let key? ← freshKey s.cursor s.key?
  let outerKeys ← s.outerKeys.mapM (freshKey s.cursor)
  return { s with key?, outerKeys }

/-! ### Block collections -/

/-- Opens a block collection whose entries start in a column, unless one is open there; its token is
put behind `index` tokens. -/
def openBlock (s : Cutting) (column index : Nat) (t : Token) : Cutting :=
  if s.inFlow || column < s.margin then s
  else { s with
    tokens := s.tokens.insertIdxIfInBounds index t
    margin := column + 1
    outerMargins := s.margin :: s.outerMargins }

/-- Closes block collections until `margin` is at most `limit`. -/
def closeMargins (limit margin : Nat) (tokens : Array Token) :
    List Nat → Array Token × Nat × List Nat
  | [] => (tokens, margin, [])
  | outer :: outers =>
    if limit < margin then closeMargins limit outer (tokens.push .blockEnd) outers
    else (tokens, margin, outer :: outers)

/-- Closes the block collections whose margin is greater than `limit`.  Flow style knows none. -/
def closeBlocks (s : Cutting) (limit : Nat) : Cutting :=
  if s.inFlow then s
  else
    let (tokens, margin, outerMargins) := closeMargins limit s.margin s.tokens s.outerMargins
    { s with tokens, margin, outerMargins }

/-! ### Blanks -/

/-- Skips blanks, comments and line ends.  Tabs are blanks only where no key can start.  A line of
block style may start a key. -/
def skipBlanks : (bound : Nat) → Cutting → Cutting
  | 0, s => s
  | bound + 1, s =>
    let c := s.cursor
    let c := if c.column == 0 && c.rest.head? == some '\ufeff' then c.advance 1 else c
    let tabs := s.inFlow || !s.keyAllowed
    let c := c.advanceWhile fun char => char == ' ' || (tabs && char == '\t')
    let c := if c.rest.head? == some '#' then c.advanceWhile (!isBreak ·) else c
    if c.rest.head?.any isBreak then
      skipBlanks bound { s with cursor := c.nextLine, keyAllowed := s.keyAllowed || !s.inFlow }
    else { s with cursor := c }

/-! ### Tokens -/

/-- A marker of a document's start or end, or a directive: all collections end. -/
def atMargin (s : Cutting) : Option Cutting := do
  return { ← (s.closeBlocks 0).dropKey with keyAllowed := false }

/-- The start of a flow collection. -/
def openFlow (s : Cutting) (t : Token) : Option Cutting := do
  let s ← s.noteKey
  return ({ s with outerKeys := s.key? :: s.outerKeys, key? := none, keyAllowed := true }.advance 1).push t

/-- The end of a flow collection. -/
def closeFlow (s : Cutting) (t : Token) : Option Cutting := do
  let s ← s.dropKey
  let s := match s.outerKeys with
    | [] => s
    | key? :: outerKeys => { s with key?, outerKeys }
  return ({ s with keyAllowed := false }.advance 1).push t

/-- The comma between entries of a flow collection. -/
def cutSeparator (s : Cutting) : Option Cutting := do
  return ({ ← s.dropKey with keyAllowed := true }.advance 1).push .separator

/-- The dash in front of an item. -/
def cutItem (s : Cutting) : Option Cutting := do
  if !s.inFlow && !s.keyAllowed then failure
  let s := s.openBlock s.cursor.column s.tokens.size .blockSequence
  return ({ ← s.dropKey with keyAllowed := true }.advance 1).push .item

/-- The question mark in front of a key. -/
def cutKey (s : Cutting) : Option Cutting := do
  if !s.inFlow && !s.keyAllowed then failure
  let s := s.openBlock s.cursor.column s.tokens.size .blockMapping
  return ({ ← s.dropKey with keyAllowed := !s.inFlow }.advance 1).push .key

/-- The colon in front of a value.  If a key may have started, it was one. -/
def cutValue (s : Cutting) : Option Cutting :=
  match s.key? with
  | some key =>
    let s := { s with tokens := s.tokens.insertIdxIfInBounds key.index .key }
    let s := s.openBlock key.column key.index .blockMapping
    some (({ s with key? := none, keyAllowed := false }.advance 1).push .value)
  | none =>
    if !s.inFlow && !s.keyAllowed then none
    else
      let s := s.openBlock s.cursor.column s.tokens.size .blockMapping
      some (({ s with keyAllowed := !s.inFlow }.advance 1).push .value)

/-- A token that may start a key, read by `read`. -/
def cutKeyPart (s : Cutting) (read : Cursor → Option (Token × Cursor)) : Option Cutting := do
  let s ← s.noteKey
  let (t, cursor) ← read s.cursor
  return { s with cursor, keyAllowed := false }.push t

/-- A plain scalar.  If it ends with its line, a key may follow. -/
def cutPlain (s : Cutting) : Option Cutting := do
  let s ← s.noteKey
  let (text, gap, cursor) ←
    plainScalar s.inFlow s.margin [] .none s.cursor.line s.cursor.column s.cursor.rest
  return { s with cursor, keyAllowed := gap.isBroken }.push (.scalar (String.ofList text) .plain)

/-- A block scalar. -/
def cutBlockScalar (s : Cutting) (style : Style) : Option Cutting := do
  let s ← s.dropKey
  let (text, cursor) ← blockScalar (style == .folded) s.margin (s.cursor.advance 1)
  return { s with cursor, keyAllowed := true }.push (.scalar (String.ofList text) style)

/-- Whether a plain scalar can start here. -/
def startsPlain (flow : Bool) : List Char → Bool
  | [] => false
  | c :: cs =>
    if c == '-' then !cs.head?.any isBlank
    else if c == '?' || c == ':' then !flow && !atGap cs
    else !(isBlank c || isBreak c || isFlowMark c || "#&*!|>'\"%@`".toList.contains c)

/-- Cuts the next token, which starts with the character `char` in front of `cs`; `bound` is greater
than the length of the text. -/
def cutToken (s : Cutting) (bound : Nat) (char : Char) (cs : List Char) : Option Cutting :=
  let first := s.cursor.column == 0
  if first && char == '%' then do
    let s ← s.atMargin
    let (directive, cursor) ← directive (s.cursor.advance 1)
    return { s with cursor }.push (.directive directive)
  else if first && isMarkerLine (char :: cs) then do
    return ((← s.atMargin).advance 3).push (if char == '-' then .documentStart else .documentEnd)
  else if char == '[' then s.openFlow .flowSequence
  else if char == '\x7b' then s.openFlow .flowMapping
  else if char == ']' then s.closeFlow .flowSequenceEnd
  else if char == '\x7d' then s.closeFlow .flowMappingEnd
  else if char == ',' then s.cutSeparator
  else if char == '-' && atGap cs then s.cutItem
  else if char == '?' && (s.inFlow || atGap cs) then s.cutKey
  else if char == ':' && (s.inFlow || atGap cs) then s.cutValue
  else if char == '*' then s.cutKeyPart fun c => do
    let (name, c) ← anchorName (c.advance 1)
    return (.alias name, c)
  else if char == '&' then s.cutKeyPart fun c => do
    let (name, c) ← anchorName (c.advance 1)
    return (.anchor name, c)
  else if char == '!' then s.cutKeyPart fun c => do
    let (handle, suffix, c) ← tagToken s.inFlow c
    return (.tag handle suffix, c)
  else if char == '|' && !s.inFlow then s.cutBlockScalar .literal
  else if char == '>' && !s.inFlow then s.cutBlockScalar .folded
  else if char == '\'' then s.cutKeyPart fun c => do
    let (text, c) ← singleQuoted [] .none c.line (c.column + 1) cs
    return (.scalar (String.ofList text) .singleQuoted, c)
  else if char == '"' then s.cutKeyPart fun c => do
    let (text, c) ← doubleQuoted bound [] .none (c.advance 1)
    return (.scalar (String.ofList text) .doubleQuoted, c)
  else if startsPlain s.inFlow (char :: cs) then s.cutPlain
  else none

/-- Cuts the rest of the text, which has fewer characters than `bound`; each token has one. -/
def cut : (bound : Nat) → Cutting → Option Cutting
  | 0, _ => none
  | bound + 1, s => do
    let s := s.skipBlanks (bound + 1)
    let s ← s.dropLongKeys
    match s.cursor.rest with
    | [] => s.atMargin
    | char :: cs => cut bound (← (s.closeBlocks (s.cursor.column + 1)).cutToken (bound + 1) char cs)

end Cutting

/-- The tokens of a text, if it can be cut. -/
def Token.ofChars? (text : List Char) : Option (List Token) := do
  if !text.all isAllowed then failure
  let s ← Cutting.cut (text.length + 1) { cursor := { rest := unifyBreaks text } }
  return s.tokens.toList

end ClassicalPlanner.Yaml
