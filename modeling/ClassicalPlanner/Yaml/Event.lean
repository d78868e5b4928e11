import ClassicalPlanner.Yaml.Token

/-!
# Events of YAML

The nodes of a document in the order in which they start and end.  `Event.ofTokens?` reads them from
the tokens of a text that holds one document at most.

The grammar is read with a stack of `Goal`s: each says what the next tokens have to be, and is met by
tokens, an event and further goals (`Goal.meet`).
-/

namespace ClassicalPlanner.Yaml

/-- A step in a walk through a document. -/
inductive Event where
  | scalar (text : String) (style : Style) (tag : Option Tag) (anchor : Option String)
  | alias (name : String)
  | sequence (anchor : Option String)
  | sequenceEnd
  | mapping (anchor : Option String)
  | mappingEnd
deriving DecidableEq, Repr

namespace Event

/-- The node of an entry without a value. -/
def absent : Event := scalar "" .plain none none

end Event

/-- What has to come next in a document. -/
inductive Goal where
  /-- A node.  A sequence in `bare` style has its dashes in the column of the mapping around it. -/
  | node (block bare : Bool)
  | blockItem
  | bareItem
  | blockKey
  | blockValue
  | flowItem (first : Bool)
  /-- A key, a value and the end of a mapping with one entry that is an item of a flow sequence. -/
  | pairKey
  | pairValue
  | pairEnd
  | flowKey (first : Bool)
  | flowValue
  /-- The value of a key without a colon. -/
  | noValue
deriving DecidableEq, Repr

/-- How a goal is met: by an event, if there is one, and further goals in front of the rest of the
tokens. -/
structure Step where
  goals : List Goal := []
  event : Option Event := none
  rest : List Token

namespace Step

/-- A node or, if it is left out, an absent one; then further goals. -/
def nodeOr (leftOut : Bool) (node : Goal) (goals : List Goal) (rest : List Token) : Step :=
  if leftOut then { goals, event := Event.absent, rest } else { goals := node :: goals, rest }

end Step

namespace Token

/-- Whether the next token is one of some. -/
def next (tokens : List Token) (ts : List Token) : Bool := tokens.head?.any (ts.contains ·)

/-- The anchor and the tag in front of a node, in either order. -/
def properties : List Token → Option String × Option (String × Tag) × List Token
  | .anchor name :: .tag handle suffix :: rest => (some name, some (handle, suffix), rest)
  | .tag handle suffix :: .anchor name :: rest => (some name, some (handle, suffix), rest)
  | .anchor name :: rest => (some name, none, rest)
  | .tag handle suffix :: rest => (none, some (handle, suffix), rest)
  | rest => (none, none, rest)

end Token

namespace Goal

/-- Meets a goal for a node that is no alias.  A scalar may be left out behind a property. -/
def meetNode (handles : Handles) (block bare : Bool) (tokens : List Token) : Option Step := do
  let (anchor, tag?, rest) := Token.properties tokens
  let tag ← match tag? with
    | some (handle, suffix) => do pure (some (← handles.tag? handle suffix))
    | none => pure none
  match rest with
  | .item :: _ =>
    if bare then return { goals := [bareItem], event := Event.sequence anchor, rest }
    else leftOut anchor tag rest
  | .scalar text style :: rest =>
    let tag := tag.filter (· != Tag.unspecific)
    return { event := Event.scalar text style tag anchor, rest }
  | .flowSequence :: rest =>
    return { goals := [flowItem true], event := Event.sequence anchor, rest }
  | .flowMapping :: rest =>
    return { goals := [flowKey true], event := Event.mapping anchor, rest }
  | .blockSequence :: after =>
    if block then return { goals := [blockItem], event := Event.sequence anchor, rest := after }
    else leftOut anchor tag rest
  | .blockMapping :: after =>
    if block then return { goals := [blockKey], event := Event.mapping anchor, rest := after }
    else leftOut anchor tag rest
  | _ => leftOut anchor tag rest
where
  /-- A node of which only properties are there. -/
  leftOut (anchor : Option String) (tag : Option Tag) (rest : List Token) : Option Step :=
    if anchor.isSome || tag.isSome then
      some { event := Event.scalar "" .plain tag anchor, rest }
    else none

/-- Meets a goal.  It fails if the tokens do not allow it. -/
def meet (handles : Handles) : Goal → List Token → Option Step
  | node _ _, .alias name :: rest => some { event := Event.alias name, rest }
  | node block bare, tokens => meetNode handles block bare tokens
  | blockItem, .item :: rest =>
    some (.nodeOr (Token.next rest [.item, .blockEnd]) (node true false) [blockItem] rest)
  | blockItem, .blockEnd :: rest => some { event := Event.sequenceEnd, rest }
  | blockItem, _ => none
  | bareItem, .item :: rest =>
    some (.nodeOr (Token.next rest [.item, .key, .value, .blockEnd]) (node true false) [bareItem] rest)
  | bareItem, rest => some { event := Event.sequenceEnd, rest }
  | blockKey, .key :: rest =>
    some (.nodeOr (Token.next rest [.key, .value, .blockEnd]) (node true true) [blockValue] rest)
  | blockKey, .blockEnd :: rest => some { event := Event.mappingEnd, rest }
  | blockKey, _ => none
  | blockValue, .value :: rest =>
    some (.nodeOr (Token.next rest [.key, .value, .blockEnd]) (node true true) [blockKey] rest)
  | blockValue, rest => some { goals := [blockKey], event := Event.absent, rest }
  | flowItem _, .flowSequenceEnd :: rest => some { event := Event.sequenceEnd, rest }
  | flowItem false, .separator :: rest => some (item rest)
  | flowItem false, _ => none
  | flowItem true, rest => some (item rest)
  | pairKey, tokens =>
    -- The token that shows that the key is left out is passed over with it.
    if Token.next tokens [.value, .separator, .flowSequenceEnd] then
      some { goals := [pairValue], event := Event.absent, rest := tokens.drop 1 }
    else some { goals := [node false false, pairValue], rest := tokens }
  | pairValue, .value :: rest =>
    some (.nodeOr (Token.next rest [.separator, .flowSequenceEnd]) (node false false) [pairEnd] rest)
  | pairValue, rest => some { goals := [pairEnd], event := Event.absent, rest }
  | pairEnd, rest => some { goals := [flowItem false], event := Event.mappingEnd, rest }
  | flowKey _, .flowMappingEnd :: rest => some { event := Event.mappingEnd, rest }
  | flowKey false, .separator :: rest => some (entry rest)
  | flowKey false, _ => none
  | flowKey true, rest => some (entry rest)
  | flowValue, .value :: rest =>
    some (.nodeOr (Token.next rest [.separator, .flowMappingEnd]) (node false false) [flowKey false]
      rest)
  | flowValue, rest => some { goals := [flowKey false], event := Event.absent, rest }
  | noValue, rest => some { goals := [flowKey false], event := Event.absent, rest }
where
  /-- What stands in front of a comma or the end of a flow sequence. -/
  item : List Token → Step
    | .key :: rest => { goals := [pairKey], event := Event.mapping none, rest }
    | .flowSequenceEnd :: rest => { event := Event.sequenceEnd, rest }
    | rest => { goals := [node false false, flowItem false], rest }
  /-- What stands in front of a comma or the end of a flow mapping. -/
  entry : List Token → Step
    | .key :: rest =>
      .nodeOr (Token.next rest [.value, .separator, .flowMappingEnd]) (node false false) [flowValue]
        rest
    | .flowMappingEnd :: rest => { event := Event.mappingEnd, rest }
    | rest => { goals := [node false false, noValue], rest }

/-- Meets a stack of goals, and gives the events with the rest of the tokens. -/
def meetAll (handles : Handles) : (bound : Nat) → (events : Array Event) → List Goal → List Token →
    Option (Array Event × List Token)
  | _, events, [], tokens => some (events, tokens)
  | 0, _, _ :: _, _ => none
  | bound + 1, events, goal :: goals, tokens => do
    let step ← goal.meet handles tokens
    let events := match step.event with
      | some event => events.push event
      | none => events
    meetAll handles bound events (step.goals ++ goals) step.rest

end Goal

/-! ### Documents -/

/-- Notes the directives in front of a document.  There is one version at most, 1.1 or 1.2, and one
meaning of each handle. -/
def readDirectives (versioned : Bool) (handles : Handles) :
    List Token → Option (Handles × List Token)
  | .directive (.version major minor) :: rest =>
    if versioned || major != 1 || (minor != 1 && minor != 2) then none
    else readDirectives true handles rest
  | .directive (.handle name tag) :: rest =>
    if (handles.lookup name).isSome then none
    else readDirectives versioned ((name, tag) :: handles) rest
  | rest => some (handles, rest)

/-- Whether a document without a node ends here. -/
def atDocumentEnd : List Token → Bool
  | [] | .directive _ :: _ | .documentStart :: _ | .documentEnd :: _ => true
  | _ => false

namespace Event

/-- The events of the only document among some tokens; none if there is no document. -/
def ofTokens? (tokens : List Token) : Option (List Event) := do
  match tokens with
  | [] => return []
  | .directive _ :: _ | .documentStart :: _ =>
    let (handles, rest) ← readDirectives false [] tokens
    match rest with
    | .documentStart :: rest =>
      if atDocumentEnd rest then finish (#[absent], rest)
      else finish (← content (handles ++ Handles.standard) rest)
    | _ => none
  | _ => finish (← content Handles.standard tokens)
where
  /-- The events of a document's node.  A token takes three goals at most. -/
  content (handles : Handles) (tokens : List Token) : Option (Array Event × List Token) :=
    Goal.meetAll handles (4 * tokens.length + 4) #[] [.node true false] tokens
  /-- The events, if nothing but marks of the document's end follows. -/
  finish : Array Event × List Token → Option (List Event)
    | (events, rest) => if rest.all (· == .documentEnd) then some events.toList else none

end Event

end ClassicalPlanner.Yaml
