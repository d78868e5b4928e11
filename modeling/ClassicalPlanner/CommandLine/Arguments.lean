import ClassicalPlanner.Config.Basic

/-!
# Arguments of the command line

`plan DOMAIN PROBLEM` and `ground DOMAIN PROBLEM` with their options.  Options may stand anywhere
behind the command, each once; `--` ends them.  An option's value follows it or is joined to it.
Arguments are read in order, so that a mistake in front of `--help` counts.
-/

namespace ClassicalPlanner.CommandLine

/-- What `plan` is told. -/
structure PlanOptions where
  config : Option String := none
  json : Bool := false
  metrics : Bool := false
  maxExpansions : Option Nat := none
  heuristic : Option Heuristic := none
deriving DecidableEq, Repr

/-- What `ground` is told. -/
structure GroundOptions where
  list : Bool := false
  noPrune : Bool := false
deriving DecidableEq, Repr

/-- What a command line asks for. -/
inductive Request where
  | plan (domain problem : String) (options : PlanOptions)
  | ground (domain problem : String) (options : GroundOptions)
  | version
  | help
deriving DecidableEq, Repr

/-- A number of expansions: digits behind an optional plus sign, below `2 ^ 64`. -/
def readCount (text : String) : Option Nat :=
  let digits := match text.toList with
    | '+' :: cs => cs
    | cs => cs
  if digits.isEmpty || !digits.all Char.isDigit then none
  else
    let n := digits.foldl (fun n c => n * 10 + (c.toNat - 48)) 0
    if n < UInt64.size then some n else none

/-- The name of a file, which is not empty. -/
def readFileName (text : String) : Option String := if text.isEmpty then none else some text

/-- What an option takes as its value. -/
inductive ValueKind where
  | fileName
  | count
  | heuristic
deriving DecidableEq, Repr

/-- Whether a text is a value of a kind. -/
def ValueKind.accepts (text : String) : ValueKind → Bool
  | fileName => (readFileName text).isSome
  | count => (readCount text).isSome
  | heuristic => (Heuristic.ofName? text).isSome

/-- An option of a command. -/
structure Switch where
  /-- The name behind two dashes. -/
  long : String
  /-- The letter behind one dash. -/
  short : Option Char := none
  /-- The kind of its value, if it takes one. -/
  kind : Option ValueKind := none
deriving DecidableEq, Repr

namespace Switch

def help : Switch := { long := "help", short := some 'h' }
def version : Switch := { long := "version", short := some 'V' }
def verbose : Switch := { long := "verbose", short := some 'v' }
def config : Switch := { long := "config", short := some 'c', kind := some .fileName }
def json : Switch := { long := "json" }
def metrics : Switch := { long := "metrics" }
def maxExpansions : Switch := { long := "max-expansions", kind := some .count }
def heuristic : Switch := { long := "heuristic", kind := some .heuristic }
def list : Switch := { long := "list" }
def noPrune : Switch := { long := "no-prune" }

/-- The options of `plan`. -/
def ofPlan : List Switch := [help, verbose, config, json, metrics, maxExpansions, heuristic]

/-- The options of `ground`. -/
def ofGround : List Switch := [help, verbose, list, noPrune]

/-- The options in front of a command. -/
def global : List Switch := [help, version, verbose]

end Switch

/-- The options and names given to a command, in reverse. -/
structure Given where
  switches : List (Switch × String) := []
  names : List String := []

namespace Given

/-- The value of an option. -/
def value? (g : Given) (switch : Switch) : Option String :=
  (g.switches.find? (·.1 == switch)).map (·.2)

/-- Whether an option is given. -/
def has (g : Given) (switch : Switch) : Bool := (g.value? switch).isSome

/-- Adds an option; none may be given twice, and a value must be of the option's kind. -/
def add (g : Given) (switch : Switch) (value : String) : Option Given :=
  if g.has switch || switch.kind.any (!·.accepts value) then none
  else some { g with switches := (switch, value) :: g.switches }

/-- Adds the name of a file; a command takes two. -/
def addName (g : Given) (name : String) : Option Given := do
  if 2 ≤ g.names.length then failure
  return { g with names := (← readFileName name) :: g.names }

end Given

/-- A text split at its first equals sign. -/
def splitValue (cs : List Char) : String × Option String :=
  let name := cs.takeWhile (· != '=')
  (String.ofList name,
    if name.length < cs.length then some (String.ofList (cs.drop (name.length + 1))) else none)

/-- Whether an argument can be the value of an option: it is no option itself. -/
def isValue (arg : String) : Bool := arg == "-" || arg.toList.head? != some '-'

/-- An argument, as far as options go. -/
inductive Token where
  /-- An option with the value joined to it, if any. -/
  | switch (switch : Switch) (joined : Option String)
  | name (text : String)
  | endOfSwitches
  | unknown

/-- Reads letters behind one dash: options, of which the last may take the rest as its value. -/
def letters (known : List Switch) : List Char → List Token
  | [] => []
  | c :: cs =>
    match known.find? (·.short == some c) with
    | none => [.unknown]
    | some switch =>
      if switch.kind.isSome then
        match cs with
        | [] => [.switch switch none]
        | '=' :: cs => [.switch switch (some (String.ofList cs))]
        | cs => [.switch switch (some (String.ofList cs))]
      else .switch switch none :: letters known cs

/-- What an argument stands for. -/
def tokens (known : List Switch) (arg : String) : List Token :=
  match arg.toList with
  | ['-', '-'] => [.endOfSwitches]
  | '-' :: '-' :: cs =>
    let (name, joined) := splitValue cs
    match known.find? (·.long == name) with
    | some switch => [.switch switch joined]
    | none => [.unknown]
  | ['-'] => [.name arg]
  | '-' :: cs => letters known cs
  | _ => [.name arg]

/-- How far arguments have been read. -/
inductive Reading where
  | going (given : Given)
  /-- The value of an option has to come next. -/
  | awaiting (given : Given) (switch : Switch)
  /-- Only names can follow. -/
  | namesOnly (given : Given)
  /-- Nothing after this matters. -/
  | answered (request : Request)

/-- Reads one token. -/
def readToken (r : Reading) (token : Token) : Option Reading :=
  match r, token with
  | .going g, .switch switch joined =>
    if switch == .help then if joined.isNone then some (.answered .help) else none
    else if switch == .version then if joined.isNone then some (.answered .version) else none
    else match switch.kind.isSome, joined with
      | true, none => some (.awaiting g switch)
      | false, some _ => none
      | _, joined => do return .going (← g.add switch (joined.getD ""))
  | .going g, .name text => do return .going (← g.addName text)
  | .going g, .endOfSwitches => some (.namesOnly g)
  | .answered request, _ => some (.answered request)
  | _, _ => none

/-- Reads one argument. -/
def readArgument (known : List Switch) (r : Reading) (arg : String) : Option Reading :=
  match r with
  | .awaiting g switch =>
    if isValue arg then do return .going (← g.add switch arg) else none
  | .namesOnly g => do return .namesOnly (← g.addName arg)
  | r => (tokens known arg).foldlM readToken r

/-- The options and names of a command, or a request that needs no more. -/
def readArguments (known : List Switch) (args : List String) : Option (Request ⊕ Given) := do
  match ← args.foldlM (readArgument known) (.going {}) with
  | .going g | .namesOnly g => some (.inr g)
  | .answered request => some (.inl request)
  | .awaiting _ _ => none

/-- The value of an option, if it is given; fails if it cannot be read. -/
def optional {α : Type} (read : String → Option α) : Option String → Option (Option α)
  | none => some none
  | some text => (read text).map some

/-- The names of the domain's and the problem's file. -/
def Given.files? (g : Given) : Option (String × String) := do
  match g.names with
  | [problem, domain] => return (domain, problem)
  | _ => none

/-- What `plan` is asked for. -/
def planRequest (g : Given) : Option Request := do
  let (domain, problem) ← g.files?
  return .plan domain problem {
    config := ← optional readFileName (g.value? .config)
    json := g.has .json
    metrics := g.has .metrics
    maxExpansions := ← optional readCount (g.value? .maxExpansions)
    heuristic := ← optional Heuristic.ofName? (g.value? .heuristic) }

/-- What `ground` is asked for. -/
def groundRequest (g : Given) : Option Request := do
  let (domain, problem) ← g.files?
  return .ground domain problem { list := g.has .list, noPrune := g.has .noPrune }

/-- Reads the arguments of a command. -/
def readCommand (known : List Switch) (request : Given → Option Request) (args : List String) :
    Option Request := do
  match ← readArguments known args with
  | .inl answered => some answered
  | .inr given => request given

/-- What `help` is asked for: nothing further, or a command. -/
def helpRequest : List String → Option Request
  | [] | ["plan"] | ["ground"] | ["help"] => some .help
  | _ => none

/-- What the arguments ask for, if they make sense. -/
def request? (r : Reading) : List String → Option Request
  | [] =>
    match r with
    | .answered request => some request
    | _ => none
  | arg :: args =>
    match r, arg.toList.head? with
    | .answered request, _ => some request
    | .going _, some '-' => do request? (← readArgument Switch.global r arg) args
    | .going _, _ =>
      match arg with
      | "plan" => readCommand Switch.ofPlan planRequest args
      | "ground" => readCommand Switch.ofGround groundRequest args
      | "help" => helpRequest args
      | _ => none
    | _, _ => none

/-- What a command line asks for, if it makes sense. -/
def Request.ofArgs? (args : List String) : Option Request := request? (.going {}) args

end ClassicalPlanner.CommandLine
