import ClassicalPlanner.CommandLine.Arguments
import ClassicalPlanner.CommandLine.Directory
import ClassicalPlanner.Config.File
import ClassicalPlanner.Plan.Planner
import ClassicalPlanner.Search.Metrics
import ClassicalPlanner.Text.Json

/-!
# Commands

`plan` prints the actions of a plan, one a line, or a report on it; `ground` prints how many actions
there are.  Files are read through a function, so that what a command does depends on their contents
alone.
-/

namespace ClassicalPlanner

namespace Report

/-- A report with the counters of its search as JSON.  It is dated, and the time of the search is
given. -/
def json (r : Report) (date : String) (elapsed : Elapsed) : Text.Json :=
  let metrics := match r.counters with
    | some c => [("metrics", Text.Json.object [
        ("elapsed_ms", .nat elapsed.milliseconds.toNat),
        ("known_states", .nat c.known),
        ("expanded_states", .nat c.expanded),
        ("visited_states", .nat c.visited),
        ("budget_exhausted", .bool c.exhausted)])]
    | none => []
  .object ([
    ("plan_hash", .text r.planHash),
    ("domain", .text r.domain),
    ("problem", .text r.problem),
    ("initial_state", .text r.initialState),
    ("goal", .text r.goal),
    ("actions", .list (r.actions.map .text)),
    ("steps", .list (r.steps.map stepJson)),
    ("valid", .bool r.valid),
    ("goal_reached", .bool r.goalReached)] ++ metrics ++ [("generated_at", .text date)])
where
  /-- A step as JSON. -/
  stepJson (s : ReportStep) : Text.Json := .object [
    ("step", .nat s.step),
    ("action", .text s.action),
    ("precondition", .text s.precondition),
    ("effect", .text s.effect),
    ("precondition_held", .bool s.preconditionHeld),
    ("state", .text s.state)]

end Report

namespace CommandLine

/-- Why a command fails. -/
inductive Failure where
  | unreadable (what path : String) (cause : FileError)
  | badConfig (path : String)
  | badDefinition (what path : String) (cause : PlanningError)
  | planning (cause : PlanningError)
deriving DecidableEq, Repr

namespace Failure

/-- What failed, and why if there is more to say. -/
def message : Failure → String × Option String
  | unreadable what path cause => ("Failed to read " ++ what ++ " from " ++ path, cause.message)
  | badConfig path => ("Failed to parse config from " ++ path, "not a configuration")
  | badDefinition what path cause =>
    ("Failed to parse " ++ what ++ " " ++ path, cause.message)
  | planning cause => (cause.message, none)

/-- The lines of a text. -/
def textLines (text : String) : List String :=
  (go [] text.toList).map String.ofList
where
  /-- `line` is the line being read, backwards. -/
  go (line : List Char) : List Char → List (List Char)
    | [] => [line.reverse]
    | c :: cs => if c == '\n' then line.reverse :: go [] cs else go (c :: line) cs

/-- The lines shown for a failure. -/
def lines (failure : Failure) : List String :=
  let (what, cause?) := failure.message
  let cause := match cause? with
    | some cause => ["", "Caused by:"] ++ (textLines cause).map ("    " ++ ·)
    | none => []
  textLines ("Error: " ++ what) ++ cause

end Failure

/-- What a command prints. -/
inductive Output where
  | lines (shown : List String)
  /-- Lines, and the counters of the search. -/
  | withCounters (shown : List String) (counters : Search.Counters)
  | report (report : Report)

namespace Output

/-- The lines of an output at a date, with the time of the search. -/
def text (date : String) (elapsed : Elapsed) : Output → List String
  | .lines shown => shown
  | .withCounters shown counters => shown ++ "" :: counters.lines elapsed
  | .report r => (r.json date elapsed).lines

end Output

/-- What a command line comes to. -/
inductive Outcome where
  | done (output : Output)
  | failed (failure : Failure)
  /-- The arguments do not make sense. -/
  | misused

namespace Outcome

/-- The exit status. -/
def code : Outcome → Nat
  | done _ => 0
  | failed _ => 1
  | misused => 2

end Outcome

/-- Reads files by name. -/
abbrev Files := String → Except FileError String

/-- Reads a file that holds `what`. -/
def readFile (files : Files) (what path : String) : Except Failure String :=
  (files path).mapError (.unreadable what path)

/-- The configuration of `plan`: its file, and the options that override it. -/
def configuration (files : Files) (options : PlanOptions) : Except Failure Configuration := do
  let c ← match options.config with
    | none => pure {}
    | some path =>
      match Configuration.ofText? (← readFile files "config" path) with
      | some c => pure c
      | none => throw (.badConfig path)
  return { c with
    maxExpansions := options.maxExpansions <|> c.maxExpansions
    heuristic := options.heuristic.getD c.heuristic }

/-- Reads a domain and a problem of it.  Both files are read before either is understood. -/
def load (files : Files) (domainPath problemPath : String) :
    Except Failure (Planner × Problem) := do
  let domain ← readFile files "domain" domainPath
  let problem ← readFile files "problem" problemPath
  let planner ← (Planner.ofText domain []).1.mapError (.badDefinition "domain" domainPath)
  let problem ← (planner.readProblem problem []).1.mapError (.badDefinition "problem" problemPath)
  return (planner, problem)

/-- The result of a planner that starts with an empty session. -/
def result {α : Type} (x : PlannerM α) : Except Failure α := (x ∅ []).1.1.mapError .planning

/-- Prints a plan. -/
def plan (files : Files) (domain problem : String) (options : PlanOptions) :
    Except Failure Output := do
  let configuration ← configuration files options
  let (planner, problem) ← load files domain problem
  let planner := { planner with configuration }
  if options.json then return .report (← result (planner.report problem))
  else
    let solution ← result (planner.solve problem)
    let lines := if solution.solved then solution.actions else ["No plan found"]
    return if options.metrics then .withCounters lines solution.counters else .lines lines

/-- Prints how many actions there are. -/
def ground (files : Files) (domain problem : String) (options : GroundOptions) :
    Except Failure Output := do
  let (planner, problem) ← load files domain problem
  let task ← result (planner.ground problem (!options.noPrune))
  let list := task.actions.toList.map fun a =>
    Text.alignRight 5 (toString a.id.index.toNat) ++ "  " ++ a.name
  return .lines (["Grounded actions: " ++ toString task.grounded,
    "Pruned actions:   " ++ toString task.pruned,
    "Retained actions: " ++ toString task.actions.size]
    ++ if options.list then "" :: list else [])

/-- The lines shown for `--help`. -/
def helpLines : List String := [
  "Classical planner for PDDL domains",
  "",
  "Usage: plan [OPTIONS] <DOMAIN> <PROBLEM>",
  "       ground [OPTIONS] <DOMAIN> <PROBLEM>"]

/-- Does what a command line asks for. -/
def run (files : Files) (args : List String) : Outcome :=
  let finish : Except Failure Output → Outcome
    | .ok output => .done output
    | .error failure => .failed failure
  match Request.ofArgs? args with
  | some (.plan domain problem options) => finish (plan files domain problem options)
  | some (.ground domain problem options) => finish (ground files domain problem options)
  | some .version => .done (.lines ["dorado 0.1.0"])
  | some .help => .done (.lines helpLines)
  | none => .misused

end CommandLine

end ClassicalPlanner
