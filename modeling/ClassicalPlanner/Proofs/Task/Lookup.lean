import ClassicalPlanner.Proofs.Task.Name

/-!
# Lookup of ground actions

A replay finds an action by its name, and takes the first that has it.  This gives every action back
exactly where no name is given twice (`nodup_names_iff`).

Nothing keeps a definition from giving one name to two schemata, so this can fail
(`twins_confused`).  It does not, exactly where no two schemata collide: they may have one name, as
long as their parameters are never bound to the same objects (`found_by_name`).
-/

namespace ClassicalPlanner

open Session Pddl Piece

/-- Every action is found by its name exactly where no name is given twice. -/
theorem ActionTable.nodup_names_iff {t : ActionTable} (h : t.Rises) :
    (t.toList.map (·.name)).Nodup ↔ ∀ a ∈ t.toList, t.find? a.name = some a := by
  refine ⟨fun nodup a ha => find?_name nodup ha, fun finds => ?_⟩
  refine h.nodup.map_on fun a ha b hb same => Option.some.inj ?_
  rw [← finds a ha, ← finds b hb, same]

variable {d : Domain} {p : Problem} {ws ws' ws₁ ws₁' : List Warning}
variable {s s' : Session} {t : ActionTable}

/-- **Which ground actions are found by their names.**  Take a domain and a problem that have been
read, and their ground actions.  No two of these have one name, and each of them is found by its
name, if and only if no two schemata of the domain have one name and parameters that can be bound to
the same objects.  So it is if all schemata have different names. -/
theorem found_by_name {text problemText : String} (hd : Pddl.readDomain text ws = (.ok d, ws'))
    (hp : Pddl.readProblem d problemText ws₁ = (.ok p, ws₁')) (h : ground d p s = (.ok t, s')) :
    ((t.toList.map (·.name)).Nodup ↔ d.actions.Pairwise fun a a' => ¬a.Collides p.objects a') ∧
    ((∀ a ∈ t.toList, t.find? a.name = some a) ↔
      d.actions.Pairwise fun a a' => ¬a.Collides p.objects a') ∧
    ((d.actions.map (·.name)).Nodup →
      (t.toList.map (·.name)).Nodup ∧ ∀ a ∈ t.toList, t.find? a.name = some a) := by
  have solid := Pddl.solid_readDomain hd
  have objects := Pddl.solid_readProblem solid.constants hp
  obtain ⟨names, ordered⟩ := ground_eq_ok h
  have nodup : (t.toList.map (·.name)).Nodup ↔
      d.actions.Pairwise fun a a' => ¬a.Collides p.objects a' := by
    rw [names]
    exact nodup_groundNames_iff solid objects
  have finds := ActionTable.nodup_names_iff ordered.rises
  refine ⟨nodup, finds.symm.trans nodup, fun distinct => ?_⟩
  have unique := nodup.mpr (not_collides_of_distinct distinct)
  exact ⟨unique, finds.mp unique⟩

namespace Paths

/-- One may go out, or to a place. -/
def domainText : String :=
  "(define (domain d) (:action go :effect (out)) (:action go :parameters (?to) :effect (at ?to)))"

def problemText : String := "(define (problem p) (:domain d) (:objects hall) (:goal (out)))"

def domain : Domain where
  name := "d"
  actions := [{ name := "go", effect := "(out)" },
    { name := "go", parameters := [{ name := "?to" }], effect := "(at ?to)" }]

def problem : Problem where
  name := "p"
  domain := "d"
  objects := NameSets.extend ∅ "" ["hall"]
  goal := "(out)"

end Paths

/-- Two schemata of one name do not collide when they differ in the number of parameters. -/
theorem found_by_name_paths :
    (Pddl.readDomain Paths.domainText []).1 = .ok Paths.domain ∧
    (Pddl.readProblem Paths.domain Paths.problemText []).1 = .ok Paths.problem ∧
    ∃ t s', ground Paths.domain Paths.problem ∅ = (.ok t, s') ∧
      (t.toList.map (·.name)).Nodup ∧ ∀ a ∈ t.toList, t.find? a.name = some a := by
  have hd : readDomain Paths.domainText [] = (.ok Paths.domain, []) :=
    readDomain_eq_ok_iff.mpr ⟨_, sections_ofList rfl rfl <|
      .cons (split_ofList _) (.cons (split_ofList _) (.cons (split_ofList _) .nil)),
      Prod.ext (by decide) (by rfl)⟩
  have hp : readProblem Paths.domain Paths.problemText [] = (.ok Paths.problem, []) :=
    readProblem_eq_ok_iff.mpr ⟨_, _, _, _, sections_ofList rfl rfl <| .cons (split_ofList _) <|
      .cons (split_ofList _) (.cons (split_ofList _) (.cons (split_ofList _) .nil)),
      by rfl, by rfl, by rfl, by rfl⟩
  have runs : (ground Paths.domain Paths.problem ∅).1.isOk = true := by decide +kernel
  have apart : Paths.domain.actions.Pairwise fun a a' => ¬a.Collides Paths.problem.objects a' := by
    decide
  obtain ⟨t, result⟩ := exists_of_isOk runs
  have run := run_eq_of_result result
  obtain ⟨nodup, finds, -⟩ := found_by_name hd hp run
  exact ⟨congrArg Prod.fst hd, congrArg Prod.fst hp, t, _, run, nodup.mpr apart, finds.mpr apart⟩

namespace Twins

/-- There are two ways to cross, and only the second is open. -/
def domainText : String :=
  "(define (domain d) (:action go :precondition (bridge) :effect (crossed))" ++
  " (:action go :effect (crossed)))"

def problemText : String := "(define (problem p) (:domain d) (:goal (crossed)))"

def domain : Domain where
  name := "d"
  actions := [{ name := "go", precondition := "(bridge)", effect := "(crossed)" },
    { name := "go", effect := "(crossed)" }]

def problem : Problem where
  name := "p"
  domain := "d"
  objects := NameSets.extend ∅ "" []
  goal := "(crossed)"

def first : GroundAction := ⟨⟨1⟩, "go", .ofKind .atom 1, .ofKind .atom 2⟩

def second : GroundAction := ⟨⟨2⟩, "go", .ofKind .and 3, .ofKind .atom 2⟩

def table : ActionTable := { actions := #[first, second], issued := 2 }

end Twins

open Twins in
/-- Two schemata have one name, and by it the first way to cross is found twice. -/
theorem twins_confused : (Pddl.readDomain domainText []).1 = .ok domain ∧
    (Pddl.readProblem domain problemText []).1 = .ok problem ∧
    (ground domain problem ∅).1 = .ok table ∧ ¬(table.toList.map (·.name)).Nodup ∧
    second ∈ table.toList ∧ table.find? second.name = some first ∧ first ≠ second := by
  have hd : readDomain domainText [] = (.ok domain, []) := by
    rw [show domainText = .ofList _ from String.ofList_append.symm]
    exact readDomain_eq_ok_iff.mpr ⟨_, sections_ofList rfl rfl <|
      .cons (split_ofList _) (.cons (split_ofList _) (.cons (split_ofList _) .nil)),
      Prod.ext (by decide) (by rfl)⟩
  have hp : readProblem domain problemText [] = (.ok problem, []) :=
    readProblem_eq_ok_iff.mpr ⟨_, _, _, _, sections_ofList rfl rfl <|
      .cons (split_ofList _) (.cons (split_ofList _) (.cons (split_ofList _) .nil)),
      by rfl, by rfl, by rfl, by rfl⟩
  have run : (ground domain problem ∅).1 = .ok table := by decide +kernel
  exact ⟨congrArg Prod.fst hd, congrArg Prod.fst hp, run, by decide, by decide, by decide,
    by decide⟩

end ClassicalPlanner
