import ClassicalPlanner.Proofs.Pddl.Declaration
import ClassicalPlanner.Proofs.Task.Failure

/-!
# The groups of a grounded problem

Grounding installs the groups of a problem before anything else, and then leaves them alone:
everything that follows only adds expressions and words (`Retains`, `installs_ofProblem`).  So
parameters and quantifiers range over the same objects.  The members of a group by its name are the
objects of the problem under this name, and these are the ones that the texts list with a type that
belongs to the group, over links that may run in circles (`membersOf_texts`).
-/

namespace ClassicalPlanner

open Session Pddl Piece

variable {s s' : Session} {d : Domain} {p : Problem} {task : Task} {prune : Bool}

/-! ### Groups that are left alone -/

/-- Groups that have been installed stay installed. -/
theorem Session.installs_of_run {β : Type} {x : Session → β × Session} {b : β}
    {groups : List (String × List String)} (hx : Retains x) (hs : s.Sound)
    (installed : s.Installs groups) (h : x s = (b, s')) : s'.Sound ∧ s'.Installs groups := by
  have after := hx s hs
  rw [h] at after
  exact ⟨after.sound, installed.mono after.keeps after.groups⟩

namespace Task

/-- The groups of a problem as they are installed. -/
abbrev groupsOf (p : Problem) : List (String × List String) :=
  p.objects.toList.map fun (name, members) => (name, members.toList)

/-- **Grounding installs the groups of the problem** and leaves them alone. -/
theorem installs_ofProblem (hs : s.Sound) (h : ofProblem d p prune s = (.ok task, s')) :
    s'.Sound ∧ s'.Installs (groupsOf p) := by
  obtain ⟨initial, s₁, hinitial, h⟩ := run_bind_eq_ok.mp h
  obtain ⟨goal, s₂, hgoal, h⟩ := run_bind_eq_ok.mp h
  obtain ⟨actions, s₃, hactions, h⟩ := run_bind_eq_ok.mp h
  have installed := serves_setGroups hs (groupsOf p)
  have initials : Retains (p.init.toList.mapM parse >>= fun keys => addWorld (.ofList keys)) :=
    .bind (.mapM retains_parse _) fun _ => (repeats_addWorld _).retains
  rw [makeWorld_eq] at hinitial
  have first := installs_of_run initials installed.sound installed.result hinitial
  have second := installs_of_run (retains_parse p.goal) first.1 first.2 hgoal
  have third := installs_of_run (recurs_ground d p).retains second.1 second.2 hactions
  cases prune with
  | false => cases h; exact third
  | true =>
      obtain ⟨kept, s₄, hkept, h⟩ := run_bind_eq_ok.mp h
      cases h
      exact installs_of_run (ActionTable.repeats_pruned actions initial).retains third.1 third.2
        hkept

/-- The members of a group of the problem, by its name. -/
theorem mem_groupsOf {group object : String} :
    (∃ entry ∈ groupsOf p, entry.1 = group ∧ object ∈ entry.2) ↔
      object ∈ p.objects.getD group ∅ := by
  rw [NameSets.mem_getD_iff_entry]
  simp only [List.mem_map, exists_exists_and_eq_and]

/-- **The members of a group** of a grounded problem are its objects under this name. -/
theorem perm_membersOf (hs : s.Sound) (h : ofProblem d p prune s = (.ok task, s'))
    (enough : s'.symbols.Enough) (group : String) :
    ((s'.membersOf group).map s'.word).Perm ((p.objects.getD group ∅).toList.map .ok) := by
  obtain ⟨sound, installs⟩ := installs_ofProblem hs h
  refine (List.perm_ext_iff_of_nodup (installs.nodup_words sound.words enough)
    (nodup_toList.map fun _ _ => Except.ok.inj)).mpr fun answer => ?_
  cases answer with
  | error e =>
      refine iff_of_false (fun mem => ?_) (by simp)
      obtain ⟨c, mem, unknown⟩ := List.mem_map.mp mem
      obtain ⟨i, -, mem⟩ := mem_membersOf.mp mem
      obtain ⟨word, found⟩ := installs.hasWord mem
      cases unknown.symm.trans (word_eq_ok_iff.mpr found)
  | ok object =>
      rw [installs.mem_words sound.words enough, mem_groupsOf]
      simp

variable {domainText problemText : String} {ws ws' us us' : List Warning}

/-- **Groups are as the texts declare them.**  If two texts are read and the problem is grounded, in
any session there can be and while there is a number for every word, then the members of each group
are the objects of the problem under its name, each once.  They are the objects and constants that
are listed with some type such that the group is the unnamed one, or that type, or is reached from
it over one or more links from a type to a parent, whether there are cycles or not. -/
theorem groups_as_declared (hd : readDomain domainText ws = (.ok d, ws'))
    (hp : readProblem d problemText us = (.ok p, us')) (reached : s.Reachable)
    (h : ofProblem d p prune s = (.ok task, s')) (enough : s'.symbols.Enough) (group : String) :
    ((s'.membersOf group).map s'.word).Perm ((p.objects.getD group ∅).toList.map .ok) ∧
      ∀ object, .ok object ∈ (s'.membersOf group).map s'.word ↔
        ∃ type, Declared domainText problemText object type ∧
          (group = "" ∨ group = type ∧ type ≠ "" ∨
            Relation.TransGen (Linked domainText) type group) := by
  have members := perm_membersOf reached.sound h enough group
  refine ⟨members, fun object => ?_⟩
  rw [members.mem_iff, ← mem_objects_iff_reached hd hp]
  simp

end Task

/-! ### A circle of types -/

namespace Harbour

/-- Cranes are tools, and tools are cranes. -/
def domainText : String :=
  "(define (domain d) (:types crane - tool tool - crane) (:constants dock - tool))"

def problemText : String :=
  "(define (problem p) (:domain d) (:objects lift - crane) (:goal (up)))"

def domain : Domain :=
  { name := "d"
    types := NameSets.extend (NameSets.extend ∅ "crane" ["tool"]) "tool" ["crane"]
    constants := NameSets.extend ∅ "tool" ["dock"] }

def problem : Problem :=
  { name := "p"
    domain := "d"
    objects := Problem.populate domain [("dock", "tool"), ("lift", "crane")]
    goal := "(up)" }

/-- The session that is left when the problem has been grounded. -/
def session : Session := (Task.ofProblem domain problem true ∅).2

end Harbour

/-- The dock, a tool, is a crane as well as the lift. -/
theorem Task.groups_as_declared_harbour :
    ((Harbour.session.membersOf "crane").map Harbour.session.word).Perm
      [.ok "dock", .ok "lift"] ∧
    ∃ type, Declared Harbour.domainText Harbour.problemText "dock" type ∧
      ("crane" = "" ∨ "crane" = type ∧ type ≠ "" ∨
        Relation.TransGen (Linked Harbour.domainText) type "crane") := by
  have hd : readDomain Harbour.domainText [] = (.ok Harbour.domain, []) :=
    readDomain_eq_ok_iff.mpr ⟨_, sections_ofList rfl rfl <|
      .cons (split_ofList _) (.cons (split_ofList _) (.cons (split_ofList _) .nil)), by rfl⟩
  have hp : readProblem Harbour.domain Harbour.problemText [] = (.ok Harbour.problem, []) :=
    readProblem_eq_ok_iff.mpr ⟨_, _, _, _, sections_ofList rfl rfl <| .cons (split_ofList _) <|
      .cons (split_ofList _) (.cons (split_ofList _) (.cons (split_ofList _) .nil)),
      by rfl, by rfl, by rfl, by decide⟩
  have enough : Harbour.session.symbols.Enough := by decide +kernel
  have grounds : (ofProblem Harbour.domain Harbour.problem true ∅).1.isOk = true := by
    decide +kernel
  obtain ⟨task, h⟩ := exists_of_isOk grounds
  have run : ofProblem Harbour.domain Harbour.problem true ∅ = (.ok task, Harbour.session) :=
    run_eq_of_result h
  obtain ⟨members, declared⟩ := groups_as_declared hd hp .empty run enough "crane"
  have listed : (Harbour.problem.objects.getD "crane" ∅).toList = ["dock", "lift"] := by
    decide +kernel
  rw [listed] at members
  exact ⟨members, (declared "dock").mp (members.mem_iff.mpr (by simp))⟩

end ClassicalPlanner
