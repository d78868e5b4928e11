import ClassicalPlanner.Pddl.Domain
import ClassicalPlanner.Proofs.Pddl.Objects
import ClassicalPlanner.Proofs.Pddl.Section

/-!
# What is read of a definition

One section of a definition says one thing: `Declares` lists what that may be for a domain, and
`Describes` for a problem.  So what each section keeps holds of all that is read
(`readDomain_keeps`, `readProblem_keeps`), and what each field keeps holds of an action
(`readFields_keeps`).  The pieces of the sections may be known to be such as the texts are made of.
-/

namespace ClassicalPlanner.Pddl

open Text Session

variable {d d' : Domain} {named named' : Bool} {pieces : List Piece} {ws ws' : List Warning}
variable {text domain : String} {p : Problem} {draft draft' : ProblemDraft} {P : Piece → Prop}

/-! ### Actions -/

/-- What the fields of an action keep holds of the action. -/
theorem readFields_keeps {I : Schema → Prop} {a b : Schema} (hp : ∀ p ∈ pieces, P p)
    (parameters : ∀ {a inside parts} {names : List (String × String)}, I a → P (.group inside) →
      Piece.split inside = .ok parts → typedList parts = .ok names →
      I { a with parameters := names.map fun pair => ⟨pair.1, pair.2⟩ })
    (precondition : ∀ {a value}, I a → P value →
      I { a with precondition := flatten value.text })
    (effect : ∀ {a value}, I a → P value → I { a with effect := flatten value.text }) (ha : I a)
    (h : readFields a pieces ws = (.ok b, ws')) : I b := by
  induction a, pieces using readFields.induct generalizing ws with
  | case1 a => cases h; exact ha
  | case2 a value rest inside found ih =>
      obtain ⟨hv, hr⟩ := List.forall_mem_cons.mp (List.forall_mem_of_forall_mem_cons hp)
      rw [readFields, found] at h
      obtain ⟨names, ws₁, hnames, h⟩ := run_bind_eq_ok.mp h
      cases value with
      | word text => cases found
      | group text =>
          cases found
          obtain ⟨parts, hparts, hlist⟩ := bind_eq_ok.mp (run_orMalformed_eq_ok hnames).1
          exact ih _ hr (parameters ha hv hparts hlist) h
  | case3 a value rest missing =>
      cases value with
      | word text => cases h
      | group inside => exact absurd rfl (missing inside)
  | case4 a value rest ih =>
      obtain ⟨hv, hr⟩ := List.forall_mem_cons.mp (List.forall_mem_of_forall_mem_cons hp)
      exact ih hr (precondition ha hv) h
  | case5 a value rest ih =>
      obtain ⟨hv, hr⟩ := List.forall_mem_cons.mp (List.forall_mem_of_forall_mem_cons hp)
      exact ih hr (effect ha hv) h
  | case6 a keyword =>
      rw [readFields] at h
      cases h
      exact ha
  | case7 a keyword value rest _ _ _ ih =>
      have hr := (List.forall_mem_cons.mp (List.forall_mem_of_forall_mem_cons hp)).2
      rw [readFields] at h
      · obtain ⟨_, ws₁, -, h⟩ := run_bind_eq_ok.mp h
        exact ih hr ha h
      all_goals assumption
  | case8 a piece rest _ _ _ _ _ =>
      rw [readFields] at h
      · cases h
      all_goals assumption

/-- An action is its name, and its fields. -/
theorem readAction_eq_ok {a : Schema} (h : readAction pieces ws = (.ok a, ws')) :
    ∃ name fields, pieces = .word name :: fields ∧
      readFields { name } fields ws = (.ok a, ws') := by
  unfold readAction at h
  split at h
  · exact ⟨_, _, rfl, h⟩
  · cases h

/-! ### Domains -/

theorem mem_declareTypes {names : List (String × String)} {type : String} :
    type ∈ (declareTypes d names).types ↔ type ∈ d.types ∨ ∃ pair ∈ names, pair.1 = type :=
  NameSets.mem_foldl_extend

theorem mem_parents_declareTypes {names : List (String × String)} {type parent : String} :
    parent ∈ (declareTypes d names).parents type ↔
      parent ∈ d.parents type ∨ ∃ pair ∈ names, pair = (type, parent) ∧ parent ≠ "" := by
  refine NameSets.mem_getD_foldl_extend.trans (or_congr Iff.rfl (exists_congr fun pair => ?_))
  refine and_congr_right fun _ => ?_
  obtain ⟨child, above⟩ := pair
  dsimp only
  split <;> simp_all [eq_comm]

theorem mem_declareConstants {names : List (String × String)} {group : String} :
    group ∈ (declareConstants d names).constants ↔
      group ∈ d.constants ∨ ∃ pair ∈ names, pair.2 = group :=
  NameSets.mem_foldl_extend

theorem mem_getD_declareConstants {names : List (String × String)} {group name : String} :
    name ∈ (declareConstants d names).constants.getD group ∅ ↔
      name ∈ d.constants.getD group ∅ ∨ (name, group) ∈ names := by
  refine NameSets.mem_getD_foldl_extend.trans (or_congr Iff.rfl ?_)
  constructor
  · rintro ⟨⟨n, g⟩, mem, rfl, same⟩
    rwa [List.mem_singleton.mp same]
  · exact fun mem => ⟨_, mem, rfl, List.mem_singleton_self _⟩

/-- What one section of a domain declares, and whether it names the domain. -/
inductive Declares (d : Domain) (named : Bool) : List Piece → Domain → Bool → Prop where
  | name {name : String} {rest : List Piece} :
      Declares d named (.word "domain" :: .word name :: rest) { d with name } true
  | requirements {body : List Piece} : Declares d named (.word ":requirements" :: body)
      { d with requirements := body.filterMap Piece.word? } named
  | types {body : List Piece} {names : List (String × String)} (h : typedList body = .ok names) :
      Declares d named (.word ":types" :: body) (declareTypes d names) named
  | constants {body : List Piece} {names : List (String × String)}
      (h : typedList body = .ok names) :
      Declares d named (.word ":constants" :: body) (declareConstants d names) named
  | predicates {body : List Piece} : Declares d named (.word ":predicates" :: body)
      { d with predicates := body.map fun piece => flatten piece.text } named
  | action {body : List Piece} {a : Schema} {ws ws' : List Warning}
      (h : readAction body ws = (.ok a, ws')) :
      Declares d named (.word ":action" :: body) { d with actions := d.actions ++ [a] } named
  | other {pieces : List Piece} (types : sectionName? pieces ≠ some ":types")
      (constants : sectionName? pieces ≠ some ":constants") : Declares d named pieces d named

theorem exists_sectionName {name : String} (h : sectionName? pieces = some name) :
    pieces = .word name :: pieces.tail := by
  unfold sectionName? at h
  cases pieces with
  | nil => cases h
  | cons p pieces =>
      cases p with
      | word text => cases h; rfl
      | group inside => cases h

/-- **One section of a domain** declares one thing. -/
theorem declares_of_readDomainSection
    (h : readDomainSection d named pieces ws = (.ok (d', named'), ws')) :
    Declares d named pieces d' named' := by
  generalize same : readDomainSection d named pieces = x at h
  unfold readDomainSection at same
  split at same <;> subst same
  · rename_i found tail
    cases h
    rw [exists_sectionName found, tail]
    exact .name
  · cases h
  · rename_i found
    cases h
    rw [exists_sectionName found]
    exact .requirements
  · rename_i found
    obtain ⟨names, ws₁, hnames, h⟩ := run_bind_eq_ok.mp h
    cases h
    rw [exists_sectionName found]
    exact .types (run_orMalformed_eq_ok hnames).1
  · rename_i found
    obtain ⟨names, ws₁, hnames, h⟩ := run_bind_eq_ok.mp h
    cases h
    rw [exists_sectionName found]
    exact .constants (run_orMalformed_eq_ok hnames).1
  · rename_i found
    cases h
    rw [exists_sectionName found]
    exact .predicates
  · rename_i found
    obtain ⟨a, ws₁, ha, h⟩ := run_bind_eq_ok.mp h
    cases h
    rw [exists_sectionName found]
    exact .action ha
  · rename_i types constants _ _ found _
    obtain ⟨_, ws₁, -, h⟩ := run_bind_eq_ok.mp h
    cases h
    exact .other (fun same => types (Option.some.inj (found.symm.trans same)))
      fun same => constants (Option.some.inj (found.symm.trans same))
  · rename_i found
    cases h
    exact .other (found ▸ nofun) (found ▸ nofun)

/-- **A domain that has been read** is what its sections declare. -/
theorem readDomain_eq_ok_iff : readDomain text ws = (.ok d, ws') ↔
    ∃ all, sections (stripComments text) = .ok all ∧
      (all.foldlM (fun both pieces => readDomainSection both.1 both.2 pieces) ({}, false) :
        WarnM (Domain × Bool)) ws = (.ok (d, true), ws') := by
  constructor
  · intro h
    obtain ⟨all, ws₁, hall, h⟩ := run_bind_eq_ok.mp h
    obtain ⟨⟨d', named⟩, ws₂, hread, h⟩ := run_bind_eq_ok.mp h
    obtain ⟨found, rfl⟩ := Prod.mk.inj hall
    cases named with
    | false => cases h
    | true =>
        cases h
        exact ⟨all, found, hread⟩
  · rintro ⟨all, found, hread⟩
    refine run_bind_eq_ok.mpr ⟨all, ws, ?_, run_bind_eq_ok.mpr ⟨_, ws', hread, rfl⟩⟩
    rw [found]
    rfl

/-- **What each section keeps** holds of a domain that has been read. -/
theorem readDomain_keeps {I : Domain → Bool → Prop}
    (pieces : ∀ {all}, sections (stripComments text) = .ok all → ∀ ps ∈ all, ∀ p ∈ ps, P p)
    (start : I {} false)
    (step : ∀ {d named pieces d' named'}, I d named → (∀ p ∈ pieces, P p) →
      Declares d named pieces d' named' → I d' named')
    (h : readDomain text ws = (.ok d, ws')) : I d true := by
  obtain ⟨all, found, read⟩ := readDomain_eq_ok_iff.mp h
  have hp := pieces found
  exact foldlM_keeps (P := fun both : Domain × Bool => I both.1 both.2)
    (fun mem keeps h => step keeps (hp _ mem) (declares_of_readDomainSection h)) start read

/-! ### Problems -/

/-- The problem that has been read in full. -/
def ProblemDraft.finish (draft : ProblemDraft) (d : Domain) (domain goal : String) : Problem :=
  { name := draft.name, domain, objects := Problem.populate d (constants d ++ draft.declared),
    init := draft.init, goal }

/-- **A problem that has been read** is what its sections describe. -/
theorem readProblem_eq_ok_iff {text : String} :
    readProblem d text ws = (.ok p, ws') ↔
      ∃ all draft domain goal, sections (stripComments text) = .ok all ∧
        (all.foldlM (readProblemSection d.name) {} : WarnM ProblemDraft) ws = (.ok draft, ws') ∧
        draft.domain? = some domain ∧ draft.goal? = some goal ∧ draft.finish d domain goal = p := by
  have finish (draft : ProblemDraft) (domain goal : String) :
      (constants d ++ draft.declared).foldl (fun p pair => p.addObject d pair.1 pair.2)
        { name := draft.name, domain, objects := NameSets.extend ∅ "" [], init := draft.init,
          goal } = draft.finish d domain goal := Problem.foldl_addObject _
  constructor
  · intro h
    obtain ⟨all, ws₁, hall, h⟩ := run_bind_eq_ok.mp h
    obtain ⟨draft, ws₂, hread, h⟩ := run_bind_eq_ok.mp h
    obtain ⟨found, same⟩ := Prod.mk.inj hall
    cases domain : draft.domain? with
    | none => rw [domain] at h; cases h
    | some name =>
        cases goal : draft.goal? with
        | none => rw [domain, goal] at h; cases h
        | some goal' =>
            rw [domain, goal] at h
            cases h
            cases same
            exact ⟨all, draft, name, goal', found, hread, domain, goal, (finish ..).symm⟩
  · rintro ⟨all, draft, domain, goal, found, hread, hdomain, hgoal, rfl⟩
    refine run_bind_eq_ok.mpr ⟨all, ws, ?_, run_bind_eq_ok.mpr ⟨draft, ws', hread, ?_⟩⟩
    · rw [found]
      rfl
    · rw [hdomain, hgoal, ← finish]
      rfl

/-- What one section of a problem describes. -/
inductive Describes (domain : String) (p : ProblemDraft) : List Piece → ProblemDraft → Prop where
  | name {body : List Piece} : Describes domain p (.word "problem" :: body)
      { p with name := (body.head?.bind Piece.word?).getD "" }
  | domain {rest : List Piece} : Describes domain p (.word ":domain" :: .word domain :: rest)
      { p with domain? := some domain }
  | objects {body : List Piece} {names : List (String × String)} (h : typedList body = .ok names) :
      Describes domain p (.word ":objects" :: body) { p with declared := p.declared ++ names }
  | init {body : List Piece} : Describes domain p (.word ":init" :: body)
      { p with init := p.init.insertMany (body.map fun piece => flatten piece.text) }
  | goal {goal : Piece} {rest : List Piece} : Describes domain p (.word ":goal" :: goal :: rest)
      { p with goal? := some (flatten goal.text) }
  | other {pieces : List Piece} (objects : sectionName? pieces ≠ some ":objects") :
      Describes domain p pieces p

/-- **One section of a problem** describes one thing. -/
theorem describes_of_readProblemSection
    (h : readProblemSection domain draft pieces ws = (.ok draft', ws')) :
    Describes domain draft pieces draft' := by
  generalize same : readProblemSection domain draft pieces = x at h
  unfold readProblemSection at same
  split at same <;> subst same
  · rename_i found
    cases h
    rw [exists_sectionName found]
    exact .name
  · rename_i found tail
    split at h <;> cases h
    rename_i same
    rw [exists_sectionName found, tail, same]
    exact .domain
  · cases h
  · rename_i found
    obtain ⟨names, ws₁, hnames, h⟩ := run_bind_eq_ok.mp h
    cases h
    rw [exists_sectionName found]
    exact .objects (run_orMalformed_eq_ok hnames).1
  · rename_i found
    cases h
    rw [exists_sectionName found]
    exact .init
  · rename_i found tail
    cases h
    rw [exists_sectionName found, tail]
    exact .goal
  · cases h
  · rename_i objects _ found _ _ _
    obtain ⟨_, ws₁, -, h⟩ := run_bind_eq_ok.mp h
    cases h
    exact .other fun same => objects (Option.some.inj (found.symm.trans same))
  · rename_i found
    cases h
    exact .other (found ▸ nofun)

/-- **What each section keeps** holds of what has been read of a problem. -/
theorem readProblem_keeps {I : ProblemDraft → Prop}
    (pieces : ∀ {all}, sections (stripComments text) = .ok all → ∀ ps ∈ all, ∀ p ∈ ps, P p)
    (start : I {})
    (step : ∀ {draft pieces draft'}, I draft → (∀ p ∈ pieces, P p) →
      Describes d.name draft pieces draft' → I draft')
    (h : readProblem d text ws = (.ok p, ws')) : ∃ draft domain goal, I draft ∧
      draft.domain? = some domain ∧ draft.goal? = some goal ∧ draft.finish d domain goal = p := by
  obtain ⟨all, draft, domain, goal, found, read, hdomain, hgoal, same⟩ := readProblem_eq_ok_iff.mp h
  have hp := pieces found
  exact ⟨draft, domain, goal, foldlM_keeps (fun mem keeps h => step keeps (hp _ mem)
    (describes_of_readProblemSection h)) start read, hdomain, hgoal, same⟩

end ClassicalPlanner.Pddl
