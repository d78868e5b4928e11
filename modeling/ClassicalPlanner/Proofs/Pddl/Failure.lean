import ClassicalPlanner.Proofs.Pddl.Reading
import ClassicalPlanner.Proofs.Text.Flatten

/-!
# How reading a definition fails

A definition that is not accepted is malformed, lacks a section, or is for another domain; nothing
else is said of it (`complains_readDomain`, `complains_readProblem`).

A definition that is accepted is readable in all its parts: each of its formulas is a piece of the
text, put on one line, so the parentheses of the formula match (`readable_readDomain`,
`readable_readProblem`).
-/

namespace ClassicalPlanner

open Text Session

/-- The error is one that reading a definition may end in. -/
def PlanningError.OfReading : PlanningError → Prop
  | .malformed _ | .missingSection _ | .domainMismatch _ _ => True
  | _ => False

/-- The parentheses of both formulas match. -/
structure Schema.Readable (a : Schema) : Prop where
  precondition : Paired a.precondition.toList
  effect : Paired a.effect.toList

/-- The parentheses of all formulas match. -/
structure Problem.Readable (p : Problem) : Prop where
  init : ∀ atom ∈ p.init, Paired atom.toList
  goal : Paired p.goal.toList

namespace Pddl

variable {α β : Type} {pieces : List Piece} {text : String} {d : Domain} {ws ws' : List Warning}

/-! ### Errors of reading -/

/-- A result that, if it is an error, is one of reading. -/
def Complaint (r : Except PlanningError α) : Prop := ∀ e, r = .error e → e.OfReading

/-- The operation fails only in errors of reading. -/
def Complains (x : WarnM α) : Prop := ∀ ws, Complaint (x ws).1

theorem complaint_ok (a : α) : Complaint (.ok a) := fun _ h => by cases h

theorem complaint_error {e : PlanningError} (he : e.OfReading) :
    Complaint (.error e : Except PlanningError α) := fun _ h => by cases h; exact he

theorem Complaint.bind {x : Except PlanningError α} {f : α → Except PlanningError β}
    (hx : Complaint x) (hf : ∀ a, Complaint (f a)) : Complaint (x >>= f) := by
  cases x with
  | error e => exact complaint_error (hx e rfl)
  | ok a => exact hf a

theorem complaint_orMalformed (x : Except Malformation α) :
    Complaint (orMalformed x : Except PlanningError α) := by
  cases x with
  | ok a => exact complaint_ok a
  | error cause => exact complaint_error trivial

theorem complaint_mapM {f : α → Except PlanningError β} (hf : ∀ a, Complaint (f a))
    (l : List α) : Complaint (l.mapM f) := by
  induction l with
  | nil => exact complaint_ok []
  | cons a l ih =>
      rw [List.mapM_cons]
      exact (hf a).bind fun b => ih.bind fun bs => complaint_ok (b :: bs)

/-- What is not cut into sections is malformed or is no definition. -/
theorem complaint_sections (text : String) : Complaint (sections text) := by
  refine (complaint_orMalformed _).bind fun forms => ?_
  split
  · exact complaint_error trivial
  · exact complaint_error trivial
  · refine (complaint_orMalformed _).bind fun parts => ?_
    split
    · exact complaint_mapM (fun inside => complaint_orMalformed _) _
    · exact complaint_error trivial
  · exact complaint_error trivial

namespace Complains

theorem pure (a : α) : Complains (pure a) := fun _ => complaint_ok a

theorem throw {e : PlanningError} (he : e.OfReading) : Complains (throw e : WarnM α) :=
  fun _ => complaint_error he

theorem warn (w : Warning) : Complains (warn w) := fun _ => complaint_ok ()

theorem lift {x : Except PlanningError α} (hx : Complaint x) : Complains (liftM x : WarnM α) :=
  fun _ => hx

theorem orMalformed (x : Except Malformation α) : Complains (orMalformed x : WarnM α) := by
  cases x with
  | ok a => exact pure a
  | error cause => exact throw trivial

theorem bind {x : WarnM α} {f : α → WarnM β} (hx : Complains x) (hf : ∀ a, Complains (f a)) :
    Complains (x >>= f) := by
  intro ws
  have first := hx ws
  rw [run_bind]
  rcases hxw : x ws with ⟨e | a, ws₁⟩ <;> rw [hxw] at first
  · exact complaint_error (first e rfl)
  · exact hf a ws₁

theorem foldlM {f : β → α → WarnM β} (hf : ∀ b a, Complains (f b a)) (l : List α) (b : β) :
    Complains (l.foldlM f b) := by
  induction l generalizing b with
  | nil => exact pure b
  | cons a l ih => exact bind (hf b a) ih

end Complains

theorem complains_readFields (a : Schema) (pieces : List Piece) :
    Complains (readFields a pieces) := by
  induction a, pieces using readFields.induct with
  | case1 a => exact .pure a
  | case2 a value rest inside found ih =>
      rw [readFields, found]
      exact .bind (.orMalformed _) ih
  | case3 a value rest missing =>
      cases value with
      | word text => exact .throw trivial
      | group inside => exact absurd rfl (missing inside)
  | case4 a value rest ih => exact ih
  | case5 a value rest ih => exact ih
  | case6 a keyword =>
      rw [readFields]
      exact .bind (.warn _) fun _ => .pure a
  | case7 a keyword value rest _ _ _ ih =>
      rw [readFields]
      · exact .bind (.warn _) fun _ => ih
      all_goals assumption
  | case8 a piece rest _ _ _ _ _ =>
      rw [readFields]
      · exact .throw trivial
      all_goals assumption

theorem complains_readAction (pieces : List Piece) : Complains (readAction pieces) := by
  unfold readAction
  split
  · exact complains_readFields _ _
  · exact .throw trivial

theorem complains_readDomainSection (d : Domain) (named : Bool) (pieces : List Piece) :
    Complains (readDomainSection d named pieces) := by
  unfold readDomainSection
  split
  · exact .pure _
  · exact .throw trivial
  · exact .pure _
  · exact .bind (.orMalformed _) fun _ => .pure _
  · exact .bind (.orMalformed _) fun _ => .pure _
  · exact .pure _
  · exact .bind (complains_readAction _) fun _ => .pure _
  · exact .bind (.warn _) fun _ => .pure _
  · exact .pure _

/-- **A domain that cannot be read** is malformed or lacks a section. -/
theorem complains_readDomain (text : String) : Complains (readDomain text) := by
  refine .bind (.lift (complaint_sections _)) fun all => ?_
  refine .bind (.foldlM (fun both pieces => complains_readDomainSection both.1 both.2 pieces) all _)
    fun both => ?_
  obtain ⟨d, named⟩ := both
  cases named with
  | true => exact .pure d
  | false => exact .throw trivial

theorem complains_readProblemSection (domain : String) (draft : ProblemDraft)
    (pieces : List Piece) : Complains (readProblemSection domain draft pieces) := by
  unfold readProblemSection
  split
  · exact .pure _
  · split
    · exact .pure _
    · exact .throw trivial
  · exact .throw trivial
  · exact .bind (.orMalformed _) fun _ => .pure _
  · exact .pure _
  · exact .pure _
  · exact .throw trivial
  · exact .bind (.warn _) fun _ => .pure _
  · exact .pure _

/-- **A problem that cannot be read** is malformed, lacks a section, or is for another domain. -/
theorem complains_readProblem (d : Domain) (text : String) : Complains (readProblem d text) := by
  refine .bind (.lift (complaint_sections _)) fun all => ?_
  refine .bind (.foldlM (complains_readProblemSection d.name) all {}) fun draft => ?_
  cases draft.domain? with
  | none => exact .throw trivial
  | some domain =>
      cases draft.goal? with
      | none => exact .throw trivial
      | some goal => exact .pure _

/-! ### Readable definitions -/

theorem Piece.Proper.paired {p : Piece} (h : p.Proper) : Paired p.text.toList := by
  obtain ⟨fragments, written, -⟩ := split_eq_ok_iff.mp h.split_text
  exact written.paired

theorem proper_sections {all : List (List Piece)} (h : sections text = .ok all) :
    ∀ pieces ∈ all, ∀ p ∈ pieces, p.Proper :=
  forall_sections (T := fun _ => True) (fun _ found p mem => (Piece.proper_split found p mem).1)
    (fun _ => trivial) trivial h

theorem readable_readAction {a : Schema} (hp : ∀ p ∈ pieces, p.Proper)
    (h : readAction pieces ws = (.ok a, ws')) : a.Readable := by
  obtain ⟨name, fields, rfl, h⟩ := readAction_eq_ok h
  have start : Schema.Readable { name } := ⟨nest_nil, nest_nil⟩
  exact readFields_keeps (List.forall_mem_of_forall_mem_cons hp)
    (fun ha _ _ _ => ⟨ha.precondition, ha.effect⟩)
    (fun ha hv => ⟨paired_flatten.mpr hv.paired, ha.effect⟩)
    (fun ha hv => ⟨ha.precondition, paired_flatten.mpr hv.paired⟩) start h

/-- **The actions of a domain** that has been read are readable. -/
theorem readable_readDomain (h : readDomain text ws = (.ok d, ws')) :
    ∀ a ∈ d.actions, a.Readable := by
  refine readDomain_keeps (I := fun d _ => ∀ a ∈ d.actions, a.Readable) proper_sections
    (fun _ h => absurd h List.not_mem_nil) (fun readable hp h => ?_) h
  cases h with
  | action found =>
      exact List.forall_mem_append.mpr ⟨readable, List.forall_mem_singleton.mpr
        (readable_readAction (List.forall_mem_of_forall_mem_cons hp) found)⟩
  | _ => exact readable

/-- The parentheses of what has been read match. -/
structure ProblemDraft.Readable (draft : ProblemDraft) : Prop where
  init : ∀ atom ∈ draft.init, Paired atom.toList
  goal : ∀ goal ∈ draft.goal?, Paired goal.toList

theorem readable_describes {domain : String} {draft draft' : ProblemDraft}
    (readable : draft.Readable) (hp : ∀ p ∈ pieces, p.Proper)
    (h : Describes domain draft pieces draft') : draft'.Readable := by
  cases h with
  | init =>
      refine ⟨fun atom mem => ?_, readable.goal⟩
      rcases Std.ExtTreeSet.mem_insertMany_list.mp mem with mem | mem
      · exact readable.init atom mem
      · obtain ⟨p, listed, rfl⟩ := List.mem_map.mp (List.contains_iff_mem.mp mem)
        exact paired_flatten.mpr (hp p (List.mem_cons_of_mem _ listed)).paired
  | goal =>
      refine ⟨readable.init, fun goal same => ?_⟩
      cases same
      exact paired_flatten.mpr (hp _ (List.mem_cons_of_mem _ List.mem_cons_self)).paired
  | _ => exact ⟨readable.init, readable.goal⟩

/-- **The formulas of a problem** that has been read are readable. -/
theorem readable_readProblem {p : Problem} (h : readProblem d text ws = (.ok p, ws')) :
    p.Readable := by
  obtain ⟨draft, domain, goal, readable, -, hgoal, rfl⟩ := readProblem_keeps proper_sections
    ⟨fun _ h => absurd h Std.ExtTreeSet.not_mem_empty, nofun⟩ readable_describes h
  exact ⟨readable.init, readable.goal goal hgoal⟩

end Pddl

end ClassicalPlanner
