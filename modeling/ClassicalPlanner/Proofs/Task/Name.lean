import ClassicalPlanner.Proofs.Pddl.Name
import ClassicalPlanner.Proofs.Task.Binding
import ClassicalPlanner.Proofs.Task.Grounding

/-!
# Names of ground actions

A ground action is named by its schema and the objects put for the parameters, with spaces between
them.  Names that are solid can be told apart again in it (`groundName_injective`).  So two ground
actions have one name only if their schemata have one and the objects are the same
(`nodup_groundNames_iff`), and no two have if no two schemata do (`nodup_groundNames`).
-/

namespace ClassicalPlanner

open Session

variable {objects : NameSets} {d : Domain} {p : Problem} {a a' : Schema} {b b' : Binding}

/-! ### Names -/

theorem intercalate_append {α : Type} (sep l l' : List α) (rest : List (List α)) :
    sep.intercalate ((l ++ l') :: rest) = l ++ sep.intercalate (l' :: rest) := by
  cases rest with
  | nil => simp
  | cons first rest => simp [List.intercalate_cons_cons]

namespace Schema

/-- The name of a ground action, with spaces between the names in it. -/
theorem toList_groundName (a : Schema) (b : Binding) : (a.groundName b).toList =
    [' '].intercalate (a.name.toList :: (b.map Prod.snd).map String.toList) := by
  unfold groundName
  generalize a.name = name
  induction b generalizing name with
  | nil => simp
  | cons pair b ih =>
      rw [List.foldl_cons, ih, List.map_cons, List.map_cons, List.intercalate_cons_cons,
        String.toList_append, String.toList_append, intercalate_append]
      rfl

/-- **The schema and the objects** can be read off the name of a ground action. -/
theorem groundName_injective (ha : Text.Solid a.name) (ha' : Text.Solid a'.name)
    (hb : ∀ pair ∈ b, Text.Solid pair.2) (hb' : ∀ pair ∈ b', Text.Solid pair.2)
    (h : a.groundName b = a'.groundName b') :
    a.name = a'.name ∧ b.map Prod.snd = b'.map Prod.snd := by
  have split {a : Schema} {b : Binding} (ha : Text.Solid a.name)
      (hb : ∀ pair ∈ b, Text.Solid pair.2) : (a.groundName b).toList.splitOn ' ' =
        a.name.toList :: (b.map Prod.snd).map String.toList := by
    rw [toList_groundName]
    refine List.splitOn_intercalate _ ?_ (List.cons_ne_nil _ _)
    refine List.forall_mem_cons.mpr ⟨ha.no_space, ?_⟩
    exact List.forall_mem_map.mpr (List.forall_mem_map.mpr fun pair mem => (hb pair mem).no_space)
  have same := split ha hb
  rw [h, split ha' hb'] at same
  obtain ⟨name, objects⟩ := List.cons.inj same
  refine ⟨String.toList_injective name.symm, ?_⟩
  exact List.map_injective_iff.mpr (fun _ _ => String.toList_injective) objects.symm

/-- The name of a ground action tells nothing else. -/
theorem groundName_congr (name : a.name = a'.name) (same : b.map Prod.snd = b'.map Prod.snd) :
    a.groundName b = a'.groundName b' := by
  rw [← String.toList_inj, toList_groundName, toList_groundName, name, same]

/-- Two schemata of one name, and some objects to which the parameters of both can be bound. -/
def Collides (objects : NameSets) (a a' : Schema) : Prop :=
  a.name = a'.name ∧ ∃ b ∈ bindings objects a.parameters, ∃ b' ∈ bindings objects a'.parameters,
    b.map Prod.snd = b'.map Prod.snd

instance (objects : NameSets) (a a' : Schema) : Decidable (a.Collides objects a') :=
  inferInstanceAs (Decidable (_ ∧ _))

theorem solid_of_mem_bindings (h : objects.Solid) (hb : b ∈ bindings objects a.parameters) :
    ∀ pair ∈ b, Text.Solid pair.2 := by
  intro pair mem
  obtain ⟨group, member⟩ := mem_of_mem_bindings hb pair mem
  exact h group pair.2 member

/-- The ground actions of one schema have different names. -/
theorem nodup_groundNames (h : objects.Solid) (ha : Text.Solid a.name) :
    (a.groundNames objects).Nodup := by
  have nodup := nodup_bindings objects a.parameters
  refine nodup.of_map.map_on fun b hb b' hb' same => ?_
  obtain ⟨-, objects⟩ := groundName_injective ha ha (solid_of_mem_bindings h hb)
    (solid_of_mem_bindings h hb') same
  exact List.inj_on_of_nodup_map nodup hb hb' objects

/-- Two schemata share the name of a ground action if they collide, and only then. -/
theorem disjoint_groundNames_iff (h : objects.Solid) (ha : Text.Solid a.name)
    (ha' : Text.Solid a'.name) :
    (a.groundNames objects).Disjoint (a'.groundNames objects) ↔ ¬a.Collides objects a' := by
  constructor
  · rintro disjoint ⟨names, b, hb, b', hb', same⟩
    refine disjoint (List.mem_map_of_mem hb) ?_
    rw [groundName_congr names same]
    exact List.mem_map_of_mem hb'
  · intro apart name mem mem'
    obtain ⟨b, hb, rfl⟩ := List.mem_map.mp mem
    obtain ⟨b', hb', same⟩ := List.mem_map.mp mem'
    obtain ⟨names, objects⟩ := groundName_injective ha ha' (solid_of_mem_bindings h hb)
      (solid_of_mem_bindings h hb') same.symm
    exact apart ⟨names, b, hb, b', hb', objects⟩

end Schema

/-- **No two ground actions** have one name, if no two schemata collide, and only then. -/
theorem nodup_groundNames_iff (hd : Pddl.SolidNames d) (hp : p.objects.Solid) :
    (groundNames d p).Nodup ↔ d.actions.Pairwise fun a a' => ¬a.Collides p.objects a' := by
  refine List.nodup_flatMap.trans ((and_iff_right fun a ha => ?_).trans ?_)
  · exact Schema.nodup_groundNames hp (hd.actions a ha)
  · exact List.Pairwise.iff_of_mem fun ha ha' =>
      Schema.disjoint_groundNames_iff hp (hd.actions _ ha) (hd.actions _ ha')

/-- Schemata of different names do not collide. -/
theorem not_collides_of_distinct (distinct : (d.actions.map (·.name)).Nodup) :
    d.actions.Pairwise fun a a' => ¬a.Collides objects a' :=
  (List.pairwise_map.mp distinct).imp fun ne collides => ne collides.1

/-- **No two ground actions** have one name, if no two schemata have. -/
theorem nodup_groundNames (hd : Pddl.SolidNames d) (hp : p.objects.Solid)
    (distinct : (d.actions.map (·.name)).Nodup) : (groundNames d p).Nodup :=
  (nodup_groundNames_iff hd hp).mpr (not_collides_of_distinct distinct)

end ClassicalPlanner
