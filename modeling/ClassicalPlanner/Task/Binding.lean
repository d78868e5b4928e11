import ClassicalPlanner.Model.Domain

/-!
# Bindings

The ways to give each parameter an object of its group.  The first parameter varies fastest, and
objects come in the order of their names.
-/

namespace ClassicalPlanner

/-- An object for each parameter, in the order of the parameters. -/
abbrev Binding := List (String × String)

/-- Every binding of parameters to members of their groups.  A group that is absent has no
members. -/
def bindings (objects : NameSets) (parameters : List Parameter) : List Binding :=
  parameters.foldl
    (fun shorter parameter =>
      (objects.getD parameter.group ∅).toList.flatMap fun object =>
        shorter.map fun binding => binding ++ [(parameter.name, object)])
    [[]]

end ClassicalPlanner
