import ClassicalPlanner.Proofs.Pddl.NameSets
import ClassicalPlanner.Proofs.Session.World
import ClassicalPlanner.Task.Binding
import Mathlib.Algebra.BigOperators.Fin
import Mathlib.Data.List.ProdSigma

/-!
# The order of bindings

The bindings of parameters follow each other like the readings of a counter: each parameter has a
wheel with the objects of its group on it, in the order of their names, and the first wheel turns
fastest (`getElem?_bindings`).  A turn of a wheel by one object counts as many bindings as there are
for the parameters before it.

So there are as many bindings as the product of the numbers of objects (`length_bindings`), every
way to give the parameters objects is among them (`mem_bindings_iff`), and none is there twice
(`nodup_bindings`).
-/

namespace ClassicalPlanner

open Session

variable {objects : NameSets} {p : Parameter} {ps : List Parameter} {b : Binding}
variable {shorter : List Binding}

/-! ### One parameter more -/

theorem bindings_append (objects : NameSets) (ps : List Parameter) (p : Parameter) :
    bindings objects (ps ++ [p]) = (objects.getD p.group ∅).toList.flatMap fun object =>
      (bindings objects ps).map fun binding => binding ++ [(p.name, object)] := by
  unfold bindings
  rw [List.foldl_append]
  rfl

/-- The objects of all bindings are those of the shorter ones, each with every object of the last
group. -/
theorem bindings_objects (objects : NameSets) (ps : List Parameter) (p : Parameter) :
    (bindings objects (ps ++ [p])).map (·.map Prod.snd) =
      ((objects.getD p.group ∅).toList ×ˢ (bindings objects ps).map (·.map Prod.snd)).map
        fun (object, others) => others ++ [object] := by
  rw [bindings_append]
  simp [SProd.sprod, List.product, List.map_flatMap, Function.comp_def]

/-- No two bindings have the same objects. -/
theorem nodup_bindings (objects : NameSets) (ps : List Parameter) :
    ((bindings objects ps).map (·.map Prod.snd)).Nodup := by
  induction ps using List.reverseRecOn with
  | nil => exact List.nodup_singleton []
  | append_singleton ps p ih =>
      rw [bindings_objects]
      refine (List.Nodup.product nodup_toList ih).map ?_
      rintro ⟨object, others⟩ ⟨object', others'⟩ same
      obtain ⟨rfl, last⟩ := List.append_inj' same rfl
      rw [List.singleton_inj.mp last]

theorem mem_of_mem_bindings (h : b ∈ bindings objects ps) :
    ∀ pair ∈ b, ∃ group, pair.2 ∈ objects.getD group ∅ := by
  induction ps using List.reverseRecOn generalizing b with
  | nil =>
      obtain rfl := List.mem_singleton.mp h
      exact fun _ h => absurd h List.not_mem_nil
  | append_singleton ps p ih =>
      rw [bindings_append] at h
      obtain ⟨object, hobject, h⟩ := List.mem_flatMap.mp h
      obtain ⟨shorter, hshorter, rfl⟩ := List.mem_map.mp h
      refine List.forall_mem_append.mpr ⟨ih hshorter, List.forall_mem_singleton.mpr ?_⟩
      exact ⟨p.group, Std.ExtTreeSet.mem_toList.mp hobject⟩

theorem forall₂_concat_iff {α β : Type} {R : α → β → Prop} {l : List α} {a : α} {m : List β} :
    List.Forall₂ R (l ++ [a]) m ↔ ∃ front last, m = front ++ [last] ∧ List.Forall₂ R l front ∧
      R a last := by
  constructor
  · intro h
    obtain rfl | ⟨front, last, rfl⟩ := m.eq_nil_or_concat'
    · simp at h
    · rw [← List.forall₂_reverse_iff] at h
      simp only [List.reverse_append, List.reverse_singleton, List.singleton_append,
        List.forall₂_cons, List.forall₂_reverse_iff] at h
      exact ⟨front, last, rfl, h.2, h.1⟩
  · rintro ⟨front, last, rfl, h, hlast⟩
    exact List.rel_append h (.cons hlast .nil)

/-- The bindings give each parameter an object of its group, in every way there is. -/
theorem mem_bindings_iff : b ∈ bindings objects ps ↔
    List.Forall₂ (fun q pair => pair.1 = q.name ∧ pair.2 ∈ objects.getD q.group ∅) ps b := by
  induction ps using List.reverseRecOn generalizing b with
  | nil => simp [bindings]
  | append_singleton ps q ih =>
      rw [bindings_append, forall₂_concat_iff]
      constructor
      · intro mem
        obtain ⟨object, member, mem⟩ := List.mem_flatMap.mp mem
        obtain ⟨shorter, hshorter, rfl⟩ := List.mem_map.mp mem
        exact ⟨shorter, _, rfl, ih.mp hshorter, rfl, Std.ExtTreeSet.mem_toList.mp member⟩
      · rintro ⟨shorter, ⟨_, object⟩, rfl, each, rfl, member⟩
        exact List.mem_flatMap.mpr ⟨object, Std.ExtTreeSet.mem_toList.mpr member,
          List.mem_map.mpr ⟨shorter, ih.mpr each, rfl⟩⟩

/-! ### Wheels -/

/-- The objects on the wheel of a parameter. -/
def Parameter.wheel (objects : NameSets) (p : Parameter) : List String :=
  (objects.getD p.group ∅).toList

/-- On the wheel are the members of the group, in the order of their names; there are none if the
group is absent. -/
theorem Parameter.wheel_sorted (objects : NameSets) (p : Parameter) :
    (p.wheel objects).Pairwise (· < ·) ∧
      ∀ object, object ∈ p.wheel objects ↔
        ∃ group, objects[p.group]? = some group ∧ object ∈ group := by
  have ordered : (p.wheel objects).Pairwise fun a b => compare a b = .lt :=
    Std.ExtTreeSet.ordered_toList
  refine ⟨ordered.imp compareOfLessAndEq_eq_lt.mp, fun object => ?_⟩
  rw [wheel, Std.ExtTreeSet.mem_toList, NameSets.mem_getD_iff]

/-- The number of ways to give each parameter an object. -/
def ways (objects : NameSets) (ps : List Parameter) : Nat :=
  (ps.map fun p => (p.wheel objects).length).prod

theorem ways_cons (objects : NameSets) (p : Parameter) (ps : List Parameter) :
    ways objects (p :: ps) = (p.wheel objects).length * ways objects ps := List.prod_cons

/-- How far each wheel has turned. -/
abbrev Reading (objects : NameSets) (ps : List Parameter) : Type :=
  (i : Fin ps.length) → Fin (ps[i].wheel objects).length

namespace Reading

/-- The objects that the wheels show. -/
def binding (r : Reading objects ps) : Binding :=
  List.ofFn fun i => (ps[i].name, (ps[i].wheel objects)[r i])

/-- The number of bindings before this one. -/
def place (r : Reading objects ps) : Nat := ∑ i, r i * ways objects (ps.take i)

/-- The reading without the first wheel. -/
def tail (r : Reading objects (p :: ps)) : Reading objects ps := fun i => r i.succ

theorem binding_cons (r : Reading objects (p :: ps)) :
    r.binding = (p.name, (p.wheel objects)[r 0]) :: r.tail.binding := List.ofFn_succ

/-- A turn of the first wheel counts one, and all others count as often as it has objects. -/
theorem place_cons (r : Reading objects (p :: ps)) :
    r.place = r 0 + (p.wheel objects).length * r.tail.place := by
  have first : ways objects ((p :: ps).take 0) = 1 := rfl
  have rest (i : Fin ps.length) : ways objects ((p :: ps).take i.succ) =
      (p.wheel objects).length * ways objects (ps.take i) := ways_cons objects p _
  have split : r.place = r 0 * ways objects ((p :: ps).take 0) +
      ∑ i, r.tail i * ways objects ((p :: ps).take i.succ) := Fin.sum_univ_succ _
  rw [split, first, Nat.mul_one, place, Finset.mul_sum]
  simp only [rest, Nat.mul_left_comm]

end Reading

/-! ### Places -/

/-- The member of a list that is put together from blocks of one length. -/
theorem getElem?_flatMap_block {α β : Type} {l : List α} {f : α → List β} {m i j : Nat} {a : α}
    (h : ∀ a ∈ l, (f a).length = m) (ha : l[i]? = some a) (hj : j < m) :
    (l.flatMap f)[j + m * i]? = (f a)[j]? := by
  induction l generalizing i with
  | nil => cases ha
  | cons a' l ih =>
      obtain ⟨first, rest⟩ := List.forall_mem_cons.mp h
      rw [List.flatMap_cons]
      cases i with
      | zero =>
          cases ha
          exact List.getElem?_append_left (first ▸ hj)
      | succ i =>
          have next : j + m * (i + 1) = m + (j + m * i) := by rw [Nat.mul_succ]; omega
          rw [next, ← first, List.getElem?_append_right (Nat.le_add_right _ _),
            Nat.add_sub_cancel_left, first]
          exact ih rest ha

/-- The bindings that give one parameter more an object. -/
def extended (objects : NameSets) (shorter : List Binding) (p : Parameter) : List Binding :=
  (p.wheel objects).flatMap fun object => shorter.map fun binding => binding ++ [(p.name, object)]

theorem length_extended (objects : NameSets) (shorter : List Binding) (p : Parameter) :
    (extended objects shorter p).length = shorter.length * (p.wheel objects).length := by
  simp [extended, List.length_flatMap, Nat.mul_comm]

/-- The bindings with one object of the new parameter stand together. -/
theorem getElem?_extended {i : Nat} (h : shorter[i]? = some b)
    (j : Fin (p.wheel objects).length) :
    (extended objects shorter p)[i + shorter.length * j]? =
      some (b ++ [(p.name, (p.wheel objects)[j])]) := by
  rw [extended, getElem?_flatMap_block (fun _ _ => List.length_map _)
    (List.getElem?_eq_getElem j.isLt) (List.getElem?_eq_some_iff.mp h).1, List.getElem?_map, h]
  rfl

theorem length_foldl_extended (objects : NameSets) (shorter : List Binding)
    (ps : List Parameter) :
    (ps.foldl (extended objects) shorter).length = shorter.length * ways objects ps := by
  induction ps generalizing shorter with
  | nil => exact (Nat.mul_one _).symm
  | cons p ps ih => rw [List.foldl_cons, ih, length_extended, ways_cons, Nat.mul_assoc]

theorem getElem?_foldl_extended {i : Nat} (h : shorter[i]? = some b) (r : Reading objects ps) :
    (ps.foldl (extended objects) shorter)[i + shorter.length * r.place]? =
      some (b ++ r.binding) := by
  induction ps generalizing shorter b i with
  | nil => simpa [Reading.place, Reading.binding] using h
  | cons p ps ih =>
      have next := ih (getElem?_extended (p := p) h (r 0)) r.tail
      rw [length_extended, Nat.add_assoc, Nat.mul_assoc, ← Nat.mul_add, ← Reading.place_cons,
        List.append_assoc, List.singleton_append] at next
      rw [r.binding_cons]
      exact next

theorem length_bindings (objects : NameSets) (ps : List Parameter) :
    (bindings objects ps).length = ways objects ps :=
  (length_foldl_extended objects [[]] ps).trans (Nat.one_mul _)

/-- **The binding at a place** is the one that the wheels show. -/
theorem getElem?_bindings (r : Reading objects ps) :
    (bindings objects ps)[r.place]? = some r.binding := by
  have first : ([[]] : List Binding)[0]? = some [] := rfl
  have found := getElem?_foldl_extended first r
  rwa [Nat.zero_add, List.length_singleton, Nat.one_mul] at found

/-- Where a group is absent there is no way. -/
theorem ways_eq_zero (hp : p ∈ ps) (absent : p.group ∉ objects) : ways objects ps = 0 := by
  refine List.prod_eq_zero (List.mem_map.mpr ⟨p, hp, ?_⟩)
  rw [Parameter.wheel, Std.ExtTreeMap.getD_eq_fallback absent]
  rfl

/-- **Every binding once, the first parameter fastest.**  There is no binding if the group of some
parameter is absent, and one for no parameters.  In any case there are as many as the product of the
numbers of members of the groups.  If the parameters are given certain members of their groups, each
at its place in the order of names, the binding stands where the place of the first counts one, that
of the second the number of members of the first group, and so on.  So every way to give each
parameter a member of its group is among the bindings, and none is there twice. -/
theorem bindings_enumerate (objects : NameSets) (ps : List Parameter) :
    ((∃ p ∈ ps, p.group ∉ objects) → bindings objects ps = []) ∧
    (ps = [] → bindings objects ps = [[]]) ∧
    (bindings objects ps).length = (ps.map fun p => (p.wheel objects).length).prod ∧
    (∀ r : Reading objects ps,
      (bindings objects ps)[∑ i, r i * ((ps.take i).map fun p => (p.wheel objects).length).prod]? =
        some (List.ofFn fun i => (ps[i].name, (ps[i].wheel objects)[r i]))) ∧
    (∀ p ∈ ps, (p.wheel objects).Pairwise (· < ·) ∧ ∀ object, object ∈ p.wheel objects ↔
      ∃ group, objects[p.group]? = some group ∧ object ∈ group) ∧
    (bindings objects ps).Nodup ∧
    ∀ b, b ∈ bindings objects ps ↔
      List.Forall₂ (fun p pair => pair.1 = p.name ∧ pair.2 ∈ p.wheel objects) ps b := by
  refine ⟨fun ⟨p, hp, absent⟩ => ?_, ?_, length_bindings objects ps, getElem?_bindings,
    fun p _ => p.wheel_sorted objects, (nodup_bindings objects ps).of_map, fun b => ?_⟩
  · exact List.length_eq_zero_iff.mp ((length_bindings objects ps).trans (ways_eq_zero hp absent))
  · rintro rfl
    rfl
  · simp only [mem_bindings_iff, Parameter.wheel, Std.ExtTreeSet.mem_toList]

namespace Stock

/-- Three blocks, two tables and no lids. -/
def groups : NameSets :=
  ((NameSets.extend ∅ "block" ["c", "a", "b"]).extend "table" ["u", "t"]).extend "lid" []

/-- A block on a table, and another block. -/
def placing : List Parameter := [⟨"?x", "block"⟩, ⟨"?y", "table"⟩, ⟨"?z", "block"⟩]

end Stock

open Stock in
/-- The last block, the last table and the second block are found at 2 + 1 · 3 + 1 · (3 · 2). -/
theorem bindings_enumerate_stock :
    (bindings groups placing).length = 18 ∧
    (bindings groups placing)[11]? = some [("?x", "c"), ("?y", "u"), ("?z", "b")] ∧
    bindings groups (placing ++ [⟨"?w", "ghost"⟩]) = [] ∧
    (bindings groups (placing ++ [⟨"?w", "lid"⟩])).length = 0 := by
  obtain ⟨-, -, count, at_place, -⟩ := bindings_enumerate groups placing
  obtain ⟨absent, -⟩ := bindings_enumerate groups (placing ++ [⟨"?w", "ghost"⟩])
  obtain ⟨-, -, none, -⟩ := bindings_enumerate groups (placing ++ [⟨"?w", "lid"⟩])
  have turned : ∀ i : Fin placing.length,
      (if i.val = 0 then 2 else 1) < (placing[i].wheel groups).length := by decide
  exact ⟨count.trans (by decide), at_place fun i => ⟨_, turned i⟩,
    absent ⟨⟨"?w", "ghost"⟩, by decide, by decide⟩, none.trans (by decide)⟩

end ClassicalPlanner
