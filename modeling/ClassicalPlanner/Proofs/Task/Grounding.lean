import ClassicalPlanner.Task.Basic
import ClassicalPlanner.Proofs.Session.Registration
import ClassicalPlanner.Proofs.Session.Retention
import ClassicalPlanner.Proofs.Task.Pruning

/-!
# Grounding

A grounded problem speaks only of expressions that its session knows (`registers_ground`).  Its
actions have the names of their schemata with objects, one for each binding, and rising numbers
(`ground_eq_ok`).

Grounding again gives the same actions and adds nothing (`recurs_ground`).  Grounding with pruning
is grounding without it, and then pruning (`ofProblem_pruned`).
-/

namespace ClassicalPlanner

open Session

variable {s s' : Session} {t t' : ActionTable} {a : GroundAction} {d : Domain} {p : Problem}

/-! ### Tables -/

theorem find?_eq_some_of_unique {α : Type} {l : List α} {f : α → Bool} {a : α} (mem : a ∈ l)
    (found : f a = true) (unique : ∀ b ∈ l, f b = true → b = a) : l.find? f = some a := by
  cases h : l.find? f with
  | none => exact absurd found (List.find?_eq_none.mp h a mem)
  | some b => rw [unique b (List.mem_of_find?_eq_some h) (List.find?_some h)]

namespace ActionTable

/-- The numbers of the actions rise. -/
def Rises (t : ActionTable) : Prop := t.toList.Pairwise fun a b => a.id.index < b.id.index

theorem Rises.id_unique (h : t.Rises) {b : GroundAction} (ha : a ∈ t.toList) (hb : b ∈ t.toList)
    (same : a.id = b.id) : a = b := by
  by_contra ne
  have h := List.pairwise_iff_getElem.mp h
  obtain ⟨i, hi, rfl⟩ := List.mem_iff_getElem.mp ha
  obtain ⟨j, hj, rfl⟩ := List.mem_iff_getElem.mp hb
  rcases Nat.lt_trichotomy i j with lt | rfl | lt
  · exact UInt32.lt_irrefl _ (same ▸ h i j hi hj lt)
  · exact ne rfl
  · exact UInt32.lt_irrefl _ (same ▸ h j i hj hi lt)

theorem Rises.nodup (h : t.Rises) : t.toList.Nodup := by
  refine List.Pairwise.imp (fun {a b} lt => ?_) h
  rintro rfl
  exact UInt32.lt_irrefl _ lt

theorem Rises.get? (h : t.Rises) (ha : a ∈ t.toList) : t.get? a.id = some a := by
  unfold ActionTable.get?
  rw [← Array.find?_toList]
  exact find?_eq_some_of_unique ha (beq_self_eq_true _) fun b hb same =>
    h.id_unique hb ha (beq_iff_eq.mp same)

theorem mem_of_get? {id : ActionId} (h : t.get? id = some a) : a ∈ t.toList ∧ a.id = id := by
  unfold ActionTable.get? at h
  rw [← Array.find?_toList] at h
  have same := List.find?_some h
  exact ⟨List.mem_of_find?_eq_some h, beq_iff_eq.mp same⟩

/-- Some action is found by the name of one. -/
theorem exists_find? (ha : a ∈ t.toList) : ∃ b ∈ t.toList, t.find? a.name = some b := by
  obtain ⟨b, found⟩ : ∃ b, t.toList.find? (·.name == a.name) = some b :=
    Option.isSome_iff_exists.mp (List.find?_isSome.mpr ⟨a, ha, beq_self_eq_true a.name⟩)
  exact ⟨b, List.mem_of_find?_eq_some found, Array.find?_toList.symm.trans found⟩

/-- Where no name is given twice, an action is found by its name. -/
theorem find?_name (h : (t.toList.map (·.name)).Nodup) (ha : a ∈ t.toList) :
    t.find? a.name = some a := by
  unfold ActionTable.find?
  rw [← Array.find?_toList]
  exact find?_eq_some_of_unique ha (beq_self_eq_true _) fun b hb same =>
    List.inj_on_of_nodup_map h hb ha (beq_iff_eq.mp same)

/-- All numbers given so far are below the next one. -/
structure Ordered (t : ActionTable) : Prop where
  rises : t.Rises
  issued : ∀ a ∈ t.toList, a.id.index ≤ t.issued

theorem ordered_empty : (∅ : ActionTable).Ordered :=
  ⟨List.Pairwise.nil, fun _ h => absurd h List.not_mem_nil⟩

theorem push_eq_ok {name : String} {precondition effect : Key} {id : ActionId}
    (h : t.push name precondition effect = .ok (id, t')) :
    t.issued < id.index ∧ t'.issued = id.index ∧
      t'.toList = t.toList ++ [GroundAction.mk id name precondition effect] := by
  unfold push at h
  simp only at h
  split at h
  · cases h
  · rename_i fresh
    cases h
    refine ⟨UInt32.lt_iff_toNat_lt.mpr ?_, rfl, Array.toList_push⟩
    have nonzero : (t.issued + 1).toNat ≠ 0 := fun h => fresh (UInt32.toNat_inj.mp h)
    have bound := t.issued.toNat_lt
    rw [UInt32.toNat_add] at nonzero ⊢
    change (t.issued.toNat + 1) % 2 ^ 32 ≠ 0 at nonzero
    show t.issued.toNat < (t.issued.toNat + 1) % 2 ^ 32
    omega

theorem Ordered.push {name : String} {precondition effect : Key} {id : ActionId} (ht : t.Ordered)
    (h : t.push name precondition effect = .ok (id, t')) : t'.Ordered := by
  obtain ⟨lt, issued, list⟩ := push_eq_ok h
  refine ⟨?_, fun a ha => ?_⟩
  · unfold Rises
    rw [list]
    refine List.pairwise_append.mpr ⟨ht.rises, List.pairwise_singleton _ _, fun a ha b hb => ?_⟩
    obtain rfl := List.mem_singleton.mp hb
    exact UInt32.lt_of_le_of_lt (ht.issued a ha) lt
  · rw [list] at ha
    rw [issued]
    rcases List.mem_append.mp ha with ha | ha
    · exact UInt32.le_of_lt (UInt32.lt_of_le_of_lt (ht.issued a ha) lt)
    · obtain rfl := List.mem_singleton.mp ha
      exact UInt32.le_refl _

/-- No number has been skipped. -/
def Counted (t : ActionTable) : Prop := t.issued.toNat = t.toList.length

theorem Counted.push {name : String} {precondition effect : Key} {id : ActionId} (ht : t.Counted)
    (h : t.push name precondition effect = .ok (id, t')) : t'.Counted := by
  obtain ⟨lt, issued, list⟩ := push_eq_ok h
  have next : id.index = t.issued + 1 := by
    unfold ActionTable.push at h
    simp only at h
    split at h <;> cases h
    rfl
  have lt := UInt32.lt_iff_toNat_lt.mp lt
  rw [Counted, issued, list, List.length_append, ← ht]
  rw [next, UInt32.toNat_add] at lt ⊢
  have bound := t.issued.toNat_lt
  change t.issued.toNat < (t.issued.toNat + 1) % 2 ^ 32 at lt
  show (t.issued.toNat + 1) % 2 ^ 32 = t.issued.toNat + 1
  omega

/-- The only reason to refuse an action is that no number is left. -/
theorem push_eq_error {name : String} {precondition effect : Key} {e : FormulaError}
    (h : t.push name precondition effect = .error e) : e = .outOfNumbers ∧ t.issued + 1 = 0 := by
  unfold ActionTable.push at h
  simp only at h
  split at h <;> cases h
  exact ⟨rfl, ‹_›⟩

theorem Counted.of_full (h : t.Counted) (full : t.issued + 1 = 0) :
    t.toList.length + 1 = UInt32.size := by
  have wraps := congrArg UInt32.toNat full
  have bound := t.issued.toNat_lt
  rw [UInt32.toNat_add] at wraps
  change (t.issued.toNat + 1) % 2 ^ 32 = 0 at wraps
  show t.toList.length + 1 = 2 ^ 32
  rw [← h]
  omega

/-- The keys of which the actions of a table speak. -/
def keys (t : ActionTable) : List Key := t.toList.flatMap fun a => [a.precondition, a.effect]

theorem mem_keys {k : Key} : k ∈ t.keys ↔ ∃ a ∈ t.toList, k = a.precondition ∨ k = a.effect := by
  simp [keys]

theorem keys_subset (h : t.toList ⊆ t'.toList) : t.keys ⊆ t'.keys := by
  intro k hk
  obtain ⟨a, ha, speaks⟩ := mem_keys.mp hk
  exact mem_keys.mpr ⟨a, h ha, speaks⟩

end ActionTable

/-! ### Ground actions are registered -/

namespace Schema

theorem registers_groundParameter {precondition effect : Key} (binding : String × String) :
    Registers [precondition, effect] (groundFormulas.groundParameter (precondition, effect) binding)
      fun both => [both.1, both.2] := by
  refine .seq (Additive.lift (additive_intern binding.1)) fun old =>
    .seq (Additive.lift (additive_intern binding.2)) fun new => ?_
  refine .bind ((registers_substitute old new).weaken (List.subset_append_left [precondition] _))
    fun p => ?_
  refine .bind ((registers_substitute (k := effect) old new).weaken (by simp)) fun e => .pure ?_
  simp

theorem registers_groundFormulas {precondition effect : Key} (binding : Binding) :
    Registers [precondition, effect] (groundFormulas binding precondition effect)
      fun both => [both.1, both.2] :=
  Registers.foldlM (K := []) (b := (precondition, effect)) fun _ pair _ =>
    registers_groundParameter pair

theorem registers_push {precondition effect : Key} (t : ActionTable) (name : String) :
    Registers ([precondition, effect] ++ t.keys)
      (liftM (t.push name precondition effect) : SessionM (ActionId × ActionTable))
      fun result => result.2.keys := by
  refine ⟨.result _, fun {s result s'} _ known h => ?_⟩
  obtain ⟨pushed, rfl⟩ := Prod.mk.inj h
  obtain ⟨-, -, list⟩ := ActionTable.push_eq_ok pushed
  intro k hk
  refine known k ?_
  rw [ActionTable.keys, list, List.flatMap_append] at hk
  rcases List.mem_append.mp hk with hk | hk
  · exact List.mem_append_right _ hk
  · exact List.mem_append_left _ (by simpa using hk)

theorem registers_groundBinding (a : Schema) {precondition effect : Key} (t : ActionTable)
    (binding : Binding) : Registers ([precondition, effect] ++ t.keys)
      (ground.groundBinding a precondition effect t binding) ActionTable.keys := by
  refine .bind ((registers_groundFormulas binding).weaken (List.subset_append_left _ _))
    fun (p, e) => ?_
  refine .bind ((registers_push t (a.groundName binding)).weaken ?_) fun (id, t') => .pure ?_
  · exact List.append_subset.mpr ⟨List.subset_append_right _ _, fun k hk =>
      List.mem_append_left _ (List.mem_append_right _ hk)⟩
  · exact List.subset_append_right _ _

theorem registers_ground (objects : NameSets) (t : ActionTable) (a : Schema) :
    Registers t.keys (ground objects t a) ActionTable.keys := by
  refine .bind (registers_parse a.precondition) fun precondition =>
    .bind (registers_parse a.effect) fun effect => ?_
  refine (Registers.foldlM (K := [precondition, effect]) fun t binding _ =>
    registers_groundBinding a t binding).weaken ?_
  intro k hk
  simp only [List.mem_append, List.mem_cons, List.not_mem_nil, or_false] at hk ⊢
  tauto

end Schema

theorem registers_ground (d : Domain) (p : Problem) : Registers [] (ground d p) ActionTable.keys :=
  Registers.foldlM (K := []) (b := (∅ : ActionTable)) fun _ a _ =>
    Schema.registers_ground p.objects _ a

/-! ### Grounding again -/

namespace Schema

theorem recurs_groundParameter (both : Key × Key) (pair : String × String) :
    Recurs (groundFormulas.groundParameter both pair) :=
  .bind (recurs_intern _) fun _ => .bind (recurs_intern _) fun _ =>
    .bind (repeats_substitute _ _ _).recurs fun _ =>
      .bind (repeats_substitute _ _ _).recurs fun _ => .pure _

theorem recurs_groundBinding (a : Schema) (precondition effect : Key) (t : ActionTable)
    (binding : Binding) : Recurs (ground.groundBinding a precondition effect t binding) :=
  .bind (.foldlM recurs_groundParameter binding _) fun _ => .bind (.result _) fun _ => .pure _

theorem recurs_ground (objects : NameSets) (t : ActionTable) (a : Schema) :
    Recurs (ground objects t a) :=
  .bind (recurs_parse _) fun _ => .bind (recurs_parse _) fun _ =>
    .foldlM (recurs_groundBinding a _ _) _ _

end Schema

/-- **Grounding again** gives the same actions and adds nothing. -/
theorem recurs_ground (d : Domain) (p : Problem) : Recurs (ground d p) :=
  .foldlM (Schema.recurs_ground p.objects) d.actions ∅

/-! ### Names and numbers -/

/-- Actions with these names have been added under the next numbers. -/
structure Adds (names : List String) (t t' : ActionTable) : Prop where
  names : t'.toList.map (·.name) = t.toList.map (·.name) ++ names
  ordered : t.Ordered → t'.Ordered
  counted : t.Counted → t'.Counted

theorem adds_nil (t : ActionTable) : Adds [] t t := ⟨(List.append_nil _).symm, id, id⟩

theorem Adds.trans {names names' : List String} {t₁ : ActionTable} (h : Adds names t t₁)
    (h' : Adds names' t₁ t') : Adds (names ++ names') t t' where
  names := by rw [h'.names, h.names, List.append_assoc]
  ordered ht := h'.ordered (h.ordered ht)
  counted ht := h'.counted (h.counted ht)

theorem adds_foldlM {α : Type} {f : ActionTable → α → SessionM ActionTable} (names : α → List String)
    (hf : ∀ {t a s t' s'}, f t a s = (.ok t', s') → Adds (names a) t t') {l : List α}
    (h : l.foldlM f t s = (.ok t', s')) : Adds (l.flatMap names) t t' := by
  induction l generalizing t s with
  | nil => cases h; exact adds_nil _
  | cons a l ih =>
      obtain ⟨t₁, s₁, h₁, h₂⟩ := run_bind_eq_ok.mp h
      rw [List.flatMap_cons]
      exact (hf h₁).trans (ih h₂)

namespace Schema

/-- The names of the ground actions of a schema. -/
def groundNames (objects : NameSets) (a : Schema) : List String :=
  (bindings objects a.parameters).map a.groundName

theorem adds_groundBinding {a : Schema} {precondition effect : Key} {binding : Binding}
    (h : ground.groundBinding a precondition effect t binding s = (.ok t', s')) :
    Adds [a.groundName binding] t t' := by
  obtain ⟨both, s₁, -, h⟩ := run_bind_eq_ok.mp h
  obtain ⟨⟨id, t₁⟩, s₂, pushed, h⟩ := run_bind_eq_ok.mp h
  cases h
  have pushed := (Prod.mk.inj pushed).1
  refine ⟨?_, fun ht => ht.push pushed, fun ht => ht.push pushed⟩
  rw [(ActionTable.push_eq_ok pushed).2.2, List.map_append]
  rfl

theorem adds_ground {objects : NameSets} {a : Schema}
    (h : ground objects t a s = (.ok t', s')) : Adds (a.groundNames objects) t t' := by
  obtain ⟨precondition, s₁, -, h⟩ := run_bind_eq_ok.mp h
  obtain ⟨effect, s₂, -, h⟩ := run_bind_eq_ok.mp h
  have adds := adds_foldlM (fun binding => [a.groundName binding]) adds_groundBinding h
  rwa [← List.map_eq_flatMap] at adds

end Schema

/-- The names of the ground actions of a domain over the objects of a problem. -/
def groundNames (d : Domain) (p : Problem) : List String :=
  d.actions.flatMap (Schema.groundNames p.objects)

/-- **Ground actions** have the names of their schemata with objects, and rising numbers. -/
theorem ground_eq_ok (h : ground d p s = (.ok t, s')) :
    t.toList.map (·.name) = groundNames d p ∧ t.Ordered := by
  have adds := adds_foldlM (Schema.groundNames p.objects) Schema.adds_ground h
  exact ⟨adds.names, adds.ordered ActionTable.ordered_empty⟩

/-! ### Problems -/

namespace Task

variable {task : Task}

/-- **A grounded problem.**  The initial world shows some trees, the goal and all keys of the
actions are registered, and the actions are named and numbered as said. -/
theorem ofProblem_eq_ok (hs : s.Canonical) (h : ofProblem d p false s = (.ok task, s')) :
    s'.Canonical ∧ (∃ W, s'.Shows task.initial W) ∧ s'.store.contains task.goal ∧
      s'.Knows task.actions.keys ∧ task.actions.toList.map (·.name) = groundNames d p ∧
      task.actions.Ordered ∧ task.grounded = task.actions.size := by
  obtain ⟨initial, s₁, hinitial, h⟩ := run_bind_eq_ok.mp h
  obtain ⟨goal, s₂, hgoal, h⟩ := run_bind_eq_ok.mp h
  obtain ⟨actions, s₃, hactions, h⟩ := run_bind_eq_ok.mp h
  cases h
  obtain ⟨fits₁, W, shows⟩ := makeWorld_eq_ok hs hinitial
  have parses := registers_parse (K := []) p.goal
  have grounds := registers_ground d p
  have none {s : Session} : s.Knows [] := fun k hk => absurd hk List.not_mem_nil
  obtain ⟨grow₂, fits₂⟩ := parses.additive.of_run fits₁ hgoal
  obtain ⟨grow₃, fits₃⟩ := grounds.additive.of_run fits₂ hactions
  obtain ⟨names, ordered⟩ := ground_eq_ok hactions
  exact ⟨fits₃, ⟨W, shows.mono (grow₂.trans grow₃)⟩,
    grow₃.store.contains (parses.knows fits₁ none hgoal goal List.mem_cons_self),
    grounds.knows fits₂ none hactions, names, ordered, rfl⟩

/-- **Grounding with pruning** is grounding without it, and then pruning. -/
theorem ofProblem_pruned (h : ofProblem d p true s = (.ok task, s')) :
    ∃ whole s₁ n, ofProblem d p false s = (.ok whole, s₁) ∧
      whole.actions.prune whole.initial s₁ = ((.ok n, task.actions), s') ∧
      task = { whole with actions := task.actions } := by
  obtain ⟨initial, s₁, hinitial, h⟩ := run_bind_eq_ok.mp h
  obtain ⟨goal, s₂, hgoal, h⟩ := run_bind_eq_ok.mp h
  obtain ⟨actions, s₃, hactions, h⟩ := run_bind_eq_ok.mp h
  obtain ⟨kept, s₄, hkept, h⟩ := run_bind_eq_ok.mp h
  cases h
  refine ⟨{ initial, goal, actions, grounded := actions.size }, s₃, ?_⟩
  change actions.pruned initial s₃ = _ at hkept
  unfold ActionTable.pruned at hkept
  split at hkept
  · rename_i n t s₅ hprune
    cases hkept
    refine ⟨n, ?_, hprune, rfl⟩
    exact run_bind_eq_ok.mpr ⟨initial, s₁, hinitial, run_bind_eq_ok.mpr ⟨goal, s₂, hgoal,
      run_bind_eq_ok.mpr ⟨actions, s₃, hactions, rfl⟩⟩⟩
  · cases hkept

end Task

end ClassicalPlanner
