import ClassicalPlanner.Proofs.Pddl.Failure
import ClassicalPlanner.Proofs.Session.Refusal
import ClassicalPlanner.Proofs.Task.Grounding

/-!
# How grounding fails

A problem is grounded in a session that knows nothing, and then perhaps pruned.  If the parentheses
of its formulas match, each operation on the way finds what it needs (`serves_ofProblem`).  So
grounding fails only because a formula is rejected, or because no list or no action can get a new
number (`ofProblem_eq_error`).
-/

namespace ClassicalPlanner

open Session Text

variable {s s' : Session} {t t' : ActionTable} {d : Domain} {p : Problem} {w upper lower : World}
variable {precondition effect : Key} {l : List GroundAction} {total rest : Nat}

/-! ### Ground actions -/

namespace Schema

theorem serves_groundParameter (hs : s.Sound) {both : Key × Key} (known : s.Knows [both.1, both.2])
    (pair : String × String) : Serves (groundFormulas.groundParameter both pair) s
      (Session.Gives (fun s both => s.Knows [both.1, both.2]) FormulaError.Refusal) := by
  obtain ⟨precondition, effect⟩ := both
  refine .bind (.lift (serves_intern hs pair.1)) fun keeps sound _ _ => ?_
  refine .bind (.lift (serves_intern sound pair.2)) fun keeps' sound' _ named => ?_
  obtain ⟨hp, he⟩ := knows_pair.mp (known.keeps (keeps.trans keeps'))
  refine .bind ((serves_substitute_known sound' hp named.hasWord).imp fun _ result =>
    result.imp_error .inr) fun keeps₁ sound₁ _ hp' => ?_
  refine .bind ((serves_substitute_known sound₁ (keeps₁.store.contains he)
    (named.hasWord.mono keeps₁)).imp fun _ result => result.imp_error .inr)
    fun keeps₂ sound₂ _ he' => ?_
  exact .pure sound₂ (knows_pair.mpr ⟨keeps₂.store.contains hp', he'⟩)

theorem serves_groundFormulas (hs : s.Sound) (known : s.Knows [precondition, effect])
    (binding : Binding) : Serves (groundFormulas binding precondition effect) s
      (Session.Gives (fun s both => s.Knows [both.1, both.2]) FormulaError.Refusal) :=
  .foldlM hs known fun _ _ sound _ known => serves_groundParameter sound known _

theorem serves_push (hs : s.Sound) (known : s.Knows [precondition, effect])
    (keys : s.Knows t.keys) (name : String) :
    Serves (liftM (t.push name precondition effect) : SessionM (ActionId × ActionTable)) s
      (Session.Gives (fun s pushed => s.Knows pushed.2.keys) FormulaError.Refusal) := by
  refine .reading hs (f := fun _ => t.push name precondition effect) ?_
  cases pushed : t.push name precondition effect with
  | error e => exact .inr (ActionTable.push_eq_error pushed).1
  | ok result =>
      obtain ⟨-, -, list⟩ := ActionTable.push_eq_ok pushed
      show s.Knows result.2.keys
      rw [ActionTable.keys, list, List.flatMap_append]
      exact knows_append.mpr ⟨keys, by simpa using known⟩

theorem serves_groundBinding (a : Schema) (hs : s.Sound) (known : s.Knows [precondition, effect])
    (keys : s.Knows t.keys) (binding : Binding) :
    Serves (ground.groundBinding a precondition effect t binding) s
      (Session.Gives (fun s t => s.Knows t.keys) FormulaError.Refusal) :=
  .bind (serves_groundFormulas hs known binding) fun keeps sound _ known' =>
    .bind (serves_push sound known' (keys.keeps keeps) _) fun _ sound' _ keys' =>
      .pure sound' keys'

theorem serves_ground {a : Schema} (readable : a.Readable) (hs : s.Sound) (keys : s.Knows t.keys)
    (objects : NameSets) : Serves (ground objects t a) s
      (Session.Gives (fun s t => s.Knows t.keys) FormulaError.Refusal) := by
  refine .bind (serves_parse_paired hs readable.precondition) fun keeps sound _ hp => ?_
  refine .bind (serves_parse_paired sound readable.effect) fun keeps' sound' _ he => ?_
  have known := knows_pair.mpr ⟨keeps'.store.contains hp.contains, he.contains⟩
  exact .foldlM sound' (keys.keeps (keeps.trans keeps')) fun _ keeps₁ sound₁ _ keys =>
    serves_groundBinding a sound₁ (known.keeps keeps₁) keys _

end Schema

theorem serves_ground (readable : ∀ a ∈ d.actions, a.Readable) (hs : s.Sound) (p : Problem) :
    Serves (ground d p) s (Session.Gives (fun s t => s.Knows t.keys) FormulaError.Refusal) :=
  .foldlM hs (fun _ h => absurd h List.not_mem_nil) fun mem _ sound _ keys =>
    Schema.serves_ground (readable _ mem) sound keys _

/-! ### Numbers of actions -/

/-- No number has been skipped, and with `rest` more actions there will be `total`. -/
structure ActionTable.Tally (total rest : Nat) (t : ActionTable) : Prop where
  counted : t.Counted
  total : t.toList.length + rest = total

theorem Adds.tally {names : List String} (h : Adds names t t')
    (tally : t.Tally total (names.length + rest)) : t'.Tally total rest := by
  refine ⟨h.counted tally.counted, ?_⟩
  have length := congrArg List.length h.names
  rw [List.length_append, List.length_map, List.length_map] at length
  rw [length, Nat.add_assoc]
  exact tally.total

namespace Schema

variable {a : Schema} {objects : NameSets}

theorem groundBinding_spent {binding : Binding} (tally : t.Tally total (rest + 1))
    (run : ground.groundBinding a precondition effect t binding s = (.error .outOfNumbers, s')) :
    s'.store.Full ∨ UInt32.size ≤ total := by
  rcases run_bind_eq_error.mp run with run | ⟨both, s₁, -, run⟩
  · refine Spends.foldlM (fun both pair => ?_) binding _ _ _ run
    exact .bind (.lift _) fun old => .bind (.lift _) fun new =>
      .bind (repeats_substitute _ old new).spends fun _ =>
        .bind (repeats_substitute _ old new).spends fun _ => .pure _
  rcases run_bind_eq_error.mp run with run | ⟨pushed, s₂, -, run⟩
  · obtain ⟨-, full⟩ := ActionTable.push_eq_error (Prod.mk.inj run).1
    have := tally.counted.of_full full
    have := tally.total
    exact .inr (by omega)
  · cases run

theorem ground_spent (tally : t.Tally total ((a.groundNames objects).length + rest))
    (run : ground objects t a s = (.error .outOfNumbers, s')) :
    s'.store.Full ∨ UInt32.size ≤ total := by
  rcases run_bind_eq_error.mp run with run | ⟨_, s₁, -, run⟩
  · exact spends_parse _ _ _ run
  rcases run_bind_eq_error.mp run with run | ⟨_, s₂, -, run⟩
  · exact spends_parse _ _ _ run
  -- one number is needed for each binding that is left
  rw [groundNames, List.length_map] at tally
  obtain ⟨binding, more, t₁, s₃, tally, run⟩ := foldlM_eq_error
    (I := fun bindings t => t.Tally total (bindings.length + rest))
    (fun tally run => (adds_groundBinding run).tally (by
      rwa [List.length_cons, Nat.add_right_comm, Nat.add_comm] at tally)) tally run
  rw [List.length_cons, Nat.add_right_comm] at tally
  exact groundBinding_spent tally run

end Schema

/-- **Grounding runs out of numbers** only if no list can get one, or if there are too many
actions. -/
theorem spends_ground (d : Domain) (p : Problem) :
    Spends (UInt32.size ≤ (groundNames d p).length) (ground d p) := by
  intro s s' run
  have start : (∅ : ActionTable).Tally (groundNames d p).length (groundNames d p).length :=
    ⟨rfl, Nat.zero_add _⟩
  obtain ⟨a, rest, t, s₁, tally, run⟩ := foldlM_eq_error
    (I := fun schemata t => t.Tally (groundNames d p).length
      (schemata.flatMap (Schema.groundNames p.objects)).length)
    (fun tally run => (Schema.adds_ground run).tally (by
      rwa [List.flatMap_cons, List.length_append] at tally)) start run
  rw [List.flatMap_cons, List.length_append] at tally
  exact Schema.ground_spent tally run

/-! ### Pruning -/

namespace ActionTable

/-- Pruning as an operation on the session. -/
theorem pruned_eq (t : ActionTable) (w : World) : t.pruned w =
    (t.reachabilityBounds w >>= fun bounds => retained bounds.1 bounds.2 t.toList >>=
      fun kept => pure { t with actions := kept.toArray } : SessionM ActionTable) := by
  funext s
  rw [run_bind]
  unfold pruned
  rw [prune_eq]
  rcases t.reachabilityBounds w s with ⟨e | ⟨upper, lower⟩, s₁⟩
  · rfl
  · simp only
    rw [run_bind]
    rcases retained upper lower t.toList s₁ with ⟨e | kept, s₂⟩ <;> rfl

theorem repeats_collectEffects (l : List GroundAction) (c : Changes) :
    Repeats (changesFrom c (collectEffects l)) (changesFrom c (collectEffects l)) := by
  rw [changesFrom_collectEffects]
  exact Repeats.foldlM (fun c (a : GroundAction) => repeats_collectAll c a.effect) l c

theorem repeats_retained (upper lower : World) (l : List GroundAction) :
    Repeats (retained upper lower l) (retained upper lower l) := by
  induction l with
  | nil => exact .pure []
  | cons a l ih => exact .bind (repeats_laxEvaluate _ _ _) fun _ => .bind ih fun _ => .pure _

theorem repeats_pruned (t : ActionTable) (w : World) : Repeats (t.pruned w) (t.pruned w) := by
  rw [pruned_eq]
  refine .bind (.bind (repeats_collectEffects t.toList ∅) fun _ => .bind (repeats_atoms w) fun _ =>
    .bind (repeats_addWorld _) fun _ => .bind (repeats_addWorld _) fun _ => .pure _) fun bounds => ?_
  exact .bind (repeats_retained _ _ _) fun _ => .pure _

theorem serves_collectEffects (hs : s.Sound) (hc : s.Closed) {c : Changes}
    (collected : s.Knows c.keys) (known : ∀ a ∈ l, s.store.contains a.effect) :
    Serves (changesFrom c (collectEffects l)) s
      (Session.Gives (fun s c => s.Knows c.keys) FormulaError.Refusal) := by
  rw [changesFrom_collectEffects]
  exact .foldlM hs collected fun mem keeps sound closed collected =>
    serves_collectAll_known sound (closed hc) (keeps.store.contains (known _ mem)) collected

theorem serves_reachabilityBounds (hs : s.Sound) (hc : s.Closed) (hw : s.HasWorld w)
    (known : s.Knows t.keys) : Serves (t.reachabilityBounds w) s
      (Session.Gives (fun s bounds => s.HasWorld bounds.1 ∧ s.HasWorld bounds.2)
        FormulaError.Refusal) := by
  refine .bind (serves_collectEffects hs hc knows_empty fun a ha =>
    known _ (mem_keys.mpr ⟨a, ha, .inr rfl⟩)) fun {c s₁} keeps sound closed collected => ?_
  refine .bind (serves_atoms_known sound (hw.keeps keeps)) fun {a s₂} keeps₂ sound₂ closed₂ found =>
    ?_
  have old {k : Key} (hk : k ∈ a) : s₂.store.contains k :=
    (closed₂ (closed hc)).contains_part found (Std.ExtTreeSet.mem_toList.mpr hk)
  have new {k : Key} (hk : k ∈ c.add) : s₂.store.contains k := keeps₂.store.contains
    (collected k (List.mem_append_left _ (Std.ExtTreeSet.mem_toList.mpr hk)))
  refine .bind (serves_addWorld sound₂ (fun k hk => ?_) (.inr rfl)) fun keeps₃ sound₃ _ upper => ?_
  · exact (Std.ExtTreeSet.mem_union_iff.mp hk).elim old new
  refine .bind (serves_addWorld sound₃ (fun k hk => keeps₃.store.contains ?_) (.inr rfl))
    fun keeps₄ sound₄ _ lower => ?_
  · exact old (Std.ExtTreeSet.mem_diff_iff.mp hk).1
  exact .pure sound₄ ⟨⟨_, keeps₄.store.nodes upper⟩, _, lower⟩

theorem serves_retained (hs : s.Sound) (hc : s.Closed) (hu : s.HasWorld upper)
    (hl : s.HasWorld lower) (known : ∀ a ∈ l, s.store.contains a.precondition) :
    Serves (retained upper lower l) s
      (Session.Gives (fun _ kept => kept ⊆ l) FormulaError.Refusal) := by
  induction l generalizing s with
  | nil => exact .pure hs (List.Subset.refl _)
  | cons a l ih =>
      obtain ⟨here, known⟩ := List.forall_mem_cons.mp known
      refine .bind (serves_laxEvaluate_known hs hc here hu hl)
        fun {keep _} keeps sound closed _ => ?_
      refine .bind (ih sound (closed hc) (hu.keeps keeps) (hl.keeps keeps) fun b hb =>
        keeps.store.contains (known b hb)) fun _ sound' _ subset => .pure sound' ?_
      cases keep with
      | true => exact List.cons_subset_cons a subset
      | false => exact List.subset_cons_of_subset a subset

theorem serves_pruned (hs : s.Sound) (hc : s.Closed) (hw : s.HasWorld w) (known : s.Knows t.keys) :
    Serves (t.pruned w) s
      (Session.Gives (fun _ t' => t'.toList ⊆ t.toList) FormulaError.Refusal) := by
  rw [pruned_eq]
  refine .bind (serves_reachabilityBounds hs hc hw known)
    fun {bounds _} keeps sound closed worlds => ?_
  obtain ⟨hu, hl⟩ := worlds
  refine .bind (serves_retained sound (closed hc) hu hl fun a ha =>
    keeps.store.contains (known _ (mem_keys.mpr ⟨a, ha, .inl rfl⟩)))
    fun _ sound' _ subset => .pure sound' subset

end ActionTable

/-! ### Problems -/

/-- The session knows all that the task speaks of. -/
structure Session.Holds (s : Session) (task : Task) : Prop where
  initial : s.HasWorld task.initial
  goal : s.store.contains task.goal
  keys : s.Knows task.actions.keys

namespace Task

theorem serves_ofProblem (hs : s.Sound) (hc : s.Closed) (readable : ∀ a ∈ d.actions, a.Readable)
    (readable' : p.Readable) (prune : Bool) :
    Serves (ofProblem d p prune) s (Session.Gives Session.Holds FormulaError.Refusal) := by
  have atoms : ∀ atom ∈ p.init.toList, Paired atom.toList := fun atom mem =>
    readable'.init atom (Std.ExtTreeSet.mem_toList.mp mem)
  refine .bind (serves_makeWorld_paired hs atoms _) fun {initial _} keeps sound closed hw => ?_
  refine .bind (serves_parse_paired sound readable'.goal)
    fun {goal _} keeps₁ sound₁ closed₁ hg => ?_
  refine .bind (serves_ground readable sound₁ p) fun {t _} keeps₂ sound₂ closed₂ known => ?_
  have hw := hw.keeps (keeps₁.trans keeps₂)
  have hg := keeps₂.store.contains hg.contains
  have finish {t' : ActionTable} {s' : Session} (keeps : Keeps _ s') (sound : s'.Sound)
      (subset : t'.toList ⊆ t.toList) :
      s'.Holds { initial, goal, actions := t', grounded := t.size } :=
    ⟨hw.keeps keeps, keeps.store.contains hg,
      fun k hk => known.keeps keeps k (ActionTable.keys_subset subset hk)⟩
  cases prune with
  | true =>
      exact .bind (ActionTable.serves_pruned sound₂ (closed₂ (closed₁ (closed hc))) hw known)
        fun keeps₃ sound₃ _ subset => .pure sound₃ (finish keeps₃ sound₃ subset)
  | false => exact .pure sound₂ (finish (.refl _) sound₂ (List.Subset.refl _))

theorem spends_ofProblem (d : Domain) (p : Problem) (prune : Bool) :
    Spends (UInt32.size ≤ (groundNames d p).length) (ofProblem d p prune) := by
  refine .bind (spends_makeWorld _ _) fun w => .bind (spends_parse _) fun _ =>
    .bind (spends_ground d p) fun t => ?_
  cases prune with
  | true => exact .bind (ActionTable.repeats_pruned t w).spends fun _ => .pure _
  | false => exact .pure _

/-- **Grounding fails** only because a formula is rejected, or because no list or no action can get
a number. -/
theorem ofProblem_eq_error {prune : Bool} {e : FormulaError}
    (readable : ∀ a ∈ d.actions, a.Readable) (readable' : p.Readable)
    (h : ofProblem d p prune ∅ = (.error e, s)) :
    s.Refused (UInt32.size ≤ (groundNames d p).length) e := by
  have served := (serves_ofProblem sound_empty closed_empty readable readable' prune).result
  rw [h] at served
  exact (spends_ofProblem d p prune).refused h served

end Task

end ClassicalPlanner
