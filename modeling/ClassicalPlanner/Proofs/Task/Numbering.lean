import ClassicalPlanner.Proofs.Task.Grounding

/-!
# Numbers of actions

Numbers are given once, and pruning leaves gaps in them.  In a table the numbers still rise, so an
action is found by halving the table (`Rises.bisect_eq`).

`ActionTable.prune` puts actions and verdicts together by position (`prune_eq_verdicts`).  After any
calls that add actions and prune them, a table has the actions that were added and never dropped
(`mem_after`), and each is found by its number (`numbers_of_calls`).
-/

namespace ClassicalPlanner

open Session

namespace ActionTable

variable {t t' : ActionTable} {a : GroundAction} {id : ActionId} {w : World} {s s' : Session}

/-! ### Search by halves -/

/-- The action with a number, if it is among the `size` actions from `base` on.  Of two halves the
upper one is kept unless it begins above the number. -/
def bisectFrom (t : ActionTable) (id : ActionId) (base size : Nat) : Option GroundAction :=
  if size ≤ 1 then t.toList[base]?.filter (·.id == id)
  else
    match t.toList[base + size / 2]? with
    | some a =>
      if id.index < a.id.index then bisectFrom t id base (size - size / 2)
      else bisectFrom t id (base + size / 2) (size - size / 2)
    | none => none
termination_by size

/-- The action with a number, looked for by halves. -/
def bisect (t : ActionTable) (id : ActionId) : Option GroundAction := t.bisectFrom id 0 t.size

theorem mem_of_bisectFrom {base size : Nat} (h : t.bisectFrom id base size = some a) :
    a ∈ t.toList ∧ a.id = id := by
  fun_induction bisectFrom t id base size with
  | case1 base size small =>
      obtain ⟨found, same⟩ := Option.filter_eq_some_iff.mp h
      exact ⟨List.mem_of_getElem? found, beq_iff_eq.mp same⟩
  | case2 base size large b middle above ih => exact ih h
  | case3 base size large b middle above ih => exact ih h
  | case4 => cases h

/-- The order of the numbers is the order of the places. -/
theorem Rises.index_lt_iff (h : t.Rises) {i j : Nat} {b : GroundAction}
    (ha : t.toList[i]? = some a) (hb : t.toList[j]? = some b) :
    a.id.index < b.id.index ↔ i < j := by
  obtain ⟨hi, rfl⟩ := List.getElem?_eq_some_iff.mp ha
  obtain ⟨hj, rfl⟩ := List.getElem?_eq_some_iff.mp hb
  have h := List.pairwise_iff_getElem.mp h
  refine ⟨fun lt => ?_, h i j hi hj⟩
  rcases Nat.lt_trichotomy i j with before | rfl | after
  · exact before
  · exact absurd lt (UInt32.lt_irrefl _)
  · exact absurd lt (UInt32.lt_asymm (h j i hj hi after))

/-- An action is found in a range that holds it. -/
theorem Rises.bisectFrom_eq_some (h : t.Rises) {base size k : Nat} (low : base ≤ k)
    (high : k < base + size) (whole : base + size ≤ t.toList.length)
    (found : t.toList[k]? = some a) : t.bisectFrom a.id base size = some a := by
  fun_induction bisectFrom t a.id base size with
  | case1 base size small =>
      obtain rfl : k = base := by omega
      exact Option.filter_eq_some_iff.mpr ⟨found, beq_self_eq_true a.id⟩
  | case2 base size large b middle above ih =>
      have before := (h.index_lt_iff found middle).mp above
      exact ih low (by omega) (by omega)
  | case3 base size large b middle above ih =>
      have after := mt (h.index_lt_iff found middle).mpr above
      exact ih (by omega) (by omega) (by omega)
  | case4 base size large none =>
      have outside := List.getElem?_eq_none_iff.mp none
      omega

/-- **Search by halves** finds what a search from the front finds. -/
theorem Rises.bisect_eq (h : t.Rises) (id : ActionId) : t.bisect id = t.get? id := by
  cases found : t.get? id with
  | some a =>
      obtain ⟨mem, rfl⟩ := mem_of_get? found
      obtain ⟨k, hk, rfl⟩ := List.mem_iff_getElem.mp mem
      refine h.bisectFrom_eq_some (Nat.zero_le k) ?_ ?_ (List.getElem?_eq_getElem hk)
      all_goals rw [Nat.zero_add]; first | exact hk | exact Nat.le_refl _
  | none =>
      cases other : t.bisect id with
      | none => rfl
      | some a =>
          obtain ⟨mem, rfl⟩ := mem_of_bisectFrom other
          rw [h.get? mem] at found
          cases found

/-! ### Verdicts -/

/-- Whether the precondition of each action may hold between two bounds. -/
def judge (upper lower : World) (l : List GroundAction) : SessionM (List Bool) :=
  l.mapM fun a => laxEvaluate a.precondition upper lower

/-- Whether the precondition of each action of the table may hold between its bounds. -/
def verdicts (w : World) (t : ActionTable) : SessionM (List Bool) := do
  let (upper, lower) ← t.reachabilityBounds w
  judge upper lower t.toList

/-- The actions that have the verdict `true`. -/
def kept (l : List GroundAction) (flags : List Bool) : List GroundAction :=
  ((l.zip flags).filter Prod.snd).map Prod.fst

theorem mem_kept {l : List GroundAction} {flags : List Bool} :
    a ∈ kept l flags ↔ (a, true) ∈ l.zip flags := by
  simp [kept]

theorem retained_eq (upper lower : World) (l : List GroundAction) :
    retained upper lower l = kept l <$> judge upper lower l := by
  induction l with
  | nil => rfl
  | cons a l ih =>
      rw [retained, ih]
      simp only [judge, List.mapM_cons, map_eq_pure_bind, bind_assoc, pure_bind]
      refine bind_congr fun keep => bind_congr fun flags => ?_
      cases keep <;> rfl

/-- **Pruning by verdicts.**  The actions with the verdict `true` are kept, the others are counted,
and nothing else about the table changes. -/
theorem prune_eq_verdicts (w : World) (t : ActionTable) (s : Session) : prune w t s =
    match verdicts w t s with
    | (.error e, s') => ((.error e, t), s')
    | (.ok flags, s') =>
      ((.ok (t.size - (kept t.toList flags).length),
        { t with actions := (kept t.toList flags).toArray }), s') := by
  rw [prune_eq, verdicts, run_bind]
  rcases t.reachabilityBounds w s with ⟨e | ⟨upper, lower⟩, s₁⟩
  · rfl
  · simp only [retained_eq, map_eq_pure_bind, run_bind]
    rcases judge upper lower t.toList s₁ with ⟨e | flags, s₂⟩ <;> rfl

theorem length_mapM {α β ε σ : Type} {f : α → ExceptT ε (StateM σ) β} {l : List α} {bs : List β}
    {c c' : σ} (h : l.mapM f c = (.ok bs, c')) : bs.length = l.length := by
  induction l generalizing bs c with
  | nil => cases h; rfl
  | cons a l ih =>
      rw [List.mapM_cons] at h
      obtain ⟨b, c₁, -, h⟩ := run_bind_eq_ok.mp h
      obtain ⟨bs, c₂, hbs, h⟩ := run_bind_eq_ok.mp h
      cases h
      rw [List.length_cons, ih hbs, List.length_cons]

theorem length_verdicts {flags : List Bool} (h : verdicts w t s = (.ok flags, s')) :
    flags.length = t.size := by
  obtain ⟨bounds, s₁, -, h⟩ := run_bind_eq_ok.mp h
  exact length_mapM h

theorem map_fst_verdicts {flags : List Bool} (h : verdicts w t s = (.ok flags, s')) :
    (t.toList.zip flags).map Prod.fst = t.toList :=
  List.map_fst_zip (length_verdicts h).ge

theorem kept_sublist {flags : List Bool} (h : verdicts w t s = (.ok flags, s')) :
    (kept t.toList flags).Sublist t.toList := by
  have sublist := (List.filter_sublist (p := Prod.snd) (l := t.toList.zip flags)).map Prod.fst
  rwa [map_fst_verdicts h] at sublist

/-- An action has only one verdict. -/
theorem Rises.mem_kept_iff (ht : t.Rises) {flags : List Bool}
    (h : verdicts w t s = (.ok flags, s')) :
    a ∈ kept t.toList flags ↔ a ∈ t.toList ∧ (a, false) ∉ t.toList.zip flags := by
  have whole := map_fst_verdicts h
  have nodup : ((t.toList.zip flags).map Prod.fst).Nodup := whole.symm ▸ ht.nodup
  rw [mem_kept]
  refine ⟨fun true => ⟨(List.of_mem_zip true).1, fun false => ?_⟩, fun ⟨mem, not_false⟩ => ?_⟩
  · cases List.inj_on_of_nodup_map nodup true false rfl
  · rw [← whole] at mem
    obtain ⟨⟨_, flag⟩, given, rfl⟩ := List.mem_map.mp mem
    cases flag with
    | true => exact given
    | false => exact absurd given not_false

/-- What pruning leaves and returns. -/
theorem prune_cases (w : World) (t : ActionTable) (s : Session) :
    match prune w t s with
    | ((.ok n, t'), s') => ∃ flags, verdicts w t s = (.ok flags, s') ∧ flags.length = t.size ∧
      t'.toList = kept t.toList flags ∧ t'.size + n = t.size ∧ t'.issued = t.issued
    | ((.error e, t'), s') => verdicts w t s = (.error e, s') ∧ t' = t := by
  rw [prune_eq_verdicts]
  rcases judged : verdicts w t s with ⟨e | flags, s'⟩
  · exact ⟨rfl, rfl⟩
  · exact ⟨flags, rfl, length_verdicts judged, rfl,
      Nat.add_sub_of_le (kept_sublist judged).length_le, rfl⟩

/-! ### Calls -/

/-- A call that adds an action, or prunes in some session from some world. -/
inductive Change where
  | push (name : String) (precondition effect : Key)
  | prune (w : World) (s : Session)

/-- The table that a call leaves, whether or not it succeeds. -/
def Change.run (t : ActionTable) : Change → ActionTable
  | .push name precondition effect =>
    match t.push name precondition effect with
    | .ok (_, t') => t'
    | .error _ => t
  | .prune w s => (ActionTable.prune w t s).1.2

/-- The table after some calls, empty at first. -/
def after (changes : List Change) : ActionTable := changes.foldl Change.run ∅

/-- How many of the calls add an action. -/
def pushes (changes : List Change) : Nat :=
  changes.countP fun
    | .push .. => true
    | .prune .. => false

/-- A call drops an action when it succeeds with the verdict `false` on it. -/
def Change.Drops (t : ActionTable) (a : GroundAction) : Change → Prop
  | .push .. => False
  | .prune w s =>
    ∃ flags s', verdicts w t s = (.ok flags, s') ∧ (a, false) ∈ t.toList.zip flags

theorem Change.drops_prune_iff {flags : List Bool} (h : verdicts w t s = (.ok flags, s')) :
    (Change.prune w s).Drops t a ↔ (a, false) ∈ t.toList.zip flags := by
  refine ⟨fun ⟨_, _, h', dropped⟩ => ?_, fun dropped => ⟨flags, s', h, dropped⟩⟩
  cases h.symm.trans h'
  exact dropped

theorem Change.not_drops_prune {e : FormulaError} (h : verdicts w t s = (.error e, s')) :
    ¬(Change.prune w s).Drops t a :=
  fun ⟨_, _, h', _⟩ => by cases h.symm.trans h'

/-- An action stands when a call has added it, under the number of that call, and no later call
has dropped it. -/
inductive Stands : List Change → GroundAction → Prop where
  | push {changes : List Change} {a : GroundAction}
      (number : a.id.index.toNat = pushes changes + 1) :
      Stands (changes ++ [.push a.name a.precondition a.effect]) a
  | later {changes : List Change} {a : GroundAction} {c : Change} (h : Stands changes a)
      (stays : ¬c.Drops (after changes) a) : Stands (changes ++ [c]) a

variable {changes : List Change} {c : Change}

theorem after_append_singleton (changes : List Change) (c : Change) :
    after (changes ++ [c]) = c.run (after changes) := by
  simp [after]

theorem pushes_push (changes : List Change) (name : String) (precondition effect : Key) :
    pushes (changes ++ [.push name precondition effect]) = pushes changes + 1 := by
  simp [pushes]

theorem pushes_prune (changes : List Change) (w : World) (s : Session) :
    pushes (changes ++ [.prune w s]) = pushes changes := by
  simp [pushes]

theorem stands_append_iff : Stands (changes ++ [c]) a ↔
    (c = .push a.name a.precondition a.effect ∧ a.id.index.toNat = pushes changes + 1) ∨
      (Stands changes a ∧ ¬c.Drops (after changes) a) := by
  constructor
  · intro h
    generalize whole : changes ++ [c] = l at h
    cases h with
    | push number =>
        obtain ⟨rfl, last⟩ := List.append_inj' whole rfl
        exact .inl ⟨List.head_eq_of_cons_eq last, number⟩
    | later h stays =>
        obtain ⟨rfl, last⟩ := List.append_inj' whole rfl
        obtain rfl := List.head_eq_of_cons_eq last
        exact .inr ⟨h, stays⟩
  · rintro (⟨rfl, number⟩ | ⟨h, stays⟩)
    · exact .push number
    · exact .later h stays

/-- While numbers are left an action is added under the next one. -/
theorem push_of_lt (name : String) (precondition effect : Key)
    (h : t.issued.toNat + 1 < UInt32.size) : ∃ id t',
      t.push name precondition effect = .ok (id, t') ∧ id.index.toNat = t.issued.toNat + 1 := by
  have next : (t.issued + 1).toNat = t.issued.toNat + 1 := by
    rw [UInt32.toNat_add]
    exact Nat.mod_eq_of_lt h
  have fresh : t.issued + 1 ≠ 0 := fun h => by
    rw [h] at next
    cases next
  unfold ActionTable.push
  simp only
  rw [if_neg fresh]
  exact ⟨_, _, rfl, next⟩

/-- The table is what the calls have made: its numbers rise, the last one given is the number of
actions added, and it has the actions that stand. -/
structure Records (changes : List Change) (t : ActionTable) : Prop where
  ordered : t.Ordered
  issued : t.issued.toNat = pushes changes
  mem : ∀ a, a ∈ t.toList ↔ Stands changes a

theorem records_nil : Records [] ∅ where
  ordered := ordered_empty
  issued := rfl
  mem a := by
    refine iff_of_false List.not_mem_nil fun h => ?_
    generalize whole : ([] : List Change) = l at h
    cases h <;> exact absurd whole.symm (List.concat_ne_nil _ _)

theorem Records.push (h : Records changes (after changes)) {name : String}
    {precondition effect : Key} {id : ActionId}
    (pushed : (after changes).push name precondition effect = .ok (id, t'))
    (next : id.index.toNat = pushes changes + 1) :
    Records (changes ++ [.push name precondition effect]) t' := by
  obtain ⟨-, issued, list⟩ := push_eq_ok pushed
  refine ⟨h.ordered.push pushed, ?_, fun a => ?_⟩
  · rw [issued, next, pushes_push]
  · rw [list, List.mem_append, h.mem, List.mem_singleton, stands_append_iff, or_comm]
    refine or_congr ⟨?_, ?_⟩ (and_iff_left not_false).symm
    · rintro rfl
      exact ⟨rfl, next⟩
    · obtain ⟨⟨index⟩, _, _, _⟩ := a
      rintro ⟨same, number⟩
      obtain ⟨rfl, rfl, rfl⟩ := Change.push.inj same
      obtain rfl : index = id.index := UInt32.toNat_inj.mp (number.trans next.symm)
      rfl

theorem Records.prune (h : Records changes (after changes)) (w : World) (s : Session) :
    Records (changes ++ [.prune w s]) (ActionTable.prune w (after changes) s).1.2 := by
  rw [prune_eq_verdicts]
  rcases judged : verdicts w (after changes) s with ⟨e | flags, s'⟩
  · -- a call that fails leaves the table and drops nothing
    refine ⟨h.ordered, h.issued.trans (pushes_prune changes w s).symm, fun a => ?_⟩
    rw [stands_append_iff, h.mem, and_iff_left (Change.not_drops_prune judged)]
    exact (or_iff_right fun ⟨pushed, _⟩ => Change.noConfusion pushed).symm
  · have sublist := kept_sublist judged
    refine ⟨⟨h.ordered.rises.sublist sublist, fun a ha => h.ordered.issued a (sublist.subset ha)⟩,
      h.issued.trans (pushes_prune changes w s).symm, fun a => ?_⟩
    rw [stands_append_iff, ← h.mem, Change.drops_prune_iff judged]
    rw [or_iff_right fun ⟨pushed, _⟩ => Change.noConfusion pushed]
    exact h.ordered.rises.mem_kept_iff judged

/-- **What calls leave** is a table of the actions that stand. -/
theorem records_after (changes : List Change) (few : pushes changes < UInt32.size) :
    Records changes (after changes) := by
  induction changes using List.reverseRecOn with
  | nil => exact records_nil
  | append_singleton changes c ih =>
      rw [after_append_singleton]
      cases c with
      | push name precondition effect =>
          rw [pushes_push] at few
          have h := ih (Nat.lt_of_succ_lt few)
          obtain ⟨id, t', pushed, next⟩ := push_of_lt name precondition effect (h.issued.symm ▸ few)
          rw [Change.run, pushed]
          exact h.push pushed (next.trans (congrArg Nat.succ h.issued))
      | prune w s =>
          rw [pushes_prune] at few
          exact (ih few).prune w s

/-- **Numbers are never given twice, and always lead to their actions.**  Take any calls on an empty
table that add actions and prune them, in any sessions and from any worlds, whether they succeed or
not, and let fewer than 2³² of them add an action.

The numbers of the table rise.  By a number, both from the front and by halves, exactly the action
is found that was added under it and has not been dropped since.  The `n`-th call that adds an
action returns `n`.  A call that prunes keeps exactly the actions with the verdict that their
precondition may hold between the bounds, and returns by how many the table has shrunk; if it fails,
which it does with the verdicts, it leaves the table as it was. -/
theorem numbers_resolve (changes : List Change) (few : pushes changes < UInt32.size) :
    (after changes).toList.Pairwise (fun a b => a.id.index < b.id.index) ∧
    (∀ id a, (after changes).get? id = some a ↔ a.id = id ∧ Stands changes a) ∧
    (∀ id, (after changes).bisect id = (after changes).get? id) ∧
    (∀ earlier name precondition effect,
      earlier ++ [.push name precondition effect] <+: changes →
        ∃ id, id.index.toNat = pushes earlier + 1 ∧
          (after earlier).push name precondition effect =
            .ok (id, after (earlier ++ [.push name precondition effect]))) ∧
    ∀ earlier w s, earlier ++ [.prune w s] <+: changes →
      match prune w (after earlier) s with
      | ((.ok n, t), s') => ∃ flags, verdicts w (after earlier) s = (.ok flags, s') ∧
        flags.length = (after earlier).size ∧ t.toList = kept (after earlier).toList flags ∧
        t.size + n = (after earlier).size ∧ t.issued = (after earlier).issued
      | ((.error e, t), s') =>
        verdicts w (after earlier) s = (.error e, s') ∧ t = after earlier := by
  have records := records_after changes few
  have rises := records.ordered.rises
  refine ⟨rises, fun id a => ⟨fun found => ?_, ?_⟩, rises.bisect_eq, ?_, fun earlier w s _ =>
    prune_cases w (after earlier) s⟩
  · obtain ⟨mem, same⟩ := mem_of_get? found
    exact ⟨same, (records.mem a).mp mem⟩
  · rintro ⟨rfl, stands⟩
    exact rises.get? ((records.mem a).mpr stands)
  · intro earlier name precondition effect before
    have few : pushes earlier + 1 < UInt32.size := by
      rw [← pushes_push earlier name precondition effect]
      exact Nat.lt_of_le_of_lt before.sublist.countP_le few
    have issued := (records_after earlier (Nat.lt_of_succ_lt few)).issued
    obtain ⟨id, t', pushed, next⟩ := push_of_lt name precondition effect (issued.symm ▸ few)
    refine ⟨id, next.trans (congrArg Nat.succ issued), ?_⟩
    rw [after_append_singleton, Change.run, pushed]

namespace OneOfTwo

/-- Two actions are added, one of them is dropped, and a third one is added. -/
def calls : List Change :=
  [.push "a" (.ofKind .atom 1) (.ofKind .atom 2), .push "b" (.ofKind .atom 3) (.ofKind .atom 2),
    .prune world session, .push "c" (.ofKind .atom 1) (.ofKind .atom 2)]

end OneOfTwo

open OneOfTwo in
/-- The third action has the number 3, and under the number 2 there is none. -/
theorem numbers_resolve_one_of_two : pushes calls < UInt32.size ∧
    (after calls).bisect ⟨1⟩ = some runs ∧ (after calls).bisect ⟨2⟩ = none ∧
    ((after calls).bisect ⟨3⟩).map (·.name) = some "c" ∧ ¬Stands calls waits := by
  have few : pushes calls < UInt32.size := by decide
  obtain ⟨-, finds, halves, -, -⟩ := numbers_resolve calls few
  have first : (after calls).get? ⟨1⟩ = some runs := by decide
  have second : (after calls).get? ⟨2⟩ = none := by decide
  have third : ((after calls).get? ⟨3⟩).map (·.name) = some "c" := by decide
  refine ⟨few, (halves _).trans first, (halves _).trans second, ?_, fun stands => ?_⟩
  · rw [halves]
    exact third
  · have found := (finds ⟨2⟩ waits).mpr ⟨rfl, stands⟩
    cases second.symm.trans found

end ActionTable

end ClassicalPlanner
