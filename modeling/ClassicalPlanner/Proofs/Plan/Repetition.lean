import ClassicalPlanner.Proofs.Plan.WorldSpace
import ClassicalPlanner.Proofs.Session.Reachable
import ClassicalPlanner.Proofs.Task.Grounding

/-!
# Questions about worlds, asked again

A search asks three questions of a world: whether it is a goal, how far a goal may be, and which
edges lead out of it.  To answer one registers instances of quantifiers and further worlds, so no
question finds the session as an earlier one did.

Yet a question that is asked again has the answer that it had (`asking_again`), an error included,
and this time registers nothing.  Two things make it so.  Each question repeats (`repeats_answer`),
and while what the goal and the actions speak of is registered no answer is that something is
missing (`answer_not_missing`), which alone could become different later.
-/

namespace ClassicalPlanner

/-- The world that a question is about. -/
def Call.world : Call World → World
  | .goal w | .estimate w | .successors w => w

/-- The answer to a question about a world. -/
inductive Reply where
  | verdict (goal : Bool)
  | estimate (cost : UInt32)
  | edges (edges : List (Edge World))
deriving DecidableEq

namespace WorldSpace

open Session

/-- Puts a question to the worlds of a session. -/
def ask (actions : ActionTable) (goal : Key) (estimate : Estimate) : Call World → PlanM Reply
  | .goal w => Reply.verdict <$> (space actions goal estimate).isGoal w
  | .estimate w => Reply.estimate <$> (space actions goal estimate).estimate w
  | .successors w => Reply.edges <$> (space actions goal estimate).successors w

/-- The session that is left by questions asked one after the other. -/
def afterCalls (actions : ActionTable) (goal : Key) (estimate : Estimate) (calls : List (Call World))
    (s : Session) : Session :=
  calls.foldl (fun s call => (ask actions goal estimate call s).2) s

/-- What a question comes to as an operation on formulas. -/
def answer (actions : ActionTable) (goal : Key) (estimate : Estimate) : Call World → SessionM Reply
  | .goal w => Reply.verdict <$> evaluate goal w
  | .estimate w => Reply.estimate <$> estimate.value w
  | .successors w => Reply.edges <$> edges w actions.toList

variable {actions : ActionTable} {goal : Key} {estimate : Estimate} {call : Call World}
variable {s s' s₀ F : Session} {w : World} {l : List GroundAction} {α β : Type}

theorem map_ofFormulas (f : α → β) (x : SessionM α) : f <$> ofFormulas x = ofFormulas (f <$> x) := by
  funext s
  rw [run_ofFormulas, map_eq_pure_bind, map_eq_pure_bind, run_bind, run_bind, run_ofFormulas]
  rcases x s with ⟨e | a, s₁⟩ <;> rfl

theorem ask_eq (call : Call World) :
    ask actions goal estimate call = ofFormulas (answer actions goal estimate call) := by
  cases call <;> exact map_ofFormulas _ _

/-! ### Questions repeat -/

section Repeating

variable (actions : ActionTable) (goal : Key) (estimate : Estimate)

theorem repeats_answer (call : Call World) :
    Repeats (answer actions goal estimate call) (answer actions goal estimate call) := by
  cases call with
  | goal w => exact .bind (repeats_evaluate goal w) fun _ => .pure _
  | estimate w => exact .bind (repeats_value estimate w) fun _ => .pure _
  | successors w => exact .bind (repeats_edges w actions.toList) fun _ => .pure _

theorem ask_later (hs : s.Canonical) (call : Call World) :
    Later s (ask actions goal estimate call s).2 ∧
      (ask actions goal estimate call s).2.Canonical := by
  have repeats := repeats_answer actions goal estimate call
  rw [ask_eq, run_ofFormulas]
  exact ⟨repeats.later hs, (repeats.additive s hs).2⟩

theorem afterCalls_later (hs : s.Canonical) (calls : List (Call World)) :
    Later s (afterCalls actions goal estimate calls s) ∧
      (afterCalls actions goal estimate calls s).Canonical := by
  induction calls generalizing s with
  | nil => exact ⟨.refl s, hs⟩
  | cons call calls ih =>
      obtain ⟨later, fits⟩ := ask_later actions goal estimate hs call
      obtain ⟨later', fits'⟩ := ih fits
      exact ⟨later.trans later', fits'⟩

end Repeating

/-! ### Nothing is missing -/

theorem value_not_missing {e : FormulaError} (hw : s.HasWorld w)
    (h : estimate.value w s = (.error e, s')) : ¬e.Missing := by
  cases estimate with
  | blind => cases h
  | goalCount atoms =>
      obtain ⟨a, found⟩ := hw
      rcases run_bind_eq_error.mp h with h | ⟨b, s₁, -, h⟩
      · rw [atoms_eq_ok_iff.mpr ⟨found, rfl⟩] at h
        cases h
      · cases h

theorem edges_not_missing {e : FormulaError} (hs : s.Canonical) (hw : s.HasWorld w)
    (known : ∀ a ∈ l, s.Knows [a.precondition, a.effect])
    (h : edges w l s = (.error e, s')) : ¬e.Missing := by
  induction l generalizing s with
  | nil => cases h
  | cons a l ih =>
      have here := known a List.mem_cons_self
      have rest {s₁ : Session} (grow : s ≤ s₁) : ∀ a ∈ l, s₁.Knows [a.precondition, a.effect] :=
        fun a ha => (known a (List.mem_cons_of_mem _ ha)).mono grow
      rcases run_bind_eq_error.mp h with h₁ | ⟨holds, s₁, h₁, h⟩
      · exact (evaluate_refuses hs (here _ List.mem_cons_self) hw h₁).there
      obtain ⟨grow₁, fits₁⟩ := (settles_evaluate a.precondition w).additive.of_run hs h₁
      cases holds with
      | false => exact ih fits₁ (hw.mono grow₁) (rest grow₁) h
      | true =>
          rcases run_bind_eq_error.mp h with h₂ | ⟨w', s₂, h₂, h⟩
          · exact (apply_refuses fits₁ ((here.mono grow₁) _ (by simp)) (hw.mono grow₁) h₂).there
          obtain ⟨grow₂, fits₂⟩ := (settles_apply w a.effect).additive.of_run fits₁ h₂
          have grow := grow₁.trans grow₂
          rcases run_bind_eq_error.mp h with h₃ | ⟨es, s₃, -, h⟩
          · exact ih fits₂ (hw.mono grow) (rest grow) h₃
          · cases h

/-- While all that the goal and the actions speak of is registered, nothing is missing. -/
theorem answer_not_missing {e : FormulaError} (hs : s.Canonical)
    (known : s.Knows (goal :: actions.keys)) (hw : s.HasWorld call.world)
    (h : answer actions goal estimate call s = (.error e, s')) : ¬e.Missing := by
  obtain ⟨knownGoal, knownActions⟩ := List.forall_mem_cons.mp known
  cases call with
  | goal w =>
      rcases run_bind_eq_error.mp h with h | ⟨_, _, -, h⟩
      · exact (evaluate_refuses hs knownGoal hw h).there
      · cases h
  | estimate w =>
      rcases run_bind_eq_error.mp h with h | ⟨_, _, -, h⟩
      · exact value_not_missing hw h
      · cases h
  | successors w =>
      rcases run_bind_eq_error.mp h with h | ⟨_, _, -, h⟩
      · refine edges_not_missing hs hw (fun a ha k hk => knownActions k ?_) h
        exact List.mem_flatMap.mpr ⟨a, ha, hk⟩
      · cases h

/-! ### Asking again -/

/-- What is answered once is answered in every later session, which stays as it is. -/
theorem answer_again (hs : s.Canonical) (known : s.Knows (goal :: actions.keys))
    (hw : s.HasWorld call.world) (hF : F.Canonical)
    (later : Later (answer actions goal estimate call s).2 F) :
    answer actions goal estimate call F = ((answer actions goal estimate call s).1, F) := by
  have repeats := repeats_answer actions goal estimate call
  rcases h : answer actions goal estimate call s with ⟨e | reply, s'⟩ <;> rw [h] at later
  · exact repeats.refuses hs h (answer_not_missing hs known hw h) hF later
  · exact repeats.again hs h hF later.grow

/-- **A question that is asked again has the answer it had**, be it a verdict, an estimate, a list of
edges or an error, whatever has been asked before it and since; asking it again registers nothing.
The world may be one that was registered on the way, and the other questions may be about any
world. -/
theorem asking_again (reached : s₀.Reachable) (known : s₀.Knows (goal :: actions.keys))
    (call : Call World) (before between : List (Call World)) {r : Except PlanningError Reply}
    (there : (afterCalls actions goal estimate before s₀).HasWorld call.world)
    (asked : ask actions goal estimate call (afterCalls actions goal estimate before s₀) = (r, s)) :
    ask actions goal estimate call (afterCalls actions goal estimate between s) =
      (r, afterCalls actions goal estimate between s) := by
  obtain ⟨later, fits⟩ := afterCalls_later actions goal estimate reached.canonical before
  have fits' := (ask_later actions goal estimate fits call).2
  rw [asked] at fits'
  obtain ⟨later', fits''⟩ := afterCalls_later actions goal estimate fits' between
  rw [ask_eq, run_ofFormulas] at asked
  obtain ⟨rfl, rfl⟩ := Prod.mk.inj asked
  have again := answer_again fits (known.mono later.grow) there fits'' later'
  rw [ask_eq, run_ofFormulas, again]

end WorldSpace

namespace River

open Session

/-- A world, a goal and the two formulas of an action are read, in this order. -/
def session : Session := runAll
  [.makeWorld ["(at left)"] [("bank", ["left", "right"])],
    .parse "(exists (?b - bank) (and (at ?b) (not (= ?b left))))",
    .parse "(at left)",
    .parse "(forall (?b - bank) (when (not (= ?b left)) (and (at ?b) (not (at left)))))"] ∅

def start : World := ⟨.ofKind .world 2⟩

def goal : Key := .ofKind .existential 8

def actions : ActionTable where
  actions := #[{ id := ⟨1⟩, name := "swim", precondition := .ofKind .atom 1,
                 effect := .ofKind .universal 11 }]
  issued := 1

/-- The world across, which is registered when the edge to it is asked for. -/
def across : World := ⟨.ofKind .world 23⟩

/-- The session after questions about the two worlds. -/
abbrev after (calls : List (Call World)) (s : Session) : Session :=
  WorldSpace.afterCalls actions goal .blind calls s

/-- The edges out of the start. -/
abbrev askEdges (s : Session) : Except PlanningError Reply × Session :=
  WorldSpace.ask actions goal .blind (.successors start) s

end River

open River in
/-- What lies beyond the start is asked for between the two times, and the goal before. -/
theorem WorldSpace.asking_again_river :
    session.Reachable ∧ session.Knows (goal :: actions.keys) ∧
      (after [.goal start] session).HasWorld start ∧
      (after [.goal start] session).store.find? across.key = none ∧
      (askEdges (after [.goal start] session)).1 =
        .ok (.edges [{ state := across, cost := 1, action := ⟨1⟩ }]) ∧
      (askEdges (after [.goal across, .successors across]
        (askEdges (after [.goal start] session)).2)).1 =
        .ok (.edges [{ state := across, cost := 1, action := ⟨1⟩ }]) := by
  have reached : session.Reachable := Session.Reachable.empty.runAll _
  -- together, so that the session is computed once
  obtain ⟨known, found, asked, absent⟩ : (∀ k ∈ goal :: actions.keys, session.store.contains k) ∧
      (after [.goal start] session).store.find? start.key =
        some (.world (.ofList [Key.ofKind .atom 1])) ∧
      (askEdges (after [.goal start] session)).1 =
        .ok (.edges [{ state := across, cost := 1, action := ⟨1⟩ }]) ∧
      (after [.goal start] session).store.find? across.key = none := by decide +kernel
  have there : (after [.goal start] session).HasWorld start := ⟨_, found⟩
  have again := asking_again reached known (.successors start) [.goal start]
    [.goal across, .successors across] there (Session.run_eq_of_result asked)
  exact ⟨reached, known, there, absent, asked, congrArg Prod.fst again⟩

end ClassicalPlanner
