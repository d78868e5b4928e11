import ClassicalPlanner.Proofs.Session.Closure
import ClassicalPlanner.Proofs.Session.Reading

/-!
# How operations fail

An operation on what is registered fails for one of two reasons: a formula is rejected, since some
part of it has the wrong number of arguments or cannot be used as it is, or the numbers have run
out.  That something is missing is no reason (`serves_laxEvaluate_known`, `serves_apply_known`,
`serves_substitute_known`), and for a text whose parentheses match the same is true of reading it
(`serves_parse_paired`).

The second reason is never given in vain.  An operation `Spends` numbers if it says that they have
run out only where no list can get a new one.  This takes no condition on the session, and it is
kept by everything that operations are put together with.
-/

namespace ClassicalPlanner

open Text

namespace Session

variable {s s' : Session} {α β : Type} {k : Key} {old new : SymbolId} {w upper lower : World}
variable {c : Changes} {other : Prop} {good : Session → α → Prop} {bad : FormulaError → Prop}

/-! ### Operations on what is registered -/

theorem Knows.keeps {ks : List Key} (h : s.Knows ks) (keeps : Keeps s s') : s'.Knows ks :=
  fun k hk => keeps.store.contains (h k hk)

theorem knows_pair {k l : Key} : s.Knows [k, l] ↔ s.store.contains k ∧ s.store.contains l :=
  List.forall_mem_cons.trans (and_congr_right fun _ => List.forall_mem_singleton)

theorem HasWorld.keeps (h : s.HasWorld w) (keeps : Keeps s s') : s'.HasWorld w := by
  obtain ⟨a, found⟩ := h
  exact ⟨a, keeps.store.nodes found⟩

/-- What the errors of an operation are may be known from elsewhere. -/
theorem Serves.refusing {x : SessionM α} (served : Serves x s (Gives good fun _ => True))
    (error : ∀ {e s'}, x s = (.error e, s') → bad e) : Serves x s (Gives good bad) := by
  obtain ⟨sound, keeps, closed, result⟩ := served
  refine ⟨sound, keeps, closed, ?_⟩
  rcases hx : x s with ⟨e | a, s'⟩
  · exact error hx
  · rw [hx] at result
    exact result

/-- What is registered can be rewritten as long as there are numbers. -/
theorem serves_substitute_known (hs : s.Sound) (known : s.store.contains k)
    (hnew : s.HasWord new) : Serves (substitute k old new) s
      (Gives (fun s k => s.store.contains k) (· = .outOfNumbers)) := by
  have served : Serves (substitute k old new) s Anything := serves_substitute hs hnew
  refine ⟨served.sound, served.keeps, served.closed, ?_⟩
  obtain ⟨t, ht, -⟩ := hs.canonical.exists_denotes known
  rcases h : substitute k old new s with ⟨e | k', s'⟩
  · exact (answers_substitute hs.canonical ht old new).eq_outOfNumbers h
  · exact ((answers_substitute hs.canonical ht old new).denotes h).contains

theorem serves_laxEvaluate_known (hs : s.Sound) (hc : s.Closed) (known : s.store.contains k)
    (hu : s.HasWorld upper) (hl : s.HasWorld lower) :
    Serves (laxEvaluate k upper lower) s (Gives (fun _ _ => True) FormulaError.Refusal) :=
  (serves_laxEvaluate hs hc k upper lower).refusing (laxEvaluate_refuses hs.canonical known hu hl)

theorem serves_evaluate_known (hs : s.Sound) (hc : s.Closed) (known : s.store.contains k)
    (hw : s.HasWorld w) :
    Serves (evaluate k w) s (Gives (fun _ _ => True) FormulaError.Refusal) :=
  (serves_evaluate hs hc k w).refusing (evaluate_refuses hs.canonical known hw)

theorem exists_collects (hs : s.Canonical) (known : s.Knows c.keys) : ∃ d, s.Collects c d := by
  obtain ⟨add, remove⟩ := knows_append.mp known
  obtain ⟨A, hA⟩ := exists_lists hs fun k hk => add k (Std.ExtTreeSet.mem_toList.mpr hk)
  obtain ⟨R, hR⟩ := exists_lists hs fun k hk => remove k (Std.ExtTreeSet.mem_toList.mpr hk)
  exact ⟨⟨A, R⟩, hA, hR⟩

theorem serves_collectAll_known (hs : s.Sound) (hc : s.Closed) (known : s.store.contains k)
    (collected : s.Knows c.keys) : Serves (changesFrom c (collectAll k)) s
      (Gives (fun s c => s.Knows c.keys) FormulaError.Refusal) := by
  obtain ⟨d, collects⟩ := exists_collects hs.canonical collected
  exact (serves_changesFrom (serves_collectAll hs hc collected k)).refusing
    (collectAll_refuses hs.canonical known collects)

theorem serves_atoms_known (hs : s.Sound) (hw : s.HasWorld w) : Serves (atoms w) s
    (Gives (fun s a => s.store.find? w.key = some (.world a)) bad) := by
  refine (serves_atoms hs w).refusing fun h => ?_
  obtain ⟨a, found⟩ := hw
  rw [atoms_eq_ok_iff.mpr ⟨found, rfl⟩] at h
  cases h

theorem serves_apply_known (hs : s.Sound) (hc : s.Closed) (known : s.store.contains k)
    (hw : s.HasWorld w) : Serves (apply w k) s (Gives HasWorld FormulaError.Refusal) :=
  (serves_apply hs hc w k).refusing (apply_refuses hs.canonical known hw)

/-! ### Texts whose parentheses match -/

/-- **A text whose parentheses match** is a formula, or it is rejected. -/
theorem serves_parse_paired (hs : s.Sound) {text : String} (h : Paired text.toList) :
    Serves (parse text) s (Gives Formula FormulaError.Refusal) := by
  obtain ⟨fragments, found⟩ := Fragment.exists_ofFormula h
  unfold parse
  rw [found]
  exact (serves_addFragment (.group text fragments) hs (Fragment.proper_of_ofFormula found)
    rfl).imp fun _ result => result.imp fun reads => reads.1

theorem serves_makeWorld_paired (hs : s.Sound) {atoms : List String}
    (h : ∀ atom ∈ atoms, Paired atom.toList) (groups : List (String × List String)) :
    Serves (makeWorld atoms groups) s (Gives HasWorld FormulaError.Refusal) :=
  serves_makeWorld_of hs groups (.inr rfl) fun mem sound => serves_parse_paired sound (h _ mem)

/-! ### What is said of failures -/

/-- Wherever the operation fails, this is so of the session left and the error. -/
def Fails (why : Session → FormulaError → Prop) (x : SessionM α) : Prop :=
  ∀ s s' e, x s = (.error e, s') → why s' e

namespace Fails

variable {why : Session → FormulaError → Prop}

theorem pure (a : α) : Fails why (pure a) := fun _ _ _ run => by cases (Prod.mk.inj run).1

theorem throw {e : FormulaError} (h : ∀ s, why s e) : Fails why (throw e : SessionM α) :=
  fun s _ _ run => by cases run; exact h s

theorem lift (x : StateM Session α) : Fails why (liftM x : SessionM α) :=
  fun _ _ _ run => by cases (Prod.mk.inj run).1

theorem bind {x : SessionM α} {f : α → SessionM β} (hx : Fails why x)
    (hf : ∀ a, Fails why (f a)) : Fails why (x >>= f) := by
  intro s s' e run
  rcases run_bind_eq_error.mp run with run | ⟨a, s₁, -, run⟩
  · exact hx s s' e run
  · exact hf a s₁ s' e run

theorem register {f : NodeStore → Except FormulaError (α × NodeStore)}
    (h : ∀ s e, f s.store = .error e → why s e) : Fails why (register f) := by
  intro s s' e run
  unfold Session.register at run
  split at run <;> cases run
  exact h s _ ‹_›

end Fails

/-! ### Where reading fails -/

section Reading

variable {why : Session → FormulaError → Prop} {fragments : List Fragment}

theorem fails_addVariable (none : ∀ s, s.store.Full → why s .outOfNumbers) (text group : String) :
    Fails why (addVariable text group) := by
  refine .bind (.lift _) fun v => .bind (.lift _) fun g => .register fun s e refused => ?_
  rw [NodeStore.addVariable_eq_error refused]
  exact none s (NodeStore.addVariable_full refused)

theorem fails_addFormula (compound : ∀ kind args, Fails why (addCompound kind args)) (kind : Kind)
    (args : List Key) (sawVariable : Bool) : Fails why (addFormula kind args sawVariable) := by
  unfold addFormula
  split
  · exact compound _ _
  · exact compound _ _
  · split
    · exact .pure _
    · exact compound _ _
  · exact compound _ _

theorem fails_addArguments (none : ∀ s : Session, s.store.Full → why s .outOfNumbers)
    {fragments : List Fragment} (each : ∀ f ∈ fragments, Fails why (addFragment f)) :
    Fails why (addArguments fragments) := by
  have named := fails_addVariable none
  induction fragments using induct_arguments with
  | nil => exact .pure _
  | fragment plain ih =>
      obtain ⟨first, each⟩ := List.forall_mem_cons.mp each
      rw [addArguments_fragment plain]
      exact .bind first fun _ => .bind (ih each) fun _ => .pure _
  | grouped marked ih =>
      obtain ⟨-, -, -, each⟩ := by simpa only [List.forall_mem_cons] using each
      rw [addArguments_grouped marked]
      exact .bind (named _ _) fun _ => .bind (ih each) fun _ => .pure _
  | dangling marked =>
      rw [addArguments_dangling marked]
      exact .bind (named _ _) fun _ => .pure _
  | free marked other ih =>
      obtain ⟨-, each⟩ := List.forall_mem_cons.mp each
      rw [addArguments_free marked other]
      exact .bind (named _ _) fun _ => .bind (ih each) fun _ => .pure _

/-- Reading fails only where variables and compounds are registered. -/
theorem fails_addFragment (none : ∀ s : Session, s.store.Full → why s .outOfNumbers)
    (compound : ∀ kind args, Fails why (addCompound kind args)) (fragment : Fragment) :
    Fails why (addFragment fragment) := by
  induction fragment using Fragment.induct with
  | word text => exact .lift _
  | group inside parts each =>
      rw [addFragment_group_eq]
      exact .bind (fails_addArguments none fun f mem => each f (opening_subset parts mem))
        fun _ => fails_addFormula compound _ _ _

end Reading

/-! ### Running out of numbers -/

/-- The operation runs out of numbers only where none is left for a list, or for some other
reason. -/
def Spends (other : Prop) (x : SessionM α) : Prop :=
  ∀ s s' : Session, x s = (.error .outOfNumbers, s') → s'.store.Full ∨ other

theorem spends_iff {x : SessionM α} :
    Spends other x ↔ Fails (fun s e => e = .outOfNumbers → s.store.Full ∨ other) x :=
  ⟨fun h s s' _ run same => h s s' (same ▸ run), fun h s s' run => h s s' _ run rfl⟩

theorem Repeats.spends {x y : SessionM α} (h : Repeats x y) : Spends other x :=
  fun _ _ run => .inl (h.full run)

namespace Spends

theorem pure (a : α) : Spends other (pure a) := spends_iff.mpr (.pure a)

theorem throw {e : FormulaError} (he : e ≠ .outOfNumbers) :
    Spends other (throw e : SessionM α) := spends_iff.mpr (.throw fun _ same => absurd same he)

theorem lift (x : StateM Session α) : Spends other (liftM x : SessionM α) :=
  spends_iff.mpr (.lift x)

theorem bind {x : SessionM α} {f : α → SessionM β} (hx : Spends other x)
    (hf : ∀ a, Spends other (f a)) : Spends other (x >>= f) :=
  spends_iff.mpr (.bind (spends_iff.mp hx) fun a => spends_iff.mp (hf a))

theorem mapM {f : α → SessionM β} (hf : ∀ a, Spends other (f a)) (l : List α) :
    Spends other (l.mapM f) := by
  induction l with
  | nil => exact pure []
  | cons a l ih =>
      rw [List.mapM_cons]
      exact bind (hf a) fun b => bind ih fun bs => pure (b :: bs)

theorem foldlM {f : β → α → SessionM β} (hf : ∀ b a, Spends other (f b a)) (l : List α) (b : β) :
    Spends other (l.foldlM f b) := by
  induction l generalizing b with
  | nil => exact pure b
  | cons a l ih => exact bind (hf b a) ih

end Spends

theorem spends_addFragment (fragment : Fragment) : Spends other (addFragment fragment) :=
  spends_iff.mpr (fails_addFragment (fun _ full _ => .inl full)
    (fun kind args => spends_iff.mp (repeats_addCompound kind args).spends) fragment)

theorem spends_parse (text : String) : Spends other (parse text) := by
  unfold parse
  split
  · exact spends_addFragment _
  · exact .throw (by simp)

theorem spends_makeWorld (atoms : List String) (groups : List (String × List String)) :
    Spends other (makeWorld atoms groups) :=
  .bind (.lift _) fun _ => .bind (.mapM spends_parse atoms) fun _ => (repeats_addWorld _).spends

/-- A formula is rejected, or there is really no number left. -/
def Refused (other : Prop) (s : Session) (e : FormulaError) : Prop :=
  e.Rejection ∨ e = .outOfNumbers ∧ (s.store.Full ∨ other)

theorem Spends.refused {x : SessionM α} {e : FormulaError} (h : Spends other x)
    (run : x s = (.error e, s')) (refusal : e.Refusal) : Refused other s' e :=
  refusal.imp id fun none => ⟨none, h s s' (none ▸ run)⟩

end Session

end ClassicalPlanner
