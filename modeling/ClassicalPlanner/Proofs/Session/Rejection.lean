import ClassicalPlanner.Proofs.Session.Reachable
import ClassicalPlanner.Proofs.Session.Refusal

/-!
# Which texts are rejected

A text is rejected as a whole if its parentheses are unbalanced, before anything is registered
(`parse_of_unbalanced`).  Otherwise the groups in it, however deep, are shorter texts that are read
in the same way, and none of them is unbalanced (`Within.reading`).  What can still go wrong is that
numbers run out, or that a group in the text has the wrong number of arguments or binds what is no
variable (`blames_addFragment`).
-/

namespace ClassicalPlanner

open Text

/-! ### Groups in a text -/

namespace Fragment

variable {text : String} {cs : List Char} {f g : Fragment} {fragments more : List Fragment}

/-- The fragment is one of these, or in a group that is. -/
inductive Within (f : Fragment) : List Fragment → Prop where
  | here {fragments : List Fragment} (mem : f ∈ fragments) : Within f fragments
  | deeper {inside : String} {parts fragments : List Fragment}
      (mem : .group inside parts ∈ fragments) (h : Within f parts) : Within f fragments

theorem Within.mono (h : Within f fragments) (sub : fragments ⊆ more) : Within f more := by
  cases h with
  | here mem => exact .here (sub mem)
  | deeper mem h => exact .deeper (sub mem) h

/-- The fragments of a text are written in it one after the other. -/
theorem Written.sublist (h : Written cs fragments) :
    (fragments.flatMap (·.text.toList)).Sublist cs := by
  induction h with
  | nil => exact List.Sublist.slnil
  | blank _ _ ih => exact ih.cons _
  | word _ _ _ ih =>
      rw [List.flatMap_cons, text, String.toList_ofList]
      exact ih.append_left _
  | @group inside cs _ _ _ _ _ ih =>
      have whole : '(' :: inside ++ ')' :: cs = ('(' :: inside ++ [')']) ++ cs := by simp
      rw [List.flatMap_cons, toList_text_group, String.toList_ofList, whole]
      exact ih.append_left _

theorem Proper.length_pos (h : f.Proper) : 0 < f.text.toList.length := by
  cases f with
  | word text => exact List.length_pos_iff.mpr (Word.ne_nil h)
  | group inside parts => simp [toList_text_group]

/-- A fragment is no longer than the text that it is in, and shorter if it is not alone there. -/
theorem Written.length_of_mem (h : Written cs fragments) (mem : f ∈ fragments) :
    f.text.toList.length ≤ cs.length ∧
      (fragments ≠ [f] → f.text.toList.length < cs.length) := by
  obtain ⟨before, after, rfl⟩ := List.append_of_mem mem
  have whole := h.sublist.length_le
  rw [List.flatMap_append, List.flatMap_cons, List.length_append, List.length_append] at whole
  refine ⟨by omega, fun other => ?_⟩
  rcases before with _ | ⟨g, before⟩
  · rcases after with _ | ⟨g, after⟩
    · exact absurd rfl other
    · have pos := (h.proper g (by simp)).1.length_pos
      rw [List.flatMap_cons, List.length_append] at whole
      omega
  · have pos := (h.proper g (by simp)).1.length_pos
    rw [List.flatMap_cons, List.length_append] at whole
    omega

/-- Groups in fragments are proper, and no longer than the fragment that they are in. -/
theorem Within.proper (h : Within f fragments) (proper : ∀ g ∈ fragments, g.Proper) :
    f.Proper ∧ ∃ g ∈ fragments, f.text.toList.length ≤ g.text.toList.length ∧
      (f ≠ g → f.text.toList.length < g.text.toList.length) := by
  induction h with
  | here mem => exact ⟨proper _ mem, _, mem, le_refl _, fun ne => absurd rfl ne⟩
  | @deeper inside parts fragments mem h ih =>
      have written : Written inside.toList parts := proper _ mem
      obtain ⟨hf, g, hg, le, -⟩ := ih fun g hg => (written.proper g hg).1
      have le := le.trans ((written.length_of_mem hg).1)
      refine ⟨hf, _, mem, ?_, fun _ => ?_⟩ <;>
      · rw [toList_text_group, List.length_append, List.length_cons]
        omega

theorem length_trim_le (cs : List Char) : (trim cs).length ≤ cs.length := by
  rw [trim, List.length_reverse]
  refine (List.dropWhile_sublist _).length_le.trans ?_
  rw [List.length_reverse]
  exact (List.dropWhile_sublist _).length_le

/-- **Groups in a formula**, however deep, are over the fragments of their text, which is shorter
than that of the formula. -/
theorem Within.of_ofFormula {inside : String} {parts : List Fragment}
    (h : Within (.group inside parts) fragments) (found : ofFormula text = .ok fragments) :
    (group inside parts).Proper ∧ (group inside parts).text.toList.length < text.toList.length := by
  obtain ⟨proper, g, mem, le, lt⟩ := h.proper (proper_of_ofFormula found)
  refine ⟨proper, lt_of_lt_of_le ?_ (length_trim_le text.toList)⟩
  obtain ⟨whole, written, rfl⟩ := ofFormula_eq_ok_iff.mp found
  unfold unwrap at mem
  split at mem
  · have outer := written.length_of_mem List.mem_cons_self
    have inner := Written.length_of_mem (written.proper _ List.mem_cons_self).1 mem
    rw [toList_text_group, List.length_append, List.length_cons] at outer
    omega
  · rename_i other
    have short := written.length_of_mem mem
    by_cases same : group inside parts = g
    · subst same
      exact short.2 (other inside parts)
    · exact (lt same).trans_le short.1

end Fragment

namespace Session

variable {s s₁ s' : Session} {text inside : String} {parts fragments more : List Fragment}
variable {e : FormulaError} {kind : Kind} {args : List Key} {f : Fragment}

/-! ### Unbalanced texts -/

/-- **An unbalanced text** is rejected as it was given, and nothing else happens. -/
theorem parse_of_unbalanced (h : Unbalanced text.toList) (s : Session) :
    ∃ i, parse text s = (.error (.unbalanced text i), s) ∧
      (i = .unopened ↔ ∃ p, p <+: text.toList ∧ p.count '(' < p.count ')') := by
  have wrong : Fragment.imbalance? (nest 0 text.toList) ≠ none :=
    fun h' => unbalanced_iff.mp h (Fragment.imbalance?_eq_none_iff.mp h')
  obtain ⟨i, hi⟩ := Option.ne_none_iff_exists'.mp wrong
  refine ⟨i, ?_, ?_⟩
  · unfold parse
    rw [Fragment.ofFormula_eq_error_iff.mpr hi]
    rfl
  · rw [← overclosed_zero, ← nest_eq_none_iff]
    rcases hn : nest 0 text.toList with _ | _ | _ <;> rw [hn] at hi <;> cases hi <;> simp

/-- A balanced text is read as the group of its fragments. -/
theorem parse_of_balanced (h : ¬Unbalanced text.toList) :
    ∃ fragments, Fragment.ofFormula text = .ok fragments ∧
      parse text = addFragment (.group text fragments) := by
  obtain ⟨fragments, found⟩ := Fragment.exists_ofFormula (not_not.mp (mt unbalanced_iff.mpr h))
  exact ⟨fragments, found, by rw [parse, found]⟩

/-- Fragments are never found to be unbalanced. -/
theorem addFragment_ne_unbalanced (f : Fragment) :
    Fails (fun _ e => ∀ quoted i, e ≠ .unbalanced quoted i) (addFragment f) := by
  refine fails_addFragment (fun _ _ _ _ h => by cases h) (fun kind args => ?_) f
  refine .register fun s e refused quoted i same => ?_
  subst same
  rcases NodeStore.addCompound_eq_error_iff.mp refused with h | ⟨n, -, hc | ⟨-, hi⟩⟩
  · unfold Node.ofKind at h
    split at h <;> cases h
  · rcases NodeStore.check_eq_error hc with ⟨_, _, _, h⟩ | misbinds
    · cases h
    · cases misbinds.rejection
  · cases NodeStore.number_eq_error hi

/-- **A text is found to be unbalanced** exactly if it is. -/
theorem parse_unbalanced_iff (text : String) (s : Session) :
    (∃ quoted i, (parse text s).1 = .error (.unbalanced quoted i)) ↔ Unbalanced text.toList := by
  refine ⟨fun ⟨quoted, i, h⟩ => ?_, fun h => ?_⟩
  · by_contra balanced
    obtain ⟨fragments, -, read⟩ := parse_of_balanced balanced
    rw [read] at h
    exact addFragment_ne_unbalanced _ _ _ _ (run_eq_of_result h) quoted i rfl
  · obtain ⟨i, h, -⟩ := parse_of_unbalanced h s
    exact ⟨text, i, by rw [h]⟩

/-! ### Groups are read as texts -/

/-- A group of a text is read as its own text is. -/
theorem parse_group (h : (Fragment.group inside parts).Proper) :
    parse (Fragment.group inside parts).text = addFragment (.group inside parts) := by
  rw [parse, Fragment.ofFormula_group h]
  exact (addFragment_group_eq _ parts).trans (addFragment_group_eq inside parts).symm

/-- The text of a group is balanced. -/
theorem balanced_group (h : (Fragment.group inside parts).Proper) :
    ¬Unbalanced (Fragment.group inside parts).text.toList :=
  fun unbalanced => unbalanced_iff.mp unbalanced h.written.paired

/-! ### What is wrong with a balanced text -/

/-- These arguments are refused to this kind: there are too many or too few of them, or the first
would have to be a variable. -/
def Refuses (s : Session) (kind : Kind) (args : List Key) (e : FormulaError) : Prop :=
  (∃ expected, Node.arity? kind = some expected ∧ expected.allows args.length = false ∧
    e = .arity kind expected args.length) ∨ s.store.Misbinds kind args e

/-- The numbers have run out, or some group in the fragments is refused its arguments. -/
def Blames (fragments : List Fragment) (s : Session) (e : FormulaError) : Prop :=
  e = .outOfNumbers ∧ s.store.Full ∨ ∃ inside parts s₁ args saw,
    Fragment.Within (.group inside parts) fragments ∧
      addArguments (opening parts).2 s₁ = (.ok (args, saw), s) ∧ s.Refuses (opening parts).1 args e

theorem Blames.within (h : Blames fragments s e)
    (sub : ∀ {f}, Fragment.Within f fragments → Fragment.Within f more) : Blames more s e :=
  h.imp id fun ⟨inside, parts, s₁, args, saw, within, rest⟩ =>
    ⟨inside, parts, s₁, args, saw, sub within, rest⟩

theorem Blames.mono (h : Blames fragments s e) (sub : fragments ⊆ more) : Blames more s e :=
  h.within (·.mono sub)

theorem isSome_arity?_opening (parts : List Fragment) :
    (Node.arity? (opening parts).1).isSome := by
  unfold opening
  split
  · split
    · rename_i kind h
      cases kind <;> first | rfl | cases Kind.ofOperator?_eq_some_iff.mp h
    · rfl
  · rfl

/-- A kind of compounds refuses only a wrong number of arguments. -/
theorem ofKind_eq_error (h : (Node.arity? kind).isSome)
    (refused : Node.ofKind kind args = .error e) : ∃ expected, Node.arity? kind = some expected ∧
      expected.allows args.length = false ∧ e = .arity kind expected args.length := by
  rcases args with _ | ⟨a, _ | ⟨b, _ | ⟨c, rest⟩⟩⟩ <;> cases kind <;> cases refused <;>
    first
      | exact ⟨_, rfl, by simp [Arity.allows], rfl⟩
      | cases h

/-- Registered arguments of a kind of compounds are refused, or the numbers have run out. -/
theorem addCompound_refuses_known (h : (Node.arity? kind).isSome)
    (known : ∀ a ∈ args, s.store.contains a)
    (run : addCompound kind args s = (.error e, s')) :
    s' = s ∧ (e = .outOfNumbers ∧ s.store.Full ∨ s.Refuses kind args e) := by
  unfold addCompound register at run
  split at run <;> cases run
  rename_i refused
  refine ⟨rfl, ?_⟩
  rcases NodeStore.addCompound_eq_error_iff.mp refused with wrong | ⟨n, hn, hc | ⟨-, hi⟩⟩
  · exact .inr (.inl (ofKind_eq_error h wrong))
  · rcases NodeStore.check_eq_error hc with ⟨a, ha, absent, -⟩ | misbinds
    · rw [Node.args_of_ofKind hn] at ha
      exact absurd (known a ha) absent
    · rw [Node.kind_of_ofKind hn, Node.args_of_ofKind hn] at misbinds
      exact .inr (.inr misbinds)
  · obtain ⟨-, full, rfl⟩ := NodeStore.number_eq_error_iff.mp hi
    exact .inl ⟨rfl, full⟩

theorem addFormula_refuses_known {saw : Bool} (h : (Node.arity? kind).isSome)
    (known : ∀ a ∈ args, s.store.contains a)
    (run : addFormula kind args saw s = (.error e, s')) :
    s' = s ∧ (e = .outOfNumbers ∧ s.store.Full ∨ s.Refuses kind args e) := by
  unfold addFormula at run
  split at run
  · exact addCompound_refuses_known h known run
  · -- the empty conjunction has as many arguments as it may, and binds nothing
    have conjunction : (Node.arity? .and).isSome := rfl
    obtain ⟨rfl, none | ⟨_, arity, few, -⟩ | ⟨quantifier, -⟩⟩ :=
      addCompound_refuses_known conjunction known run
    · exact ⟨rfl, .inl none⟩
    · cases arity
      cases few
    · cases quantifier
  · split at run
    · cases run
    · exact addCompound_refuses_known h known run
  · exact addCompound_refuses_known h known run

theorem addVariable_refuses {name group : String}
    (run : addVariable name group s = (.error e, s')) : e = .outOfNumbers ∧ s'.store.Full := by
  have fails : Fails (fun s e => e = .outOfNumbers ∧ s.store.Full) (addVariable name group) :=
    fails_addVariable (fun _ full => ⟨rfl, full⟩) name group
  exact fails s s' e run

/-- Where a fragment and then more arguments are read, one of them is to blame. -/
theorem blames_bind {x : SessionM Key} {g : Key → List Key × Bool → List Key × Bool}
    {good : Session → Key → Prop} {bad : FormulaError → Prop}
    (hx : Serves x s (Gives good bad))
    (first : x s = (.error e, s') → Blames more s' e)
    (rest : ∀ {s₁}, s₁.Sound → addArguments parts s₁ = (.error e, s') → Blames more s' e)
    (run : (do let arg ← x; let out ← addArguments parts; return g arg out : SessionM _) s =
      (.error e, s')) : Blames more s' e := by
  rcases run_bind_eq_error.mp run with run | ⟨arg, s₁, ran, run⟩
  · exact first run
  · have sound := hx.sound
    rw [ran] at sound
    rcases run_bind_eq_error.mp run with run | ⟨_, _, -, run⟩
    · exact rest sound run
    · cases run

/-- Where arguments are read, some fragment is to blame. -/
theorem blames_addArguments (each : ∀ f ∈ fragments, ∀ {s s' : Session} {e : FormulaError},
      s.Sound → Whole f → variableWord? f = none → addFragment f s = (.error e, s') →
      Blames [f] s' e)
    (hs : s.Sound) (proper : Proper fragments) (run : addArguments fragments s = (.error e, s')) :
    Blames fragments s' e := by
  have named {s : Session} {name group : String} (hs : s.Sound) :=
    serves_addVariable hs name group (rfl : (.outOfNumbers : FormulaError) = .outOfNumbers)
  induction fragments using induct_arguments generalizing s with
  | nil => cases run
  | fragment plain ih =>
      obtain ⟨first, each⟩ := List.forall_mem_cons.mp each
      obtain ⟨hf, proper⟩ := List.forall_mem_cons.mp proper
      rw [addArguments_fragment plain] at run
      have served := serves_addFragment _ hs (whole_of_proper hf) plain
      refine blames_bind served (fun run => ?_) (fun sound run => ?_) run
      · exact (first hs (whole_of_proper hf) plain run).mono (by simp)
      · exact (ih each sound proper run).mono (List.subset_cons_self _ _)
  | grouped marked ih =>
      obtain ⟨-, -, -, each⟩ := by simpa only [List.forall_mem_cons] using each
      obtain ⟨-, -, -, proper⟩ := by simpa only [Proper, List.forall_mem_cons] using proper
      rw [addArguments_grouped marked] at run
      refine blames_bind (named hs) (fun run => .inl (addVariable_refuses run))
        (fun sound run => ?_) run
      exact (ih each sound proper run).mono fun f mem => by simp [mem]
  | dangling marked =>
      rw [addArguments_dangling marked] at run
      rcases run_bind_eq_error.mp run with run | ⟨_, _, -, run⟩
      · exact .inl (addVariable_refuses run)
      · cases run
  | free marked other ih =>
      obtain ⟨-, each⟩ := List.forall_mem_cons.mp each
      obtain ⟨-, proper⟩ := List.forall_mem_cons.mp proper
      rw [addArguments_free marked other] at run
      refine blames_bind (named hs) (fun run => .inl (addVariable_refuses run))
        (fun sound run => ?_) run
      exact (ih each sound proper run).mono (List.subset_cons_self _ _)

/-- **Where a fragment is read**, the numbers have run out or a group in it is to blame. -/
theorem blames_addFragment (hs : s.Sound) (whole : Whole f) (plain : variableWord? f = none)
    (run : addFragment f s = (.error e, s')) : Blames [f] s' e := by
  induction f using Fragment.induct generalizing s s' e with
  | word text => cases (Prod.mk.inj run).1
  | group inside parts ih =>
      have sub := opening_subset parts
      have proper : Proper (opening parts).2 := fun f mem => whole f (sub mem)
      rw [addFragment_group_eq] at run
      rcases run_bind_eq_error.mp run with run | ⟨⟨args, saw⟩, s₁, ran, run⟩
      · have blames := blames_addArguments (fun f mem _ _ _ => ih f (sub mem)) hs proper run
        exact blames.within fun within => .deeper List.mem_cons_self (within.mono sub)
      · have result := (serves_addArguments _ hs proper).result
        rw [ran] at result
        obtain ⟨rfl, refused⟩ := addFormula_refuses_known (isSome_arity?_opening parts)
          (fun a ha => (result.formulas a ha).contains) run
        exact refused.imp id fun refuses =>
          ⟨inside, parts, s, args, saw, .here List.mem_cons_self, ran, refuses⟩

/-! ### What may come of a text -/

/-- **A text is rejected as unbalanced** exactly if some part of it up to a place has more
parentheses that close than parentheses that open, or the whole text has not as many of the ones as
of the others.  The error then quotes the text as it was given, and the session stays as it was.

A balanced text is read as the group of its fragments.  Each group in it, however deep, is read as
its own text is read, which is shorter, and that is never found to be unbalanced.  If the text
cannot be read, the numbers have run out, or some group in it, once its arguments had been read, was
refused them: they were too many or too few, or it was a quantifier and its first argument no
variable. -/
theorem parse_rejects_unbalanced (reached : s.Reachable) (text : String) :
    ((∃ quoted i, (parse text s).1 = .error (.unbalanced quoted i)) ↔
      Unbalanced text.toList) ∧
    (Unbalanced text.toList → ∃ i, parse text s = (.error (.unbalanced text i), s) ∧
      (i = .unopened ↔ ∃ p, p <+: text.toList ∧ p.count '(' < p.count ')')) ∧
    (¬Unbalanced text.toList → ∃ fragments, Fragment.ofFormula text = .ok fragments ∧
      parse text = addFragment (.group text fragments) ∧
      (∀ inside parts, Fragment.Within (.group inside parts) fragments →
        addFragment (.group inside parts) = parse (Fragment.group inside parts).text ∧
        (Fragment.group inside parts).text.length < text.length ∧
        ∀ s quoted i, (parse (Fragment.group inside parts).text s).1 ≠
          .error (.unbalanced quoted i)) ∧
      ∀ e s', parse text s = (.error e, s') → Blames [.group text fragments] s' e) := by
  refine ⟨parse_unbalanced_iff text s, fun h => parse_of_unbalanced h s, fun balanced => ?_⟩
  obtain ⟨fragments, found, read⟩ := parse_of_balanced balanced
  refine ⟨fragments, found, read, fun inside parts within => ?_, fun e s' run => ?_⟩
  · obtain ⟨proper, shorter⟩ := within.of_ofFormula found
    refine ⟨(parse_group proper).symm, ?_, fun s quoted i h => ?_⟩
    · rwa [String.length_toList, String.length_toList] at shorter
    · exact balanced_group proper ((parse_unbalanced_iff _ s).mp ⟨quoted, i, h⟩)
  · rw [read] at run
    exact blames_addFragment reached.sound (Fragment.proper_of_ofFormula found) rfl run

/-- A text with one parenthesis too many is rejected before it is read, and one with a negation of
two formulas once these have been read. -/
theorem parse_rejects_unbalanced_twice :
    (∃ i, parse "(p)) " ∅ = (.error (.unbalanced "(p)) " i), ∅)) ∧
    ∃ fragments s', parse "(or (not p q))" ∅ = (.error (.arity .not .one 2), s') ∧
      Blames [.group "(or (not p q))" fragments] s' (.arity .not .one 2) := by
  obtain ⟨-, rejected, -⟩ := parse_rejects_unbalanced .empty "(p)) "
  obtain ⟨-, -, read⟩ := parse_rejects_unbalanced .empty "(or (not p q))"
  have odd : ¬Paired "(p)) ".toList := by decide +kernel
  have paired : Paired "(or (not p q))".toList := by decide +kernel
  have refused : (parse "(or (not p q))" ∅).1 = .error (.arity .not .one 2) := by decide +kernel
  obtain ⟨i, run, -⟩ := rejected (unbalanced_iff.mpr odd)
  obtain ⟨fragments, -, -, -, blames⟩ := read fun h => unbalanced_iff.mp h paired
  have run' := run_eq_of_result refused
  exact ⟨⟨i, run⟩, fragments, _, run', blames _ _ run'⟩

end Session

end ClassicalPlanner
