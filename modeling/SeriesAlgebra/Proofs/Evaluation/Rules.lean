import SeriesAlgebra.Proofs.Evaluation.Calls
import SeriesAlgebra.Proofs.Operator.Errors

/-!
# What evaluation fails with

What an evaluation fails with is either what the resolver failed with, or what some call in the
formula makes of what it is given: a list has no operator at its head, a leaf has no name, a
keyword has no value, or an operator finds that values will not do (`Evaluation.Raises`).

This is a case of something more general. A property of readings that goes through them step by
step, and that a failure has if it is of an allowed kind, is a `Rule`. It may speak of two readings
at once, in which case both do the same but for how they are recorded. A rule holds of the
evaluation of a formula if it does of all answers of the resolver, and if what the calls of the
formula raise themselves is allowed (`Rule.Applies.evaluate`).
-/

namespace SeriesAlgebra

open Evaluation Reading

variable {σ τ α β : Type}

/-! ### Rules -/

/-- **A rule for readings that do the same.** -/
structure Rule (σ τ : Type) where
  Holds : {α : Type} → Reading σ α → Reading τ α → Prop
  /-- What readings may fail with. -/
  Allows : EngineError → Prop
  pure : ∀ {α : Type} (a : α), Holds (Pure.pure a) (Pure.pure a)
  throw : ∀ {α : Type} {e : EngineError}, Allows e →
    Holds (throwThe EngineError e : Reading σ α) (throwThe EngineError e)
  bind : ∀ {α β : Type} {x : Reading σ α} {y : Reading τ α} {f : α → Reading σ β}
    {g : α → Reading τ β}, Holds x y → (∀ a, Holds (f a) (g a)) → Holds (x >>= f) (y >>= g)

/-! ### Failing for reasons of a kind -/

namespace Reading

/-- Whether a reading that fails does so for a reason of a kind. -/
def FailsOnly (P : EngineError → Prop) (x : Reading σ α) : Prop :=
  ∀ s e s', x.run s = (.error e, s') → P e

variable {P : EngineError → Prop}

theorem failsOnly_pure (a : α) : FailsOnly P (pure a : Reading σ α) := by
  intro s e s' h
  cases (Prod.mk.inj h).1

theorem failsOnly_throw {e : EngineError} (h : P e) : FailsOnly P (throw e : Reading σ α) := by
  intro s e' s' he
  exact Except.error.inj (Prod.mk.inj he).1 ▸ h

theorem failsOnly_settle {x : Except EngineError α} (h : Result.FailsOnly P x) :
    FailsOnly P (settle x : Reading σ α) := by
  cases x with
  | ok a => exact failsOnly_pure a
  | error e => exact failsOnly_throw (h e rfl)

theorem failsOnly_bind {x : Reading σ α} {f : α → Reading σ β} (hx : FailsOnly P x)
    (hf : ∀ a s s', Gives x s a s' → FailsOnly P (f a)) : FailsOnly P (x >>= f) := by
  intro s e s'' h
  rw [run_bind] at h
  rcases hrun : x.run s with ⟨e' | a, s'⟩
  · rw [hrun] at h
    exact Except.error.inj (Prod.mk.inj h).1 ▸ hx s e' s' hrun
  · rw [hrun] at h
    exact hf a s s' hrun s' e s'' h

theorem failsOnly_mapM {f : α → Reading σ β} {as : List α} (h : ∀ a ∈ as, FailsOnly P (f a)) :
    FailsOnly P (as.mapM f) := by
  induction as with
  | nil =>
    rw [List.mapM_nil]
    exact failsOnly_pure []
  | cons a as ih =>
    rw [List.mapM_cons]
    refine failsOnly_bind (h a List.mem_cons_self) fun b _ _ _ => ?_
    exact failsOnly_bind (ih fun a ha => h a (List.mem_cons_of_mem _ ha)) fun _ _ _ _ =>
      failsOnly_pure _

theorem failsOnly_foldlM {f : β → α → Reading σ β} {as : List α}
    (h : ∀ b, ∀ a ∈ as, FailsOnly P (f b a)) (b : β) : FailsOnly P (as.foldlM f b) := by
  induction as generalizing b with
  | nil => exact failsOnly_pure b
  | cons a as ih =>
    rw [List.foldlM_cons]
    exact failsOnly_bind (h b a List.mem_cons_self) fun c _ _ _ =>
      ih (fun b a ha => h b a (List.mem_cons_of_mem _ ha)) c

theorem failsOnly_of_gives {x : Reading σ α} (h : ∀ s, ∃ a s', Gives x s a s') :
    FailsOnly P x := by
  intro s e s' he
  obtain ⟨a, s'', ha⟩ := h s
  cases (Prod.mk.inj (ha.symm.trans he)).1

end Reading

namespace Rule

/-- The rule that readings fail for reasons of a kind. The second reading is of no account. -/
def failing (σ : Type) (P : EngineError → Prop) : Rule σ σ where
  Holds x _ := FailsOnly P x
  Allows := P
  pure := failsOnly_pure
  throw := failsOnly_throw
  bind hx hf := failsOnly_bind hx fun a _ _ _ => hf a

variable (R : Rule σ τ)

theorem map {x : Reading σ α} {y : Reading τ α} (h : R.Holds x y) (f : α → β) :
    R.Holds (f <$> x) (f <$> y) := R.bind h fun a => R.pure (f a)

theorem settle {x : Except EngineError α} (h : Result.FailsOnly R.Allows x) :
    R.Holds (Evaluation.settle x) (Evaluation.settle x) := by
  cases x with
  | ok a => exact R.pure a
  | error e => exact R.throw (h e rfl)

end Rule

/-! ### What calls raise -/

namespace Evaluation

variable {registry : Registry}

/-- **The errors that a call makes itself**, of whatever it is given. -/
inductive Raises (registry : Registry) : Tree → EngineError → Prop
  | empty : Raises registry (.list []) (.tree (.malformedList 0))
  | unknown {head : Tree} {args : List Tree}
      (h : registry.operatorOf? (.list (head :: args)) = none) :
      Raises registry (.list (head :: args)) (unknownHead head)
  | nameless {call : Tree} (h : registry.operatorOf? call = some (.builtin .series))
      (hname : call.seriesName? = none) :
      Raises registry call (.invalidArgument Builtin.series.name .noSeriesName)
  | groupless {call : Tree} : Raises registry call (.invalidArgument Builtin.group.name .noGroupName)
  | dangling {call : Tree} {e : TreeError} (h : call.callArgs = .error e) :
      Raises registry call (.tree e)
  | options {call : Tree} {keywords : OrderedMap String Value} {e : EngineError}
      (h : SeriesOptions.unset.update Builtin.series.name keywords = .error e) :
      Raises registry call e
  | childQuery {call : Tree} {b : Builtin} {keywords : OrderedMap String Value} {q : Query}
      {e : EngineError} (h : b.childQuery keywords q = .error e) : Raises registry call e
  | apply {call : Tree} {b : Builtin} {args : Args} {q : Query} {e : EngineError}
      (h : b.apply args q = .error e) : Raises registry call e
  | applyExtension {call : Tree} {x : Extension} {args : Args} {q : Query} {e : EngineError}
      (hop : registry.operatorOf? call = some (.extension x)) (h : x.apply args q = .error e) :
      Raises registry call e

end Evaluation

/-- **What makes a rule hold of evaluations**: it does of the answers of the resolvers where they are
asked for, and what calls raise is allowed. `Asked` holds of formulas, and with a call of its
arguments. -/
structure Rule.Applies (R : Rule σ τ) (registry : Registry) (Asked : Tree → Prop) (A : Resolver σ)
    (B : Resolver τ) : Prop where
  args : ∀ {items op}, Asked (.list items) → registry.operatorOf? (.list items) = some op →
    ∀ a ∈ items.tail, Asked a
  raised : ∀ {call e}, Asked call → Raises registry call e → R.Allows e
  series : ∀ {call name}, Asked call → registry.operatorOf? call = some (.builtin .series) →
    call.seriesName? = some name → ∀ q, R.Holds (A.series name q) (B.series name q)
  group : ∀ {call name}, Asked call → registry.operatorOf? call = some (.builtin .group) →
    call.firstName? Builtin.group.name = some name →
    ∀ q, R.Holds (A.group name q) (B.group name q)
  autotrophic : ∀ call q, R.Holds (A.autotrophic call q) (B.autotrophic call q)

namespace Rule

variable {R : Rule σ τ} {registry : Registry} {A : Resolver σ} {B : Resolver τ}
  {Asked : Tree → Prop}

section

variable {args : List Tree} {q : Query}
  (hargs : ∀ t ∈ args, R.Holds (evaluate registry A t q) (evaluate registry B t q))

include hargs

theorem keywords : R.Holds (evaluateKeywords registry A args q)
    (evaluateKeywords registry B args q) := by
  induction args using args_induct with
  | nil =>
    simp only [evaluateKeywords]
    exact R.pure []
  | dangling a name ha =>
    simp only [evaluateKeywords]
    exact R.pure []
  | keyword a b rest name ha ih =>
    simp only [evaluateKeywords_keyword _ ha]
    have hrest := ih fun t ht => hargs t (List.mem_cons_of_mem _ (List.mem_cons_of_mem _ ht))
    exact R.bind (hargs b (List.mem_cons_of_mem _ List.mem_cons_self)) fun _ =>
      R.bind hrest fun _ => R.pure _
  | positional a rest ha ih =>
    simp only [evaluateKeywords_positional _ ha]
    exact ih fun t ht => hargs t (List.mem_cons_of_mem _ ht)

theorem positional : R.Holds (evaluatePositional registry A args q)
    (evaluatePositional registry B args q) := by
  induction args using args_induct with
  | nil =>
    simp only [evaluatePositional]
    exact R.pure []
  | dangling a name ha =>
    simp only [evaluatePositional, ha]
    exact R.pure []
  | keyword a b rest name ha ih =>
    simp only [evaluatePositional_keyword _ ha]
    exact ih fun t ht => hargs t (List.mem_cons_of_mem _ (List.mem_cons_of_mem _ ht))
  | positional a rest ha ih =>
    simp only [evaluatePositional_positional _ ha]
    exact R.bind (hargs a List.mem_cons_self) fun _ =>
      R.bind (ih fun t ht => hargs t (List.mem_cons_of_mem _ ht)) fun _ => R.pure _

end

theorem Applies.checked (h : R.Applies registry Asked A B) {call : Tree} (hcall : Asked call) :
    R.Holds (checkCall call) (checkCall call) := by
  simp only [checkCall_eq]
  refine R.settle fun e he => ?_
  unfold Evaluation.checked at he
  split at he
  · cases he
  · rename_i cause hcause
    obtain rfl := Except.error.inj he
    exact h.raised hcall (.dangling hcause)

/-- What the arguments of an operator are asked for. -/
theorem Applies.childQuery (h : R.Applies registry Asked A B) {call : Tree} (hcall : Asked call)
    (op : Operator) (keywords : OrderedMap String Value) (q : Query) :
    R.Holds (childQuery op keywords q) (childQuery op keywords q) := by
  cases op with
  | extension x => exact R.pure q
  | builtin b => exact R.settle fun e he => h.raised hcall (.childQuery he)

theorem Applies.applyOperator (h : R.Applies registry Asked A B) {call : Tree} (hcall : Asked call)
    {op : Operator} (hop : registry.operatorOf? call = some op) (args : Args) (q : Query) :
    R.Holds (applyOperator op args q) (applyOperator op args q) := by
  cases op with
  | extension x => exact R.settle fun e he => h.raised hcall (.applyExtension hop he)
  | builtin b => exact R.settle fun e he => h.raised hcall (.apply he)

/-- **A rule holds of the evaluation of a formula** if it does of what the resolvers answer, and of
what the calls of the formula raise. -/
theorem Applies.evaluate (h : R.Applies registry Asked A B) {t : Tree} (ht : Asked t) (q : Query) :
    R.Holds (evaluate registry A t q) (evaluate registry B t q) := by
  induction t using Tree.inductionOn generalizing q with
  | atom l =>
    simp only [Evaluation.evaluate]
    exact R.pure _
  | list items ih =>
    cases items with
    | nil =>
      simp only [Evaluation.evaluate]
      exact R.throw (h.raised ht .empty)
    | cons head args =>
      simp only [Evaluation.evaluate]
      cases hop : registry.operatorOf? (.list (head :: args)) with
      | none => exact R.throw (h.raised ht (.unknown hop))
      | some op =>
        have hargs (q : Query) : ∀ a ∈ args,
            R.Holds (Evaluation.evaluate registry A a q) (Evaluation.evaluate registry B a q) :=
          fun a ha => ih a (List.mem_cons_of_mem _ ha) (h.args ht hop a ha) q
        dsimp only
        split
        case' isTrue => refine R.bind (h.autotrophic _ _) fun known => ?_
        case' isFalse => refine R.bind (R.pure none) fun known => ?_
        all_goals
          split
          · exact R.pure _
          · split
            · rename_i hname
              exact R.throw (h.raised ht (.nameless hop hname))
            · rename_i hname
              refine R.bind (h.checked ht) fun _ => R.bind (keywords (hargs q)) fun keywords => ?_
              exact R.bind (R.settle fun e he => h.raised ht (.options he)) fun _ =>
                R.bind (h.series ht hop hname q) fun _ => R.pure _
          · split
            · exact R.throw (h.raised ht .groupless)
            · rename_i hname
              exact R.bind (h.group ht hop hname q) fun _ => R.pure _
          · exact R.bind (h.checked ht) fun _ => R.bind (R.map (keywords (hargs q)) _) fun keywords =>
              R.bind (h.childQuery ht op keywords q) fun c => R.bind (positional (hargs c)) fun _ =>
                h.applyOperator ht hop _ q

end Rule

/-- Whether all that a resolver fails with is of a kind. -/
structure Resolver.FailsOnly (P : EngineError → Prop) (A : Resolver σ) : Prop where
  series : ∀ name q, Reading.FailsOnly P (A.series name q)
  group : ∀ name q, Reading.FailsOnly P (A.group name q)
  autotrophic : ∀ call q, Reading.FailsOnly P (A.autotrophic call q)

/-- The rule of failing holds where a resolver fails for reasons of a kind, and calls do. -/
theorem Resolver.FailsOnly.applies {P : EngineError → Prop} {A : Resolver σ} (hA : A.FailsOnly P)
    {registry : Registry} {t : Tree} (ht : ∀ u ∈ t.nodes, ∀ e, Raises registry u e → P e) :
    (Rule.failing σ P).Applies registry (· ∈ t.nodes) A A := by
  refine ⟨fun hitems _ a ha => ?_, fun hcall he => ht _ hcall _ he, fun _ _ _ => hA.series _,
    fun _ _ _ => hA.group _, hA.autotrophic⟩
  exact Tree.nodes_trans (Tree.mem_nodes_list.2
    (Or.inr ⟨a, List.mem_of_mem_tail ha, a.self_mem_nodes⟩)) hitems

/-- **An evaluation fails with what the resolver fails with**, or with what a call of the formula
raises. -/
theorem Resolver.FailsOnly.evaluate {P : EngineError → Prop} {A : Resolver σ} (hA : A.FailsOnly P)
    {registry : Registry} {t : Tree} (ht : ∀ u ∈ t.nodes, ∀ e, Raises registry u e → P e)
    (q : Query) : Reading.FailsOnly P (Evaluation.evaluate registry A t q) :=
  (hA.applies ht).evaluate t.self_mem_nodes q

/-- So does the evaluation of the arguments of a call. -/
theorem Resolver.FailsOnly.evaluateArgs {P : EngineError → Prop} {A : Resolver σ}
    (hA : A.FailsOnly P) {registry : Registry} {call : Tree}
    (hcall : ∀ u ∈ call.nodes, ∀ e, Raises registry u e → P e) (q : Query) :
    Reading.FailsOnly P (Evaluation.evaluateArgs registry A call q) := by
  have hargs : ∀ a ∈ call.args, Reading.FailsOnly P (Evaluation.evaluate registry A a q) :=
    fun a ha => hA.evaluate (fun u hu => hcall u (Tree.nodes_trans hu (Tree.mem_nodes_of_mem_args ha))) q
  have hchecked : Reading.FailsOnly P (checkCall call : Reading σ Unit) :=
    (hA.applies hcall).checked call.self_mem_nodes
  have hkeywords := Rule.keywords (R := Rule.failing σ P) (B := A) hargs
  have hpositional := Rule.positional (R := Rule.failing σ P) (B := A) hargs
  exact failsOnly_bind hchecked fun _ _ _ _ => failsOnly_bind hkeywords fun _ _ _ _ =>
    failsOnly_bind hpositional fun _ _ _ _ => failsOnly_pure _

/-! ### Built-in operators -/

namespace Evaluation

open Result

/-- The arguments of a call are told apart unless a keyword has no value. -/
theorem exists_dangling_of_callArgs {operator : String} {args : List Tree} {e : TreeError}
    (h : CallArgs.ofList operator args = .error e) : ∃ keyword, e = .danglingKeyword operator keyword := by
  induction args using args_induct with
  | nil => cases h
  | dangling a name ha =>
    rw [CallArgs.ofList, ha] at h
    exact ⟨name, (Except.error.inj h).symm⟩
  | keyword a b rest name ha ih =>
    rw [CallArgs.ofList, ha] at h
    exact ih (map_error h)
  | positional a rest ha ih =>
    cases rest with
    | nil =>
      rw [CallArgs.ofList, ha] at h
      cases h
    | cons b rest =>
      rw [CallArgs.ofList, ha] at h
      exact ih (map_error h)

/-- **What calls of built-in operators raise**: what is found in values, or else that a list is no
call or a keyword or a name is missing. -/
theorem Raises.cases_builtin {call : Tree} {e : EngineError} (h : Raises .builtin call e) :
    e.isOperatorError = true ∨ e = .tree (.malformedList 0) ∨
      (∃ operator keyword, e = .tree (.danglingKeyword operator keyword)) ∨
      (∃ names, e = .unknownOperators names) ∨
      e = .invalidArgument Builtin.group.name .noGroupName ∨
      e = .invalidArgument Builtin.series.name .noSeriesName ∧
        Registry.builtin.operatorOf? call = some (.builtin .series) ∧ call.seriesName? = none := by
  cases h with
  | empty => exact Or.inr (Or.inl rfl)
  | unknown _ =>
    unfold unknownHead
    split
    · exact Or.inr (Or.inr (Or.inr (Or.inl ⟨_, rfl⟩)))
    · exact Or.inr (Or.inl rfl)
  | nameless h hname => exact Or.inr (Or.inr (Or.inr (Or.inr (Or.inr ⟨rfl, h, hname⟩))))
  | groupless => exact Or.inr (Or.inr (Or.inr (Or.inr (Or.inl rfl))))
  | dangling h =>
    obtain ⟨keyword, rfl⟩ := exists_dangling_of_callArgs h
    exact Or.inr (Or.inr (Or.inl ⟨_, keyword, rfl⟩))
  | options h => exact Or.inl (Application.failsAsOperator_update _ _ _ e h)
  | childQuery h => exact Or.inl (Builtin.failsOnly_childQuery _ _ _ e h)
  | apply h => exact Or.inl (Builtin.failsOnly_apply _ _ _ e h)
  | applyExtension hop _ =>
    obtain ⟨symbol, -, hfind⟩ := Option.bind_eq_some_iff.1 hop
    obtain ⟨b, -, hb⟩ := Registry.find?_builtin hfind
    cases hb

end Evaluation

end SeriesAlgebra
