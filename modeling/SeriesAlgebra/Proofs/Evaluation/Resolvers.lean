import SeriesAlgebra.Proofs.Evaluation.Comparison

/-!
# Comparing resolvers

A formula is evaluated with the help of a resolver, and touches its state in no other way.
So whatever the way to compare, and whatever the registry: if the answers of resolvers
compare, then so do the values that a formula has for them (`Comparison.Resolves.evaluate`).
-/

namespace SeriesAlgebra

open Evaluation

variable {σ τ ι α β γ : Type}

namespace Comparison

variable (C : Comparison σ τ ι)

/-- What compares with itself goes on to compare. -/
theorem bind_same {x : Reading σ α} {y : ι → Reading τ α} {f : α → Reading σ β}
    {g : ι → α → Reading τ γ} {R : β → γ → Prop} (hxy : C.Holds Eq x y)
    (hfg : ∀ a, C.Holds R (f a) fun i => g i a) : C.Holds R (x >>= f) fun i => y i >>= g i :=
  C.bind hxy fun a _ hab => hab ▸ hfg a

theorem settle_same (x : Except EngineError α) :
    C.Holds Eq (Evaluation.settle x) fun _ => Evaluation.settle x := C.settle (Yields.refl x)

theorem pure_same (a : α) : C.Holds Eq (Pure.pure a) fun _ => Pure.pure a := C.pure rfl

theorem throw_same (e : EngineError) (y : ι → Reading τ α) :
    C.Holds Eq (throwThe EngineError e : Reading σ α) y := C.throw e y

theorem map_same {x : Reading σ α} {y : ι → Reading τ α} (h : C.Holds Eq x y) (f : α → β) :
    C.Holds Eq (f <$> x) fun i => f <$> y i := C.map h fun _ _ hab => congrArg f hab

theorem mapM_same {f : α → Reading σ β} {g : ι → α → Reading τ β} {as : List α}
    (h : ∀ a ∈ as, C.Holds Eq (f a) fun i => g i a) :
    C.Holds Eq (as.mapM f) fun i => as.mapM (g i) := by
  induction as with
  | nil =>
    simp only [List.mapM_nil]
    exact C.pure_same []
  | cons a as ih =>
    simp only [List.mapM_cons]
    exact C.bind_same (h a List.mem_cons_self) fun _ =>
      C.bind_same (ih fun b hb => h b (List.mem_cons_of_mem _ hb)) fun _ => C.pure_same _

theorem foldlM_same {f : β → α → Reading σ β} {g : ι → β → α → Reading τ β}
    (h : ∀ b a, C.Holds Eq (f b a) fun i => g i b a) (as : List α) (b : β) :
    C.Holds Eq (as.foldlM f b) fun i => as.foldlM (g i) b := by
  induction as generalizing b with
  | nil => exact C.pure_same b
  | cons a as ih => exact C.bind_same (h b a) ih

/-- **Whether the answers of resolvers compare.** -/
structure Resolves (A : Resolver σ) (B : ι → Resolver τ) : Prop where
  series : ∀ name q, C.Holds Eq (A.series name q) fun i => (B i).series name q
  group : ∀ name q, C.Holds Eq (A.group name q) fun i => (B i).group name q
  autotrophic : ∀ call q, C.Holds Eq (A.autotrophic call q) fun i => (B i).autotrophic call q

variable {C} {registry : Registry} {A : Resolver σ} {B : ι → Resolver τ}

/-- **Whether the answers of resolvers compare where they are asked for**: `Asked` holds of formulas
and queries, and with a call of its arguments and what these are asked for. -/
structure ResolvesAsked (C : Comparison σ τ ι) (registry : Registry) (Asked : Tree → Query → Prop)
    (A : Resolver σ) (B : ι → Resolver τ) : Prop where
  args : ∀ {items q}, Asked (.list items) q → ∀ a ∈ items.tail, Asked a q
  below : ∀ {items q b keywords c}, Asked (.list items) q →
    registry.operatorOf? (.list items) = some (.builtin b) → b.childQuery keywords q = .ok c →
    ∀ a ∈ items.tail, Asked a c
  series : ∀ {call q name}, Asked call q → call.seriesName? = some name →
    C.Holds Eq (A.series name q) fun i => (B i).series name q
  group : ∀ {call q name}, Asked call q → registry.operatorOf? call = some (.builtin .group) →
    call.firstName? Builtin.group.name = some name →
    C.Holds Eq (A.group name q) fun i => (B i).group name q
  autotrophic : ∀ call q, C.Holds Eq (A.autotrophic call q) fun i => (B i).autotrophic call q

section

variable {args : List Tree} {q : Query} (hargs : ∀ t ∈ args,
  C.Holds Eq (evaluate registry A t q) fun i => evaluate registry (B i) t q)

include hargs

theorem keywords_same : C.Holds Eq (evaluateKeywords registry A args q) fun i =>
    evaluateKeywords registry (B i) args q := by
  induction args using args_induct with
  | nil =>
    simp only [evaluateKeywords]
    exact C.pure_same []
  | dangling a name ha =>
    simp only [evaluateKeywords]
    exact C.pure_same []
  | keyword a b rest name ha ih =>
    simp only [evaluateKeywords_keyword _ ha]
    have hrest := ih fun t ht => hargs t (List.mem_cons_of_mem _ (List.mem_cons_of_mem _ ht))
    exact C.bind_same (hargs b (List.mem_cons_of_mem _ List.mem_cons_self)) fun _ =>
      C.bind_same hrest fun _ => C.pure_same _
  | positional a rest ha ih =>
    simp only [evaluateKeywords_positional _ ha]
    exact ih fun t ht => hargs t (List.mem_cons_of_mem _ ht)

theorem positional_same : C.Holds Eq (evaluatePositional registry A args q) fun i =>
    evaluatePositional registry (B i) args q := by
  induction args using args_induct with
  | nil =>
    simp only [evaluatePositional]
    exact C.pure_same []
  | dangling a name ha =>
    simp only [evaluatePositional, ha]
    exact C.pure_same []
  | keyword a b rest name ha ih =>
    simp only [evaluatePositional_keyword _ ha]
    exact ih fun t ht => hargs t (List.mem_cons_of_mem _ (List.mem_cons_of_mem _ ht))
  | positional a rest ha ih =>
    simp only [evaluatePositional_positional _ ha]
    exact C.bind_same (hargs a List.mem_cons_self) fun _ =>
      C.bind_same (ih fun t ht => hargs t (List.mem_cons_of_mem _ ht)) fun _ => C.pure_same _

end

theorem checkCall_same (t : Tree) : C.Holds Eq (checkCall t) fun _ => checkCall t := by
  simp only [checkCall_eq]
  exact C.settle_same _

/-- What the arguments of an operator are asked for is the same, and is what the operator says. -/
theorem bind_childQuery {op : Operator} {keywords : OrderedMap String Value} {q : Query}
    {f : Query → Reading σ α} {g : ι → Query → Reading τ α}
    (hbuiltin : ∀ b c, op = .builtin b → b.childQuery keywords q = .ok c →
      C.Holds Eq (f c) fun i => g i c)
    (hextension : C.Holds Eq (f q) fun i => g i q) :
    C.Holds Eq (childQuery op keywords q >>= f) fun i => childQuery op keywords q >>= g i := by
  cases op with
  | extension e =>
    refine C.bind (C.pure (R := fun c d => c = q ∧ d = q) ⟨rfl, rfl⟩) ?_
    rintro _ _ ⟨rfl, rfl⟩
    exact hextension
  | builtin b =>
    refine C.bind (C.settle (R := fun c d => c = d ∧ b.childQuery keywords q = .ok c)
      fun c hc => ⟨c, hc, rfl, hc⟩) ?_
    rintro c _ ⟨rfl, hc⟩
    exact hbuiltin b c rfl hc

theorem applyOperator_same (op : Operator) (args : Args) (q : Query) :
    C.Holds Eq (applyOperator op args q) fun _ => applyOperator op args q := by
  unfold applyOperator
  split <;> exact C.settle_same _

/-- **The values of a formula compare, if the answers of the resolvers do that it asks for**, with
every registry. -/
theorem ResolvesAsked.evaluate {Asked : Tree → Query → Prop}
    (h : C.ResolvesAsked registry Asked A B) {t : Tree} {q : Query} (ht : Asked t q) :
    C.Holds Eq (evaluate registry A t q) fun i => evaluate registry (B i) t q := by
  induction t using Tree.inductionOn generalizing q with
  | atom l =>
    simp only [Evaluation.evaluate]
    exact C.pure_same _
  | list items ih =>
    cases items with
    | nil =>
      simp only [Evaluation.evaluate]
      exact C.throw_same _ _
    | cons head args =>
      have hargs : ∀ t ∈ args, C.Holds Eq (Evaluation.evaluate registry A t q) fun i =>
          Evaluation.evaluate registry (B i) t q :=
        fun t hmem => ih t (List.mem_cons_of_mem _ hmem) (h.args ht t hmem)
      simp only [Evaluation.evaluate]
      cases hop : registry.operatorOf? (.list (head :: args)) with
      | none => exact C.throw_same _ _
      | some op =>
        dsimp only
        split
        case' isTrue => refine C.bind_same (h.autotrophic _ _) fun known => ?_
        case' isFalse => refine C.bind_same (C.pure_same none) fun known => ?_
        all_goals
          split
          · exact C.pure_same _
          · split
            · exact C.throw_same _ _
            · rename_i hname
              refine C.bind_same (checkCall_same _) fun _ =>
                C.bind_same (keywords_same hargs) fun keywords => ?_
              exact C.bind_same (C.settle_same _) fun _ =>
                C.bind_same (h.series ht hname) fun _ => C.pure_same _
          · split
            · exact C.throw_same _ _
            · rename_i hname
              exact C.bind_same (h.group ht hop hname) fun _ => C.pure_same _
          · refine C.bind_same (checkCall_same _) fun _ =>
              C.bind_same (C.map_same (keywords_same hargs) _) fun keywords =>
                bind_childQuery (fun b c hb hc => ?_) ?_
            · subst hb
              exact C.bind_same (positional_same fun t hmem =>
                ih t (List.mem_cons_of_mem _ hmem) (h.below ht hop hc t hmem))
                fun _ => applyOperator_same _ _ q
            · exact C.bind_same (positional_same hargs) fun _ => applyOperator_same _ _ q

/-- **The values of a formula compare, if the answers of the resolvers do**, with every registry. -/
theorem Resolves.evaluate (h : C.Resolves A B) (t : Tree) (q : Query) :
    C.Holds Eq (evaluate registry A t q) fun i => evaluate registry (B i) t q := by
  have hasked : C.ResolvesAsked registry (fun _ _ => True) A B := ⟨fun _ _ _ => trivial,
    fun _ _ _ _ _ => trivial, fun _ _ => h.series _ _, fun _ _ _ => h.group _ _, h.autotrophic⟩
  exact hasked.evaluate trivial

theorem Resolves.evaluateArgs (h : C.Resolves A B) (call : Tree) (q : Query) :
    C.Holds Eq (evaluateArgs registry A call q) fun i => evaluateArgs registry (B i) call q := by
  have hargs : ∀ t ∈ call.args, C.Holds Eq (Evaluation.evaluate registry A t q) fun i =>
      Evaluation.evaluate registry (B i) t q := fun t _ => h.evaluate t q
  exact C.bind_same (checkCall_same call) fun _ => C.bind_same (keywords_same hargs) fun _ =>
    C.bind_same (positional_same hargs) fun _ => C.pure_same _

end Comparison

end SeriesAlgebra
