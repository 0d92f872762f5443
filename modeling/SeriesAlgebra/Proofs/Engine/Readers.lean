import SeriesAlgebra.Engine.Reader
import SeriesAlgebra.Proofs.Evaluation.Resolvers

/-!
# Comparing readers

Readers of an engine enter formulas, group formulas and bound groups, and what they do inside
is evaluation again. So whatever the way to compare: if the readers that are entered compare
(`Comparison.Enters`), then so do series and groups that are read
(`Engine.holds_readSeries`, `Engine.holds_readGroup`).
-/

namespace SeriesAlgebra

open Evaluation

variable {σ τ ι : Type} {C : Comparison σ τ ι} {A : Resolver σ} {B : ι → Resolver τ}

/-- **Whether readers compare that are entered**: what is done in the one and in the others compares,
if it does for resolvers that compare. -/
def Comparison.Enters (C : Comparison σ τ ι) (enter : String → Except EngineError (Resolver σ))
    (enter' : ι → String → Except EngineError (Resolver τ)) : Prop :=
  ∀ (label : String) (α : Type) (f : Resolver σ → Reading σ α) (g : Resolver τ → Reading τ α),
    (∀ A B, C.Resolves A B → C.Holds Eq (f A) fun i => g (B i)) →
    C.Holds Eq (Evaluation.settle (enter label) >>= f) fun i =>
      Evaluation.settle (enter' i label) >>= g

/-- Readers that are entered compare, if wherever the one is entered, the others are. -/
theorem Comparison.enters_of_ok {enter : String → Except EngineError (Resolver σ)}
    {enter' : ι → String → Except EngineError (Resolver τ)}
    (h : ∀ label A, enter label = .ok A →
      ∃ B : ι → Resolver τ, (∀ i, enter' i label = .ok (B i)) ∧ C.Resolves A B) :
    C.Enters enter enter' := by
  intro label α f g hfg
  cases hlabel : enter label with
  | error cause => exact C.throw_same cause _
  | ok A =>
    obtain ⟨B, hB, hAB⟩ := h label A hlabel
    simp only [hB]
    exact hfg A B hAB

namespace Engine

variable {e : Engine}

theorem resolves_withBound (h : C.Resolves A B) (bound : OrderedMap String Series) :
    C.Resolves (withBound A bound) fun i => withBound (B i) bound where
  series name q := by
    unfold withBound
    dsimp only
    split
    · exact C.pure_same _
    · exact h.series name q
  group := h.group
  autotrophic _ _ := C.pure_same none

theorem holds_addScenarios (h : C.Resolves A B) (q : Query) (known : Scenarios)
    (row : BindingRow) : C.Holds Eq (addScenarios A q known row) fun i =>
      addScenarios (B i) q known row := by
  unfold addScenarios
  dsimp only
  split
  · exact C.pure_same _
  · exact C.bind_same (h.group _ _) fun _ => C.pure_same _

theorem holds_readCombination (h : C.Resolves A B) (binding : Binding) (t : Tree)
    (rows : List BindingRow) (known : Scenarios) (q : Query) (choice : Combination) :
    C.Holds Eq (e.readCombination A binding t rows known q choice) fun i =>
      e.readCombination (B i) binding t rows known q choice :=
  C.bind_same (C.settle_same _) fun _ => C.bind_same ((resolves_withBound h _).evaluate t q)
    fun _ => C.bind_same (C.settle_same _) fun _ => C.pure_same _

theorem holds_readBoundGroup (h : C.Resolves A B) (binding : Binding) (q : Query) :
    C.Holds Eq (e.readBoundGroup A binding q) fun i => e.readBoundGroup (B i) binding q := by
  refine C.bind_same (C.settle_same _) fun formula => ?_
  split
  · exact C.throw_same _ _
  · refine C.bind_same (C.settle_same _) fun t => C.bind_same
      (C.foldlM_same (holds_addScenarios h q) _ _) fun known => ?_
    split
    · exact C.throw_same _ _
    · exact C.bind_same (C.mapM_same fun choice _ => holds_readCombination h _ _ _ _ _ choice)
        fun _ => C.settle_same _

variable {enter : String → Except EngineError (Resolver σ)}
  {enter' : ι → String → Except EngineError (Resolver τ)}

/-- **Series that are read compare**, if the readers do that are entered for them. -/
theorem holds_readSeries (h : C.Enters enter enter') (name : String) (q : Query) :
    C.Holds Eq (e.readSeries enter name q) fun i => e.readSeries (enter' i) name q := by
  refine C.bind_same (C.settle_same _) fun formula => ?_
  split
  · exact C.settle_same _
  · refine h _ _ _ _ fun A B hAB => ?_
    exact C.bind_same (hAB.evaluate _ q) fun _ =>
      C.bind_same (C.settle_same _) fun _ => C.pure_same _

/-- **Groups that are read compare**, if the readers do that are entered for them. -/
theorem holds_readGroup (h : C.Enters enter enter') (name : String) (q : Query) :
    C.Holds Eq (e.readGroup enter name q) fun i => e.readGroup (enter' i) name q := by
  refine C.bind_same (C.settle_same _) fun formula => ?_
  split
  · refine h _ _ _ _ fun A B hAB => ?_
    exact C.bind_same (hAB.evaluate _ q) fun _ => C.settle_same _
  · split
    · exact h _ _ _ _ fun A B hAB => holds_readBoundGroup hAB _ q
    · split
      · exact C.pure_same _
      · exact C.throw_same _ _

end Engine

end SeriesAlgebra
