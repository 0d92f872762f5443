import SeriesAlgebra.Engine.Reader
import SeriesAlgebra.Proofs.Evaluation.Revisions
import SeriesAlgebra.Proofs.Store.Past

/-!
# Reading the past

If two engines differ at most in the versions that were inserted after a date and in their
ledgers (`Engine.SamePast`), then they are read alike at that date and before: series and
formulas (`Engine.SamePast.read`), groups, group formulas and bound groups
(`Engine.SamePast.readTable`). An answer is the same answer and an error the same error.

A reader asks the reader below it for nothing but the revision date that it was asked for,
so the readers of the two engines agree at the date on all levels
(`Engine.SamePast.readerBelow`), and so do the readers for bound series
(`Engine.agreeAt_withBound`).
-/

namespace SeriesAlgebra

open Evaluation

namespace Engine

variable {σ : Type} {e e' : Engine} {d date : InsertionDate}

/-- **Whether two engines have the same past**: their stores do, and but for their ledgers they are
the same otherwise. -/
structure SamePast (d : InsertionDate) (e e' : Engine) : Prop where
  config : e'.config = e.config
  registry : e'.registry = e.registry
  formulas : e'.formulas = e.formulas
  groupFormulas : e'.groupFormulas = e.groupFormulas
  bindings : e'.bindings = e.bindings
  sources : e'.sources = e.sources
  store : e.store.SamePast d e'.store

/-- Whether two ways to enter a formula lead to readers that agree at a date, or to one error. -/
inductive EnterAlike (date : InsertionDate) :
    Except EngineError (Resolver σ) → Except EngineError (Resolver σ) → Prop
  | error (cause : EngineError) : EnterAlike date (.error cause) (.error cause)
  | ok {A B : Resolver σ} (h : A.AgreeAt (some date) B) : EnterAlike date (.ok A) (.ok B)

/-- What is read of a formula is the same if it is with readers that agree. -/
theorem EnterAlike.bind {α : Type} {x y : Except EngineError (Resolver σ)} (h : EnterAlike date x y)
    {f g : Resolver σ → Reading σ α} (hfg : ∀ A B, A.AgreeAt (some date) B → f A = g B) :
    settle x >>= f = settle y >>= g := by
  cases h with
  | error cause => rfl
  | ok hAB =>
    rw [settle, settle, pure_bind, pure_bind]
    exact hfg _ _ hAB

namespace SamePast

/-! ### Formulas -/

theorem formulaTree? (h : SamePast d e e') : e'.formulaTree? = e.formulaTree? := by
  funext name
  unfold Engine.formulaTree?
  rw [h.formulas]

theorem groupTree? (h : SamePast d e e') : e'.groupTree? = e.groupTree? := by
  funext name
  unfold Engine.groupTree?
  rw [h.groupFormulas]

theorem expand (h : SamePast d e e') : e'.expand = e.expand := by
  funext stop t
  unfold Engine.expand
  rw [h.formulaTree?, h.config]

/-! ### Series -/

theorem readPrimary (h : SamePast d e e') (hdate : date ≤ d) (name : String) (window : Window) :
    e'.readPrimary name ⟨some date, window⟩ = e.readPrimary name ⟨some date, window⟩ := by
  unfold Engine.readPrimary sourceOf?
  rw [h.store.read? hdate, h.sources]

theorem readSeries (h : SamePast d e e') (hdate : date ≤ d)
    {enter enter' : String → Except EngineError (Resolver σ)}
    (henter : ∀ label, EnterAlike date (enter' label) (enter label)) (name : String)
    (window : Window) :
    e'.readSeries enter' name ⟨some date, window⟩ = e.readSeries enter name ⟨some date, window⟩ := by
  unfold Engine.readSeries
  rw [h.formulaTree?, h.registry]
  refine bind_congr fun t => ?_
  cases t with
  | none => rw [h.readPrimary hdate]
  | some t =>
    refine (henter name).bind fun A B hAB => ?_
    rw [hAB.evaluate]

end SamePast

/-! ### Bound groups -/

/-- Readers for bound series agree where the readers for the other series do. -/
theorem agreeAt_withBound {revision : Option InsertionDate} {A B : Resolver σ}
    (h : A.AgreeAt revision B) (bound : OrderedMap String Series) :
    (withBound A bound).AgreeAt revision (withBound B bound) where
  series name window := by
    unfold withBound
    dsimp only
    rw [h.series]
  group := h.group
  autotrophic _ _ := rfl

theorem addScenarios_congr {A B : Resolver σ} (h : A.AgreeAt (some date) B) (window : Window) :
    addScenarios A ⟨some date, window⟩ = addScenarios B ⟨some date, window⟩ := by
  funext known row
  unfold addScenarios
  rw [h.group]

namespace SamePast

theorem readCombination (h : SamePast d e e') {A B : Resolver σ} (hAB : A.AgreeAt (some date) B)
    (binding : Binding) (t : Tree) (rows : List BindingRow) (known : Scenarios) (window : Window) :
    e'.readCombination A binding t rows known ⟨some date, window⟩ =
      e.readCombination B binding t rows known ⟨some date, window⟩ := by
  funext choice
  unfold Engine.readCombination
  rw [h.registry]
  refine bind_congr fun bound => ?_
  rw [(agreeAt_withBound hAB _).evaluate]

/-- **A bound group is read alike**, over whatever scenarios its groups have at the date. -/
theorem readBoundGroup (h : SamePast d e e') {A B : Resolver σ} (hAB : A.AgreeAt (some date) B)
    (binding : Binding) (window : Window) :
    e'.readBoundGroup A binding ⟨some date, window⟩ =
      e.readBoundGroup B binding ⟨some date, window⟩ := by
  unfold Engine.readBoundGroup
  rw [h.formulaTree?, h.registry, h.expand, addScenarios_congr hAB]
  refine bind_congr fun t => ?_
  cases t with
  | none => rfl
  | some t =>
    -- The scenarios are those of the groups at the date, so the combinations are the same.
    refine bind_congr fun t => bind_congr fun known => ?_
    rw [h.readCombination hAB]

/-! ### Groups -/

theorem readGroup (h : SamePast d e e') (hdate : date ≤ d)
    {enter enter' : String → Except EngineError (Resolver σ)}
    (henter : ∀ label, EnterAlike date (enter' label) (enter label)) (name : String)
    (window : Window) :
    e'.readGroup enter' name ⟨some date, window⟩ = e.readGroup enter name ⟨some date, window⟩ := by
  unfold Engine.readGroup
  rw [h.groupTree?, h.registry, h.bindings, h.store.readGroup? hdate]
  refine bind_congr fun t => ?_
  cases t with
  | some t =>
    refine (henter (groupLabel name)).bind fun A B hAB => ?_
    rw [hAB.evaluate]
  | none =>
    cases e.bindings.find? name with
    | none => rfl
    | some binding =>
      exact (henter (groupLabel name)).bind fun A B hAB => h.readBoundGroup hAB binding window

/-! ### Readers -/

theorem readerEntering (h : SamePast d e e') (hdate : date ≤ d)
    {enter enter' : String → Except EngineError (Resolver Memo)}
    (henter : ∀ label, EnterAlike date (enter' label) (enter label)) :
    (e'.readerEntering enter').AgreeAt (some date) (e.readerEntering enter) where
  series name window := by
    show Memo.remember _ (e'.readSeries enter' name _) = Memo.remember _ (e.readSeries enter name _)
    rw [h.readSeries hdate henter]
  group := h.readGroup hdate henter
  autotrophic _ _ := rfl

/-- **Readers agree at a date of the past**, on every level and below every path. -/
theorem readerBelow (h : SamePast d e e') (hdate : date ≤ d) (levels : Nat) (path : List String) :
    (e'.readerBelow levels path).AgreeAt (some date) (e.readerBelow levels path) := by
  induction levels generalizing path with
  -- Whether a label can be entered depends on the path and on the limit only, not on what is
  -- stored: where one engine says that it cannot, so does the other.
  | zero =>
    refine h.readerEntering hdate fun label => ?_
    rw [h.config]
    split
    · exact .error _
    · exact .error _
  | succ levels ih =>
    refine h.readerEntering hdate fun label => ?_
    split
    · exact .error _
    · exact .ok (ih (path ++ [label]))

theorem reader (h : SamePast d e e') (hdate : date ≤ d) :
    e'.reader.AgreeAt (some date) e.reader := by
  unfold Engine.reader
  rw [h.config]
  exact h.readerBelow hdate _ []

/-! ### Reads -/

/-- **A series or formula is read alike at a date of the past.** -/
theorem read (h : SamePast d e e') (hdate : date ≤ d) (name : String) (window : Window) :
    e'.read name ⟨some date, window⟩ = e.read name ⟨some date, window⟩ := by
  unfold Engine.read sourceOf?
  rw [h.formulas, h.sources, (h.reader hdate).series, h.store.read? hdate]

/-- There are the same groups. -/
theorem containsGroup (h : SamePast d e e') (name : String) :
    e'.containsGroup name = e.containsGroup name := by
  unfold Engine.containsGroup groupTypeOf?
  rw [h.bindings, h.groupFormulas, h.store.containsGroup]

/-- **A group of any kind is read alike at a date of the past.** -/
theorem readTable (h : SamePast d e e') (hdate : date ≤ d) (name : String) (window : Window) :
    e'.readTable name ⟨some date, window⟩ = e.readTable name ⟨some date, window⟩ := by
  unfold Engine.readTable
  rw [h.containsGroup, (h.reader hdate).group]

end SamePast

end Engine

end SeriesAlgebra
