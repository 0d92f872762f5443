import SeriesAlgebra.Proofs.Evaluation.Calls

/-!
# Evaluating at a revision date

An evaluation asks its resolver for windows of its own, but for no revision date other
than the one it was asked for (`Operator.revision_childQuery`). So if two resolvers give the
same answers at a revision date (`Resolver.AgreeAt`), then a formula has the same value
there, or the same error (`Resolver.AgreeAt.evaluate`), whatever its operators are.
-/

namespace SeriesAlgebra

open Evaluation

variable {σ : Type} {revision : Option InsertionDate} {A B : Resolver σ}

/-- What an operator asks its arguments for is in effect at the same date. -/
theorem Builtin.revision_childQuery {b : Builtin} {keywords : OrderedMap String Value} {q q' : Query}
    (hq' : b.childQuery keywords q = .ok q') : q'.revision = q.revision := by
  cases b with
  | slice =>
    obtain ⟨w, -, hq'⟩ := Result.bind_ok hq'
    obtain rfl := Except.ok.inj hq'
    rfl
  | _ =>
    obtain rfl := Except.ok.inj hq'
    rfl

theorem childQuery_bind_congr {β : Type} (op : Operator) (keywords : OrderedMap String Value)
    (window : Window) {f g : Query → Reading σ β}
    (h : ∀ window', f ⟨revision, window'⟩ = g ⟨revision, window'⟩) :
    childQuery op keywords ⟨revision, window⟩ >>= f =
      childQuery op keywords ⟨revision, window⟩ >>= g := by
  cases op with
  | extension e => exact h window
  | builtin b =>
    show settle (b.childQuery keywords ⟨revision, window⟩) >>= f = settle _ >>= g
    cases hquery : b.childQuery keywords ⟨revision, window⟩ with
    | error cause => rfl
    | ok q =>
      obtain ⟨revision', window'⟩ := q
      obtain rfl : revision' = revision := Builtin.revision_childQuery hquery
      exact h window'

/-- One of two readings goes on alike if what follows is alike. -/
theorem ite_bind_congr {α β : Type} {c : Prop} [Decidable c] {x y : Reading σ α}
    {f g : α → Reading σ β} (h : ∀ a, f a = g a) :
    (if c then x >>= f else y >>= f) = if c then x >>= g else y >>= g := by
  rw [show f = g from funext h]

/-- **Whether two resolvers give the same answers at a revision date.** -/
structure Resolver.AgreeAt (revision : Option InsertionDate) (A B : Resolver σ) : Prop where
  series : ∀ name window, A.series name ⟨revision, window⟩ = B.series name ⟨revision, window⟩
  group : ∀ name window, A.group name ⟨revision, window⟩ = B.group name ⟨revision, window⟩
  autotrophic : ∀ call window,
    A.autotrophic call ⟨revision, window⟩ = B.autotrophic call ⟨revision, window⟩

namespace Resolver.AgreeAt

variable {registry : Registry} {args : List Tree}

/-- Whether a formula is evaluated alike in all windows. -/
def SameValue (registry : Registry) (A B : Resolver σ) (revision : Option InsertionDate)
    (t : Tree) : Prop :=
  ∀ window, Evaluation.evaluate registry A t ⟨revision, window⟩ =
    Evaluation.evaluate registry B t ⟨revision, window⟩

theorem keywords (h : ∀ a ∈ args, SameValue registry A B revision a) (window : Window) :
    evaluateKeywords registry A args ⟨revision, window⟩ =
      evaluateKeywords registry B args ⟨revision, window⟩ := by
  induction args using args_induct with
  | nil => simp only [evaluateKeywords]
  | dangling a name ha => simp only [evaluateKeywords]
  | keyword a b rest name ha ih =>
    have hb := h b (List.mem_cons_of_mem _ List.mem_cons_self) window
    have hrest := ih fun c hc => h c (List.mem_cons_of_mem _ (List.mem_cons_of_mem _ hc))
    simp only [evaluateKeywords, ha, hb, hrest]
  | positional a rest ha ih =>
    have hrest := ih fun b hb => h b (List.mem_cons_of_mem _ hb)
    cases rest with
    | nil => simp only [evaluateKeywords]
    | cons b rest => simpa only [evaluateKeywords, ha] using hrest

theorem positional (h : ∀ a ∈ args, SameValue registry A B revision a) (window : Window) :
    evaluatePositional registry A args ⟨revision, window⟩ =
      evaluatePositional registry B args ⟨revision, window⟩ := by
  induction args using args_induct with
  | nil => simp only [evaluatePositional]
  | dangling a name ha => simp only [evaluatePositional, ha]
  | keyword a b rest name ha ih =>
    have hrest := ih fun c hc => h c (List.mem_cons_of_mem _ (List.mem_cons_of_mem _ hc))
    simpa only [evaluatePositional, ha] using hrest
  | positional a rest ha ih =>
    have hself := h a List.mem_cons_self window
    have hrest := ih fun b hb => h b (List.mem_cons_of_mem _ hb)
    cases rest with
    | nil => simp only [evaluatePositional, ha, hself]
    | cons b rest => simp only [evaluatePositional, ha, hself, hrest]

/-- **A formula is evaluated alike at a revision date** by resolvers that give the same answers
there. -/
theorem evaluate (h : AgreeAt revision A B) (registry : Registry) (t : Tree) :
    SameValue registry A B revision t := by
  induction t using Tree.inductionOn with
  | atom l =>
    intro window
    simp only [Evaluation.evaluate]
  | list items ih =>
    intro window
    cases items with
    | nil => simp only [Evaluation.evaluate]
    | cons head args =>
      have hargs (a : Tree) (ha : a ∈ args) : SameValue registry A B revision a :=
        ih a (List.mem_cons_of_mem _ ha)
      simp only [Evaluation.evaluate]
      cases registry.operatorOf? (.list (head :: args)) with
      | none => rfl
      | some op =>
        dsimp only
        rw [h.autotrophic]
        refine ite_bind_congr fun known => ?_
        -- What the resolver answers itself comes first, then its series and groups, then the
        -- operators that are applied.
        split
        · rfl
        · split
          · rfl
          · rw [keywords hargs]
            simp only [readSeries, h.series]
        · simp only [h.group]
        · rw [keywords hargs]
          refine bind_congr fun _ => bind_congr fun known => ?_
          refine childQuery_bind_congr op known window fun window' => ?_
          rw [positional hargs]

end Resolver.AgreeAt

end SeriesAlgebra
