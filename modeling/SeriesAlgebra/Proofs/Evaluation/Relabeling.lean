import SeriesAlgebra.Proofs.Formula.Relabeling.References

/-!
# Evaluating formulas with other names

The names of series do not count in an evaluation, apart from what the resolver makes of
them. So a formula and the same formula with other names compare
(`Comparison.holds_relabeled`), if the answers to their leaves and to their constant
calls do.
-/

namespace SeriesAlgebra

open Evaluation Value Series

variable {σ τ ι : Type}

namespace Tree

theorem checked_leafOf {items : List Tree} {name : String} (h : leafName? items = some name)
    (other : String) : checked (list (leafOf other items)) = checked (list items) := by
  conv_rhs => rw [leaf_eq h]
  have hargs (n : String) (rest : List Tree) :
      (CallArgs.ofList seriesOperator (str n :: rest)).map (fun _ => ()) =
        (CallArgs.ofList seriesOperator rest).map fun _ => () := by
    cases rest with
    | nil => rfl
    | cons b rest =>
      change ((CallArgs.ofList seriesOperator (b :: rest)).map _).map _ = _
      cases CallArgs.ofList seriesOperator (b :: rest) <;> rfl
  have hchecked (n : String) (rest : List Tree) :
      checked (list (symbol seriesOperator :: str n :: rest)) =
        ((CallArgs.ofList seriesOperator (str n :: rest)).map fun _ => ()).mapError .tree := by
    unfold checked
    change _ = ((list (symbol seriesOperator :: str n :: rest)).callArgs.map _).mapError _
    cases (list (symbol seriesOperator :: str n :: rest)).callArgs <;> rfl
  rw [leafOf, hchecked, hchecked, hargs, hargs]

/-- A leaf of another name sets the same options. -/
theorem leafOptions_leafOf {items : List Tree} {name : String} (h : leafName? items = some name)
    (other : String) : leafOptions (leafOf other items) = leafOptions items := by
  have hkeywords (n : String) (rest : List Tree) :
      scalarKeywords (str n :: rest) = scalarKeywords rest := by
    rw [scalarKeywords, evaluateKeywords_positional silent rfl]
    rfl
  have htail : scalarKeywords (leafOf other items).tail = scalarKeywords items.tail := by
    conv_rhs => rw [leaf_eq h]
    rw [leafOf, List.tail_cons, List.tail_cons, hkeywords, hkeywords]
  rw [leafOptions, leafOptions, checked_leafOf h, htail]

end Tree

namespace Comparison

open SeriesAlgebra.Tree

variable (C : Comparison σ τ ι) {A : Resolver σ} {B : ι → Resolver τ}

theorem mapM {α α' β β' : Type} {R : α → β → Prop} {S : α' → β' → Prop} {F : α → Reading σ α'}
    {G : β → Reading τ β'} {as : List α} {bs : List β} (h : List.Forall₂ R as bs)
    (hFG : ∀ a b, R a b → C.Holds S (F a) fun _ => G b) :
    C.Holds (List.Forall₂ S) (as.mapM F) fun _ => bs.mapM G := by
  induction h with
  | nil => exact C.pure .nil
  | cons hab _ ih =>
    simp only [List.mapM_cons]
    exact C.bind (hFG _ _ hab) fun a b hab' => C.bind ih fun as bs hall => C.pure (.cons hab' hall)

/-- The arguments of a call that are scalars are the same for all readers. -/
theorem holds_evaluateArgs {items : List Tree} (hscalar : ∀ t ∈ items.tail, t.IsScalar) (q : Query) :
    C.Holds Eq (evaluateArgs .builtin A (list items) q) fun i =>
      evaluateArgs .builtin (B i) (list items) q := by
  simp only [evaluateArgs_scalar _ hscalar]
  exact C.settle (Yields.refl _)

/-- A constant call that no resolver answers has one value. -/
theorem holds_constant_eq {items : List Tree} (hitems : Calls items .constant)
    (hscalar : ∀ t ∈ items.tail, t.IsScalar) (hA : A.autotrophic = Resolver.noAutotrophic)
    (hB : ∀ i, (B i).autotrophic = Resolver.noAutotrophic) (q : Query) :
    C.Holds Eq (evaluate .builtin A (list items) q) fun i =>
      evaluate .builtin (B i) (list items) q := by
  simp only [evaluate_constant _ hitems hscalar, hA, hB, Resolver.noAutotrophic]
  refine C.bind (C.pure (R := fun v w => v = none ∧ w = none) ⟨rfl, rfl⟩) fun v w hvw => ?_
  obtain ⟨rfl, rfl⟩ := hvw
  exact C.settle (Yields.refl _)

/-- Constant calls compare, if the answers of the resolvers do. -/
theorem holds_answered {items : List Tree} (hitems : Calls items .constant)
    (hscalar : ∀ t ∈ items.tail, t.IsScalar) {q : Query}
    (h : C.Holds (Option.Rel (Related Similar)) (A.autotrophic (list items) q) fun i =>
      (B i).autotrophic (list items) q) :
    C.Holds (Related Similar) (evaluate .builtin A (list items) q) fun i =>
      evaluate .builtin (B i) (list items) q := by
  simp only [evaluate_constant _ hitems hscalar]
  refine C.bind h fun v w hvw => ?_
  cases hvw with
  | some hvw => exact C.pure hvw
  | none =>
    refine C.settle fun v hv => ⟨v, hv, ?_⟩
    obtain ⟨c, -, hv⟩ := Result.bind_ok hv
    obtain ⟨s, -, hv⟩ := Result.bind_ok hv
    obtain rfl := Except.ok.inj hv
    exact .series (Series.Similar.refl s)

/-- **A formula and the same with other names compare**, if their leaves do. -/
theorem holds_relabeled {f : String → String} {t u : Tree} (ht : t.Everywhere IsFormulaNode)
    (htu : Relabels f t u)
    (hseries : ∀ name q, t.HasLeaf name →
      C.Holds Similar (A.series name q) fun i => (B i).series (f name) q)
    (hcalls : ∀ items q, list items ∈ t.nodes → Calls items .constant →
      C.Holds (Option.Rel (Related Similar)) (A.autotrophic (list items) q) fun i =>
        (B i).autotrophic (list items) q) (q : Query) :
    C.Holds (Related Similar) (evaluate .builtin A t q) fun i => evaluate .builtin (B i) u q := by
  let L (items : List Tree) (v : Tree) : Prop := list items ∈ t.nodes ∧ IsImage (relabeled f) items v
  have hL : Corresponds L Stands t u :=
    corresponds_mapLeaves ht htu (fun _ _ _ hv => (Except.ok.inj hv) ▸ rfl)
      fun items v hmem himage => ⟨hmem, himage⟩
  refine (Compares.similar (L := L) fun {items v q} hv => ?_).evaluate hL q q rfl
  obtain ⟨hmem, himage⟩ := hv
  cases himage with
  | named hnamed hv =>
    rename_i name
    obtain rfl := Except.ok.inj hv
    have hscalar : ∀ a ∈ (leafOf (f name) items).tail, a.IsScalar := by
      intro a ha
      rcases List.mem_cons.1 ha with rfl | ha
      · exact everywhere_atom.2 trivial
      · refine hnamed.scalar a ?_
        rw [leaf_eq hnamed.name]
        exact List.mem_cons_of_mem _ ha
    exact C.holds_series hnamed.calls hnamed.scalar hnamed.name (calls_leafOf _ items) hscalar
      (leafName?_leafOf _ items) (leafOptions_leafOf hnamed.name _).symm
      (C.mono (hseries name q (hasLeaf_of_mem_nodes ht hmem hnamed.name))
        fun s s' hs o _ => .series (hs.withOptions o))
  | nameless h hname others => exact C.holds_nameless h hname _
  | constant h hscalar => exact C.holds_answered h hscalar (hcalls items q hmem h)

end Comparison

end SeriesAlgebra
