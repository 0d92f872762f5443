import SeriesAlgebra.Proofs.Evaluation.Values

/-!
# Comparing formulas by their leaves

The formulas of an engine are put together from series leaves and constant calls by
operators that are applied. So what has to be shown of two evaluations is what happens
at the leaves: a series leaf compares if the answers of the resolvers do
(`Comparison.holds_series`), a constant call if neither resolver answers it
(`Comparison.holds_constant`), and then the formulas compare up to whatever relation of
series operators keep (`Compares.kept`).
-/

namespace SeriesAlgebra

open Evaluation Value Series

variable {σ τ ι : Type} {L : List Tree → Tree → Prop}

namespace Tree

/-- Whether a call is a leaf of the formulas of an engine. -/
def IsLeaf (items : List Tree) : Prop := Calls items .series ∨ Calls items .constant

/-- What may stand in a formula that gives a series. -/
def Stands : Tree → Prop
  | atom _ => True
  | list items => ∀ b, Calls items b → b ≠ .groupAdd

theorem stands_of_calls {items : List Tree} {b : Builtin} (hb : Calls items b)
    (h : b ≠ .groupAdd) : Stands (list items) := fun _ hb' => hb.unique hb' ▸ h

theorem IsFormulaNode.stands {t : Tree} (h : IsFormulaNode t) : Stands t := by
  cases t with
  | atom l => trivial
  | list items =>
    obtain ⟨b, hb, -, hgroupAdd, -⟩ := h
    exact stands_of_calls hb hgroupAdd

/-- A formula corresponds to itself if its leaves do. -/
theorem corresponds_self {N : Tree → Prop} {t : Tree} (ht : t.Everywhere IsFormulaNode)
    (hN : t.Everywhere N) (hL : ∀ items, list items ∈ t.nodes → IsLeaf items → (∀ a ∈ items.tail, a.IsScalar) →
      L items (list items)) : Corresponds L N t t := by
  induction t using inductionOn with
  | atom l => exact .atom l (everywhere_atom.1 hN)
  | list items ih =>
    obtain ⟨⟨b, hb, hgroup, -, hscalar, -⟩, hitems⟩ := everywhere_list.1 ht
    obtain ⟨hself', hNitems⟩ := everywhere_list.1 hN
    have hself : list items ∈ (list items).nodes := self_mem_nodes _
    by_cases hleaf : b = .series ∨ b = .constant
    · refine .leaf (hL items hself ?_ (hscalar (hleaf.imp_right Or.inl))) rfl
      rcases hleaf with rfl | rfl
      · exact Or.inl hb
      · exact Or.inr hb
    · have happlied : isApplied b = true := by
        cases b <;> first | rfl | exact absurd rfl hgroup | exact absurd (by simp) hleaf
      refine .call hb happlied hself'
        (List.forall₂_same.2 fun a ha => ih a ha (hitems a ha) (hNitems a ha) ?_)
      intro others hothers
      exact hL others (mem_nodes_list.2 (Or.inr ⟨a, ha, hothers⟩))

end Tree

namespace Comparison

open SeriesAlgebra.Tree

variable (C : Comparison σ τ ι) {A : Resolver σ} {B : ι → Resolver τ} {items others : List Tree}
  {q q' : Query}

/-- Series leaves with the same options compare, if the answers of the resolvers do. -/
theorem holds_series {R : Value → Value → Prop} {name name' : String}
    (hitems : Calls items .series) (hscalar : ∀ t ∈ items.tail, t.IsScalar)
    (hname : leafName? items = some name) (hothers : Calls others .series)
    (hscalar' : ∀ t ∈ others.tail, t.IsScalar) (hname' : leafName? others = some name')
    (hoptions : leafOptions items = leafOptions others)
    (h : C.Holds (fun s t => ∀ o, leafOptions items = .ok o →
      R (.series (s.withOptions o)) (.series (t.withOptions o)))
      (A.series name q) fun i => (B i).series name' q') :
    C.Holds R (evaluate .builtin A (list items) q) fun i =>
      evaluate .builtin (B i) (list others) q' := by
  rw [evaluate_series A hitems hscalar hname]
  simp only [evaluate_series _ hothers hscalar' hname', ← hoptions]
  refine C.bind (C.settle (R := fun o o' => leafOptions items = .ok o ∧ o' = o)
    fun o ho => ⟨o, ho, ho, rfl⟩) fun o o' ho => ?_
  obtain ⟨ho, rfl⟩ := ho
  exact C.bind h fun s t hst => C.pure (hst o' ho)

/-- A leaf without a name compares with anything. -/
theorem holds_nameless {R : Value → Value → Prop} (hitems : Calls items .series)
    (hname : leafName? items = none) (y : ι → Reading τ Value) :
    C.Holds R (evaluate .builtin A (list items) q) y := by
  rw [evaluate_nameless A hitems hname]
  exact C.throw _ y

/-- A constant call that no resolver answers is the same for all of them. -/
theorem holds_constant (hitems : Calls items .constant) (hscalar : ∀ t ∈ items.tail, t.IsScalar)
    (hA : A.autotrophic = Resolver.noAutotrophic)
    (hB : ∀ i, (B i).autotrophic = Resolver.noAutotrophic) :
    C.Holds (Related Similar) (evaluate .builtin A (list items) q) fun i =>
      evaluate .builtin (B i) (list items) q := by
  simp only [evaluate_constant _ hitems hscalar, hA, hB, Resolver.noAutotrophic]
  refine C.bind (C.pure (R := fun v w => v = none ∧ w = none) ⟨rfl, rfl⟩) fun v w hvw => ?_
  obtain ⟨rfl, rfl⟩ := hvw
  refine C.settle fun v hv => ⟨v, hv, ?_⟩
  obtain ⟨c, -, hv⟩ := Result.bind_ok hv
  obtain ⟨s, -, hv⟩ := Result.bind_ok hv
  obtain rfl := Except.ok.inj hv
  exact .series (Series.Similar.refl s)

end Comparison

/-- **Formulas compare up to a relation that operators keep**, if their leaves do. -/
theorem Compares.kept {S : Series → Series → Prop} (hS : KeptByOperators S) {C : Comparison σ τ ι}
    {A : Resolver σ} {B : ι → Resolver τ}
    (hleaf : ∀ {items : List Tree} {u : Tree} {q : Query}, L items u →
      C.Holds (Related S) (Evaluation.evaluate .builtin A (.list items) q) fun i =>
        Evaluation.evaluate .builtin (B i) u q) :
    Compares C A B (Related S) Eq L Tree.Stands where
  literal _ := related_ofLiteral S _
  leaf hL hq := hq ▸ hleaf hL
  childQuery {b _ _ _ q _} _ _ _ hm hq := by
    subst hq
    rw [childQuery_congr hm]
    exact C.settle (Yields.refl _)
  apply {b _ _ _ q _} happlied hb hN _ hargs hq := by
    subst hq
    exact C.settle (Builtin.yields_apply hS happlied (hN b hb) hargs q)

/-- Formulas compare up to the names of series, if their leaves do. -/
theorem Compares.similar {C : Comparison σ τ ι} {A : Resolver σ} {B : ι → Resolver τ}
    (hleaf : ∀ {items : List Tree} {u : Tree} {q : Query}, L items u →
      C.Holds (Related Similar) (Evaluation.evaluate .builtin A (.list items) q) fun i =>
        Evaluation.evaluate .builtin (B i) u q) :
    Compares C A B (Related Similar) Eq L Tree.Stands := .kept keptByOperators_similar hleaf

/-- Formulas are read alike by readers that read their series alike. -/
theorem Comparison.holds_evaluate (C : Comparison σ τ ι) {A : Resolver σ} {B : ι → Resolver τ}
    (hA : A.autotrophic = Resolver.noAutotrophic)
    (hB : ∀ i, (B i).autotrophic = Resolver.noAutotrophic)
    (h : ∀ name q, C.Holds Similar (A.series name q) fun i => (B i).series name q) {t : Tree}
    (ht : t.Everywhere Tree.IsFormulaNode) (q : Query) :
    C.Holds (Related Similar) (Evaluation.evaluate .builtin A t q) fun i => Evaluation.evaluate .builtin (B i) t q := by
  let L (items : List Tree) (u : Tree) : Prop :=
    u = .list items ∧ Tree.IsLeaf items ∧ ∀ a ∈ items.tail, a.IsScalar
  have hL : t.Corresponds L Tree.Stands t :=
    Tree.corresponds_self ht (ht.mono fun _ h => h.stands) fun items _ hleaf hscalar => ⟨rfl, hleaf, hscalar⟩
  refine (Compares.similar (L := L) fun {items u q} hu => ?_).evaluate hL q q rfl
  obtain ⟨rfl, hleaf, hscalar⟩ := hu
  rcases hleaf with hseries | hconstant
  · cases hname : Tree.leafName? items with
    | none => exact C.holds_nameless hseries hname _
    | some name =>
      exact C.holds_series hseries hscalar hname hseries hscalar hname rfl
        (C.mono (h name q) fun s s' hs o _ => .series (hs.withOptions o))
  · exact C.holds_constant hconstant hscalar hA hB

end SeriesAlgebra
