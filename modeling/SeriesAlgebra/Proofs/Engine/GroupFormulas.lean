import SeriesAlgebra.Proofs.Engine.Reachable
import SeriesAlgebra.Proofs.Evaluation.Asked
import SeriesAlgebra.Proofs.Formula.LeafNames

/-!
# What group formulas ask for

A group formula may hold tables, so it need not have the shape of a formula that gives a
series. But its operators are built in, and only scalars are written in its series leaves
(`Tree.IsTableNode`), and it keeps this shape when it is written and read again and when a
series gets another name (`Engine.Reachable.isTableFormula`). So all that its evaluation
asks for are series that it refers to and groups that it names (`Tree.failsOnly_groupFormula`).
-/

namespace SeriesAlgebra

open Evaluation Reading

namespace Tree

/-! ### Shape -/

/-- Whether a node may stand in a formula that gives a table. -/
def IsTableNode : Tree → Prop
  | atom _ => True
  | list items => ∃ b, Calls items b ∧ (b = .series → ∀ a ∈ items.tail, a.IsScalar)

/-- The arguments of a series leaf that has a type are scalars, if all operators are known. -/
theorem isScalar_of_seriesArg {items : List Tree} (hknown : (list items).Everywhere IsKnownNode)
    (hb : Calls items .series) {type : TypeTag} (h : Typing.infer .builtin (list items) = .ok type)
    {a : Tree} (ha : a ∈ items.tail) : a.IsScalar := by
  obtain ⟨told, types, htold, hargs, -⟩ := Typing.argsAdmitted_of_infer hb h
  have hadmitted {u : TypeTag} (hu : Typing.infer .builtin a = .ok u)
      (haccepts : TypeTag.anyAccepts (Typing.admitted Builtin.series.signature) u = true) :
      a.IsScalar := by
    have hfits := fitsType_of_infer (hknown.item (List.mem_of_mem_tail ha)) hu
    exact hfits.scalar
      (Typing.isScalarType_of_admitted .series u (Or.inl rfl) hfits.ne_any haccepts)
  rcases (CallArgs.tells_of_callArgs htold).cases ha with hkeyword | hpositional | ⟨key, hkey⟩
  · obtain ⟨l, rfl⟩ := keyword_isAtom hkeyword
    exact everywhere_atom.2 trivial
  · obtain ⟨u, hmem, hu⟩ := Result.exists_of_mem_left hargs.inferred hpositional
    obtain ⟨position, hposition⟩ := List.mem_iff_getElem?.1 hmem
    exact hadmitted hu (Typing.anyAccepts_of_subset (fun _ => Typing.mem_admitted_of_expectedAt)
      (hargs.positional position u hposition))
  · obtain ⟨expected, u, hexpected, hu, haccepts⟩ := hargs.keywords key a hkey
    exact hadmitted hu (Typing.anyAccepts_of_subset
      (fun _ => Typing.mem_admitted_of_keyword? hexpected) haccepts)

/-- **A formula that has a type has this shape**, if all its operators are known. -/
theorem isTableNode_of_infer {t : Tree} (hknown : t.Everywhere IsKnownNode) {type : TypeTag}
    (h : Typing.infer .builtin t = .ok type) : t.Everywhere IsTableNode := by
  intro u hu
  cases u with
  | atom l => trivial
  | list items =>
    obtain ⟨b, hb⟩ := hknown _ hu
    obtain ⟨type, htype⟩ := Typing.exists_infer_of_node hknown h hu
    refine ⟨b, hb, ?_⟩
    rintro rfl a ha
    exact isScalar_of_seriesArg (hknown.node hu) hb htype ha

/-- What is alike has the same shape. -/
theorem Alike.everywhere_isTableNode {t u : Tree} (h : Alike t u) (ht : t.Everywhere IsTableNode) :
    u.Everywhere IsTableNode := by
  induction t using inductionOn generalizing u with
  | atom l =>
    cases h
    exact everywhere_atom.2 trivial
  | list items ih =>
    cases h with
    | @list _ others hitems =>
      obtain ⟨⟨b, hb, hscalar⟩, hall⟩ := everywhere_list.1 ht
      refine everywhere_list.2 ⟨⟨b, headSymbol?_of_alike hitems hb, fun hseries a ha => ?_⟩,
        fun v hv => ?_⟩
      · obtain ⟨s, hs, hsa⟩ := exists_alike (forall₂_tail hitems) ha
        exact hsa.isScalar (hscalar hseries s hs)
      · obtain ⟨s, hs, hsv⟩ := exists_alike hitems hv
        exact ih s hs hsv (hall s hs)

/-- **What is kept as a group formula**: it is read back as it is, and has the shape of one. -/
structure IsTableFormula (t : Tree) : Prop where
  canonical : t.canonical = t
  nodes : t.Everywhere IsTableNode

theorem canBeKept_isTableFormula : CanBeKept IsTableFormula where
  canonical h := h.canonical
  renameSeries h old new := ⟨canonical_renameSeries h.canonical old new,
    (alike_renameSeries old new _).everywhere_isTableNode h.nodes⟩

/-! ### What is asked for -/

/-- What such a formula may ask for is referred to. -/
theorem mem_references_of_isTableNode {t : Tree} {name : String} (ht : t.Everywhere IsTableNode)
    (h : t.MayAsk .builtin name) : name ∈ t.references .builtin := by
  refine mem_references_of_mayAsk_of (S := Everywhere IsTableNode) (fun items b _ hitems a ha =>
    hitems.item (List.mem_of_mem_tail ha)) (fun items other hleaf hitems => ?_) h ht
  obtain ⟨b, hb, hscalar⟩ := hitems.self
  exact hscalar (hb.unique (calls_of_leafName? hleaf))

/-- **A group formula fails with what the series fail with that it refers to and the groups that it
names**, or with what a call of it raises. -/
theorem failsOnly_groupFormula {σ : Type} {P : EngineError → Prop} {A : Resolver σ} {t : Tree}
    (ht : t.Everywhere IsTableNode) (hA : A.autotrophic = Resolver.noAutotrophic)
    (hraised : ∀ u e, Raises .builtin u e → P e)
    (hseries : ∀ name ∈ t.references .builtin, ∀ q, FailsOnly P (A.series name q))
    (hgroup : ∀ name ∈ t.leafNames groupOperator, ∀ q, FailsOnly P (A.group name q)) (q : Query) :
    FailsOnly P (evaluate .builtin A t q) := by
  have happlies : (Rule.failing σ P).Applies .builtin
      (fun u => u ∈ t.nodes ∧ ∀ name, u.MayAsk .builtin name → t.MayAsk .builtin name) A A := by
    refine ⟨?_, fun _ he => hraised _ _ he, ?_, ?_, fun call q => ?_⟩
    · rintro items op ⟨hitems, hmay⟩ hop a ha
      refine ⟨nodes_trans ?_ hitems, fun name hname => hmay name (.arg hop ha hname)⟩
      exact mem_nodes_list.2 (Or.inr ⟨a, List.mem_of_mem_tail ha, a.self_mem_nodes⟩)
    · rintro call name ⟨-, hmay⟩ hop hname
      exact hseries name (mem_references_of_isTableNode ht (hmay name (.leaf hop hname)))
    · rintro call name ⟨hcall, -⟩ - hname
      exact hgroup name (mem_leafNames.2 ⟨call, hcall, hname⟩)
    · rw [hA]
      exact failsOnly_pure none
  exact happlies.evaluate ⟨t.self_mem_nodes, fun _ h => h⟩ q

end Tree

namespace Engine

/-! ### Group formulas of an engine -/

variable {e : Engine}

/-- What passes the checks has this shape. -/
theorem isTableFormula_of_validate (hregistry : e.registry = .builtin) {name text : String}
    {t : Tree} (ht : Tree.parse text = .ok t) {expected : TypeTag} {options : RegisterOptions}
    {aware : Option Bool} (h : (e.validate name t expected options).answer = .ok aware) :
    t.canonical.IsTableFormula := by
  obtain ⟨hoperators, ⟨type, htype⟩, -⟩ := checks_of_validate h
  rw [hregistry] at hoperators htype
  obtain ⟨actual, hactual, -⟩ := Result.bind_ok htype
  have hknown := Tree.isKnown_of_check (Tree.isReadable_of_parse ht) hoperators
  exact ⟨Tree.canonical_canonical t,
    (Tree.alike_canonical t).everywhere_isTableNode (Tree.isTableNode_of_infer hknown hactual)⟩

/-- **Group formulas keep their shape.** -/
theorem Reachable.isTableFormula (h : e.Reachable) :
    AllKept Tree.IsTableFormula e.groupFormulas := by
  induction h with
  | create _ config he =>
    obtain ⟨c, -, he⟩ := Result.bind_ok he
    obtain rfl := Except.ok.inj he
    exact areKept_empty
  | @perform e h c ih =>
    rcases e.ends_perform c with ⟨records, cause, heq, -⟩ | ⟨e', records, heq, heffect, -⟩
    · rw [heq]
      exact ih
    · rw [heq]
      have hkept : AllKept Tree.IsTableFormula e'.groupFormulas :=
        ih.effect_groups Tree.canBeKept_isTableFormula (fun ht hanswer =>
          isTableFormula_of_validate h.consistent.registry ht hanswer) heffect
      exact hkept

end Engine

end SeriesAlgebra
