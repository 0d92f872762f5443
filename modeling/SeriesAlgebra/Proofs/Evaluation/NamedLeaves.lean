import SeriesAlgebra.Proofs.Evaluation.Asked
import SeriesAlgebra.Analysis.Awareness

/-!
# Leaves that have a name

A type check looks for the name of a series leaf among its positional arguments, and takes a symbol
for a text. Everything else looks right after the operator, and wants a string: the search for
references, the awareness of time zones, and evaluation. So there are leaves of accepted formulas
that have no name for the latter (`Tree.isNameless`), those where a symbol follows the operator.
They are not searched for, and a formula with such a leaf has no value.

All other leaves are found: their names are among the references of the formula, the awareness of
these is known, and evaluation never misses a name (`Tree.leaves_of_check`).
-/

namespace SeriesAlgebra

open Evaluation Reading SeriesAlgebra.Tree

variable {σ : Type}

namespace Tree

/-! ### Awareness of references -/

/-- The series whose awareness is told are those that a formula refers to. -/
theorem series_awarenessBelow {registry : Registry} {lookup : String → Option Bool} {t : Tree}
    (ht : t.Everywhere fun u => u.isHeadedNode = true) (path : List String) (forced : Option Bool) :
    (t.awarenessBelow registry lookup path forced).map ReferenceAwareness.series =
      t.references registry := by
  induction t using inductionOn generalizing path forced with
  | atom l => rw [awarenessBelow, references]; rfl
  | list items ih =>
    obtain ⟨hheaded, hitems⟩ := everywhere_list.1 ht
    have hall (path : List String) (forced : Option Bool) : ∀ others ⊆ items,
        (awarenessOfAll registry lookup path forced others).map ReferenceAwareness.series =
          referencesOfAll registry others := by
      intro others
      induction others with
      | nil => exact fun _ => rfl
      | cons a rest ihrest =>
        intro hsub
        have ha : a ∈ items := hsub List.mem_cons_self
        rw [awarenessOfAll, referencesOfAll, List.map_append, ih a ha (hitems a ha),
          ihrest fun b hb => hsub (List.mem_cons_of_mem _ hb)]
    cases items with
    | nil => rw [awarenessBelow, references]; rfl
    | cons head args =>
      obtain ⟨symbol, hsymbol⟩ := exists_headSymbol? hheaded
      have hop : (list (head :: args)).operator? = some symbol := hsymbol
      have hnamed : namedSeries? registry (list (head :: args)) =
          (registry.find? symbol).bind (Operator.namedSeries? args) := by
        rw [namedSeries?, Registry.operatorOf?, hop]
        rfl
      rw [awarenessBelow, references, hnamed, hop]
      dsimp only
      cases (registry.find? symbol).bind (Operator.namedSeries? args) with
      | some names =>
        dsimp only
        rw [namedAwareness, List.map_map]
        exact List.map_id'' (fun _ => rfl) names
      | none => exact hall _ _ args (List.subset_cons_self _ _)

/-! ### Leaves without a name -/

/-- Whether a node is a series leaf that has no name right after the operator. -/
def isNameless (t : Tree) : Bool := t.operator? == some seriesOperator && t.seriesName?.isNone

theorem isNameless_iff {items : List Tree} : (list items).isNameless = true ↔
    Calls items .series ∧ leafName? items = none := by
  rw [isNameless, Bool.and_eq_true, beq_iff_eq, Option.isNone_iff_eq_none]
  exact Iff.rfl

/-- **The leaf of an accepted formula that has no name** has a symbol in its place. -/
theorem exists_symbol_of_nameless {items : List Tree} (hb : Calls items .series)
    (hname : leafName? items = none) (hknown : (list items).Everywhere IsKnownNode) {type : TypeTag}
    (htype : Typing.infer .builtin (list items) = .ok type) :
    ∃ word rest, items = symbol seriesOperator :: symbol word :: rest := by
  obtain ⟨told, types, htold, hargs, -⟩ := Typing.argsAdmitted_of_infer hb htype
  have htells := CallArgs.tells_of_callArgs htold
  have hlength : told.positional.length = 1 := beq_iff_eq.1 hargs.arity
  obtain ⟨args, rfl⟩ := list_of_calls hb
  rw [List.tail_cons] at htells
  -- What follows the operator is a keyword, or else the one positional argument.
  have hfirst : ∃ l rest, args = atom l :: rest ∧ l.type = .str := by
    cases htells with
    | nil => cases hlength
    | @keyword a b rest name told ha _ =>
      obtain ⟨l, rfl⟩ := keyword_isAtom (t := a) (by rw [ha]; rfl)
      refine ⟨l, b :: rest, rfl, ?_⟩
      cases l <;> first | rfl | cases ha
    | @positional a rest told _ _ =>
      have hinferred := hargs.inferred
      generalize types = types at hinferred hargs
      cases hinferred with
      | @cons _ u _ types hu _ =>
        have haccepts := hargs.positional 0 u rfl
        have hitem : a.Everywhere IsKnownNode :=
          hknown.item (List.mem_cons_of_mem _ List.mem_cons_self)
        have hany := (fitsType_of_infer hitem hu).ne_any
        have hstr : u = .str := by
          cases u <;> first | rfl | exact absurd rfl hany | cases haccepts
        obtain ⟨l, rfl⟩ := exists_atom_of_str (hstr ▸ hu)
        rw [Typing.infer] at hu
        exact ⟨l, rest, rfl, (Except.ok.inj hu).trans hstr⟩
  obtain ⟨l, rest, rfl, htext⟩ := hfirst
  cases l with
  | symbol word => exact ⟨word, rest, rfl⟩
  | str name => cases hname
  | _ => cases htext

/-! ### Leaves of accepted formulas -/

/-- The leaves of a formula whose operators are known may be asked for. -/
theorem mayAsk_of_mem_nodes {t : Tree} (hknown : t.Everywhere IsKnownNode) {items : List Tree}
    (hitems : list items ∈ t.nodes) {name : String} (hname : leafName? items = some name) :
    t.MayAsk .builtin name := by
  induction t using inductionOn with
  | atom l => cases List.mem_singleton.1 hitems
  | list others ih =>
    obtain ⟨⟨b, hb⟩, hothers⟩ := everywhere_list.1 hknown
    rcases mem_nodes_list.1 hitems with heq | ⟨a, ha, hmem⟩
    · obtain rfl := list.inj heq
      exact .leaf (calls_of_leafName? hname).operatorOf? hname
    · refine .arg hb.operatorOf? ?_ (ih a ha (hothers a ha) hmem)
      obtain ⟨args, rfl⟩ := list_of_calls hb
      rcases List.mem_cons.1 ha with rfl | ha
      · cases List.mem_singleton.1 hmem
      · exact ha

end Tree

/-- The error of a series leaf without a name. -/
def EngineError.noSeriesName : EngineError := .invalidArgument Builtin.series.name .noSeriesName

/-- A call of a built-in operator misses the name of a series only if it is a leaf without one. -/
theorem Evaluation.isNameless_of_raises {call : Tree} (h : Raises .builtin call .noSeriesName) :
    call.isNameless = true := by
  have hcases := h.cases_builtin
  simp only [EngineError.noSeriesName, EngineError.isOperatorError, ArgumentFault.isNameless,
    reduceCtorEq, exists_false, false_or, EngineError.invalidArgument.injEq, and_false, true_and,
    Bool.not_true, Bool.false_eq_true] at hcases
  cases call with
  | atom l => cases hcases.1
  | list items =>
    obtain ⟨b, hb, hop⟩ := calls_of_operatorOf? hcases.1
    obtain rfl := Operator.builtin.inj hop
    exact isNameless_iff.2 ⟨hb, hcases.2⟩

namespace Evaluation

variable {A : Resolver σ} {t : Tree}

/-- A formula with a leaf without a name has no value. -/
theorem not_hasValue_of_nameless_node (hA : A.LeavesAutotrophic) {type : TypeTag}
    (htype : Typing.infer .builtin t = .ok type) {u : Tree} (hu : u ∈ t.nodes)
    (hnameless : u.isNameless = true) {q : Query} {v : Value} : ¬ HasValue A q t v := by
  intro h
  rcases value_of_node hA htype h hu with ⟨l, rfl⟩ | ⟨-, c, w, s, s', hw⟩
  · cases hnameless
  · cases u with
    | atom l => cases hnameless
    | list items =>
      obtain ⟨hb, hname⟩ := isNameless_iff.1 hnameless
      rw [evaluate_nameless A hb hname] at hw
      exact (gives_throw.1 hw).elim

end Evaluation

/-- **A series leaf of an accepted formula has its name right after the operator, or a symbol there.**
A leaf of the first kind is seen by the checks of references and of awareness. If all are of that
kind, evaluation misses no name, and if one is not, the formula has no value. -/
theorem Tree.leaves_of_check {expected type : TypeTag} {t : Tree}
    (hoperators : t.checkOperators .builtin = .ok ())
    (hcheck : Typing.check .builtin expected t = .ok type) :
    ((t.Everywhere fun u => u.isHeadedNode = true) → ∀ items, list items ∈ t.nodes →
      Calls items .series →
        (∃ name, leafName? items = some name ∧ name ∈ t.seriesReferences .builtin ∧
          ∀ lookup, ∃ r ∈ t.awareness .builtin lookup, r.series = name) ∨
        (list items).isNameless = true ∧
          ∃ word rest, items = symbol seriesOperator :: symbol word :: rest) ∧
    ((∀ u ∈ t.nodes, u.isNameless = false) → ∀ (σ : Type) (A : Resolver σ),
      A.FailsOnly (· ≠ .noSeriesName) → ∀ q s s',
        (evaluate .builtin A t q).run s ≠ (.error .noSeriesName, s')) ∧
    ((∃ u ∈ t.nodes, u.isNameless = true) → ∀ (σ : Type) (A : Resolver σ),
      A.LeavesAutotrophic → ∀ q s v s', (evaluate .builtin A t q).run s ≠ (.ok v, s')) := by
  obtain ⟨actual, htype, -⟩ := Result.bind_ok hcheck
  refine ⟨fun hheaded items hitems hb => ?_, fun hnamed σ A hA q s s' h => ?_, ?_⟩
  · have hknown := isKnown_of_headed hoperators t.self_mem_nodes hheaded
    cases hname : leafName? items with
    | some name =>
      have hleaves := leavesTyped_of_headed hoperators (leavesHeaded_of_everywhere hheaded)
      have hmem := mem_references_of_mayAsk (mayAsk_of_mem_nodes hknown hitems hname) htype hleaves
      refine Or.inl ⟨name, rfl, mem_sortedSet.2 hmem, fun lookup => ?_⟩
      rw [← series_awarenessBelow hheaded [] none] at hmem
      exact List.mem_map.1 hmem
    | none =>
      obtain ⟨u, hu⟩ := Typing.exists_infer_of_node hknown htype hitems
      exact Or.inr ⟨isNameless_iff.2 ⟨hb, hname⟩,
        exists_symbol_of_nameless hb hname (hknown.node hitems) hu⟩
  · refine hA.evaluate (fun u hu e he => ?_) q s _ s' h rfl
    rintro rfl
    have hnameless := isNameless_of_raises he
    rw [hnamed u hu] at hnameless
    cases hnameless
  · rintro ⟨u, hu, hnameless⟩ σ A hA q s v s' hv
    exact not_hasValue_of_nameless_node hA htype hu hnameless ⟨s, s', hv⟩

/-- A leaf whose name comes after a keyword. -/
def filledMissing : Tree :=
  .list [.symbol "series", .symbol "#:fill", .atom (.int 0), .str "missing"]

theorem failsOnly_answeringEmpty (P : EngineError → Prop) : answeringEmpty.FailsOnly P where
  series _ _ := failsOnly_pure _
  group _ _ := failsOnly_pure _
  autotrophic _ _ := failsOnly_pure _

theorem leaves_filledAndWeighted :
    (∀ items, list items ∈ filledAndWeighted.nodes → Calls items .series →
      (∃ name, leafName? items = some name ∧ name ∈ filledAndWeighted.seriesReferences .builtin ∧
        ∀ lookup, ∃ r ∈ filledAndWeighted.awareness .builtin lookup, r.series = name) ∨
      (list items).isNameless = true ∧
        ∃ word rest, items = symbol seriesOperator :: symbol word :: rest) ∧
    (∀ q s', (evaluate .builtin answeringEmpty filledAndWeighted q).run () ≠
      (.error .noSeriesName, s')) ∧
    ∀ q v s', (evaluate .builtin answeringEmpty filledMissing q).run () ≠ (.ok v, s') := by
  have hcheck : Typing.check .builtin .series filledAndWeighted = .ok .series :=
    Result.ok_of_toOption (by decide +kernel)
  have hmissing : Typing.check .builtin .series filledMissing = .ok .series :=
    Result.ok_of_toOption (by decide +kernel)
  have hheaded : ∀ u ∈ filledAndWeighted.nodes, u.isHeadedNode = true := by decide +kernel
  have hnamed : ∀ u ∈ filledAndWeighted.nodes, u.isNameless = false := by decide +kernel
  have hnameless : ∃ u ∈ filledMissing.nodes, u.isNameless = true := by decide +kernel
  exact ⟨(Tree.leaves_of_check rfl hcheck).1 hheaded,
    fun q => (Tree.leaves_of_check rfl hcheck).2.1 hnamed Unit answeringEmpty
      (failsOnly_answeringEmpty _) q (),
    fun q => (Tree.leaves_of_check rfl hmissing).2.2 hnameless Unit answeringEmpty
      (Resolver.leavesAutotrophic_of_eq rfl) q ()⟩

/-- **A leaf whose name comes after a keyword passes all checks, but its name is not seen**: it is no
reference of the formula, and evaluation says that there is none. -/
theorem noSeriesName_filledMissing :
    Tree.parse "(series #:fill 0 \"missing\")" = .ok filledMissing ∧
    filledMissing.checkOperators .builtin = .ok () ∧
    Typing.check .builtin .series filledMissing = .ok .series ∧
    "missing" ∉ filledMissing.seriesReferences .builtin ∧
    (evaluate .builtin answeringEmpty filledMissing .latest).run () = (.error .noSeriesName, ()) := by
  have hb : Calls [.symbol "series", .symbol "#:fill", .atom (.int 0), .str "missing"] .series := rfl
  refine ⟨Result.ok_of_toOption (by decide +kernel), rfl,
    Result.ok_of_toOption (by decide +kernel), by decide +kernel, ?_⟩
  rw [filledMissing, evaluate_nameless answeringEmpty hb rfl]
  rfl

end SeriesAlgebra
