import SeriesAlgebra.Proofs.Formula.Awareness
import SeriesAlgebra.Proofs.Formula.HistoryLeaves

/-!
# Where references stand

A reference of a formula is made by a call that names series, and the calls around it name
none: they form a chain from the formula down to the call (`Tree.IsChainTo`). Three searches
go down these chains. The search for references follows all of them, the search for awareness
those whose calls have an operator, and the search for the leaves of a history those whose
operators are known and have no history of their own.

So, where lists have operators, the series whose awareness is told are those that a formula
refers to; each counts as what the innermost call of its chain that forces awareness makes of
it; and a history is replayed from no other series than these
(`Tree.searches_agree_on_references`).
-/

namespace SeriesAlgebra

namespace Tree

variable {registry : Registry} {t call : Tree} {calls : List Tree} {names : List String}

/-! ### Chains of calls -/

/-- **The calls around a reference**: from a formula on each names no series itself and has the
next one among its arguments, down to the last, which names some. -/
inductive IsChainTo (registry : Registry) : Tree → List Tree → List String → Prop
  | last {call : Tree} {names : List String} (h : call.namedSeries? registry = some names) :
      IsChainTo registry call [call] names
  | through {call a : Tree} {calls : List Tree} {names : List String}
      (h : call.namedSeries? registry = none) (ha : a ∈ call.args)
      (hcalls : IsChainTo registry a calls names) : IsChainTo registry call (call :: calls) names

theorem isChainTo_of_names (h : t.namedSeries? registry = some names) {others : List String} :
    t.IsChainTo registry calls others ↔ calls = [t] ∧ others = names := by
  constructor
  · rintro (⟨h'⟩ | ⟨h', -, -⟩)
    · exact ⟨rfl, Option.some.inj (h'.symm.trans h)⟩
    · cases h.symm.trans h'
  · rintro ⟨rfl, rfl⟩
    exact .last h

theorem isChainTo_of_none (h : t.namedSeries? registry = none) :
    t.IsChainTo registry calls names ↔
      ∃ a ∈ t.args, ∃ rest, a.IsChainTo registry rest names ∧ calls = t :: rest := by
  constructor
  · rintro (⟨h'⟩ | ⟨-, ha, hcalls⟩)
    · cases h.symm.trans h'
    · exact ⟨_, ha, _, hcalls, rfl⟩
  · rintro ⟨a, ha, rest, hcalls, rfl⟩
    exact .through h ha hcalls

theorem not_isChainTo_atom {l : Literal} : ¬ (atom l).IsChainTo registry calls names := by
  rintro (⟨h⟩ | ⟨-, ha, -⟩)
  · cases h
  · cases ha

/-- A chain starts at the formula itself. -/
theorem IsChainTo.mem_self (h : t.IsChainTo registry calls names) : t ∈ calls := by
  cases h <;> exact List.mem_cons_self

/-- The calls of a chain are lists of the formula. -/
theorem IsChainTo.mem_nodes (h : t.IsChainTo registry calls names) (hcall : call ∈ calls) :
    call ∈ t.nodes ∧ call.literal? = none := by
  induction h with
  | @last u names h =>
    obtain rfl := List.mem_singleton.1 hcall
    cases call with
    | atom l => cases h
    | list items => exact ⟨self_mem_nodes _, rfl⟩
  | @through u a calls names h ha hcalls ih =>
    rcases List.mem_cons.1 hcall with rfl | hcall
    · cases call with
      | atom l => cases ha
      | list items => exact ⟨self_mem_nodes _, rfl⟩
    · obtain ⟨hnode, hlist⟩ := ih hcall
      exact ⟨nodes_trans hnode (mem_nodes_of_mem_args ha), hlist⟩

/-- A chain goes on from each of its calls. -/
theorem IsChainTo.exists_from (h : t.IsChainTo registry calls names) (hcall : call ∈ calls) :
    ∃ rest, call.IsChainTo registry rest names := by
  induction h with
  | last h =>
    obtain rfl := List.mem_singleton.1 hcall
    exact ⟨_, .last h⟩
  | through h ha hcalls ih =>
    rcases List.mem_cons.1 hcall with rfl | hcall
    · exact ⟨_, .through h ha hcalls⟩
    · exact ih hcall

/-! ### References -/

theorem referencesOfAll_eq (registry : Registry) (ts : List Tree) :
    referencesOfAll registry ts = ts.flatMap (references registry) := by
  induction ts with
  | nil => rfl
  | cons t rest ih => rw [referencesOfAll, ih, List.flatMap_cons]

/-- **A formula refers to what its chains lead to.** -/
theorem mem_references_iff {name : String} : name ∈ t.references registry ↔
    ∃ calls names, t.IsChainTo registry calls names ∧ name ∈ names := by
  induction t using inductionOn with
  | atom l =>
    rw [references]
    refine iff_of_false List.not_mem_nil ?_
    rintro ⟨_, _, h, -⟩
    exact not_isChainTo_atom h
  | list items ih =>
    cases items with
    | nil =>
      rw [references]
      refine iff_of_false List.not_mem_nil ?_
      rintro ⟨_, _, ⟨h⟩ | ⟨-, ha, -⟩, -⟩
      · cases h
      · cases ha
    | cons head args =>
      rw [references]
      cases hnamed : namedSeries? registry (list (head :: args)) with
      | some names => simp only [isChainTo_of_names hnamed]; simp
      | none =>
        simp only [isChainTo_of_none hnamed, referencesOfAll_eq, List.mem_flatMap]
        constructor
        · rintro ⟨a, ha, hname⟩
          obtain ⟨calls, names, hcalls, hname⟩ := (ih a (List.mem_cons_of_mem _ ha)).1 hname
          exact ⟨_, names, ⟨a, ha, calls, hcalls, rfl⟩, hname⟩
        · rintro ⟨_, names, ⟨a, ha, calls, hcalls, -⟩, hname⟩
          exact ⟨a, ha, (ih a (List.mem_cons_of_mem _ ha)).2 ⟨calls, names, hcalls, hname⟩⟩

/-! ### Awareness -/

/-- What a call makes the series below it count as. -/
def forcedBy (registry : Registry) (call : Tree) : Option Bool :=
  (registry.operatorOf? call).bind Operator.forcedAwareness

/-- What the innermost call of a chain that forces awareness makes of a series. -/
def innermostForced (registry : Registry) (calls : List Tree) : Option Bool :=
  calls.reverse.findSome? (forcedBy registry)

/-- The operators of calls with how many there are around each, the first of which has a given
number. -/
def stepsFrom (depth : Nat) (calls : List Tree) : List String :=
  (calls.zipIdx depth).map fun p => p.1.operator?.getD "" ++ "@" ++ toString p.2

/-- The path that a chain of calls describes. -/
def pathOf (calls : List Tree) : String := "/".intercalate (stepsFrom 0 calls)

theorem innermostForced_cons (call : Tree) (calls : List Tree) :
    innermostForced registry (call :: calls) =
      (innermostForced registry calls).or (forcedBy registry call) := by
  rw [innermostForced, List.reverse_cons, List.findSome?_append, List.findSome?_singleton]
  rfl

theorem stepsFrom_cons (depth : Nat) (call : Tree) (calls : List Tree) :
    stepsFrom depth (call :: calls) =
      (call.operator?.getD "" ++ "@" ++ toString depth) :: stepsFrom (depth + 1) calls := by
  rw [stepsFrom, List.zipIdx_cons, List.map_cons]
  rfl

variable {lookup : String → Option Bool} {r : ReferenceAwareness}

/-- What the end of a chain says of a reference, below a path of operators of which the innermost
that forces awareness makes it count as `forced`. -/
structure Tells (registry : Registry) (lookup : String → Option Bool) (path : List String)
    (forced : Option Bool) (calls : List Tree) (names : List String) (r : ReferenceAwareness) :
    Prop where
  series : r.series ∈ names
  path : r.path = "/".intercalate (path ++ stepsFrom path.length calls)
  aware : r.aware = ((innermostForced registry calls).or forced).or (lookup r.series)

/-- One more call is one more step of the path, and forces awareness if no call below it does. -/
theorem tells_cons {path : List String} {forced : Option Bool} :
    Tells registry lookup path forced (call :: calls) names r ↔
      Tells registry lookup (path ++ [call.operator?.getD "" ++ "@" ++ toString path.length])
        ((forcedBy registry call).or forced) calls names r := by
  have hpath : path ++ stepsFrom path.length (call :: calls) =
      path ++ [call.operator?.getD "" ++ "@" ++ toString path.length] ++
        stepsFrom (path ++ [call.operator?.getD "" ++ "@" ++ toString path.length]).length calls := by
    rw [stepsFrom_cons, List.length_append, List.length_singleton, List.append_assoc]
    rfl
  have hforced : (innermostForced registry (call :: calls)).or forced =
      (innermostForced registry calls).or ((forcedBy registry call).or forced) := by
    rw [innermostForced_cons, Option.or_assoc]
  constructor
  · rintro ⟨hseries, hpath', haware⟩
    exact ⟨hseries, hpath ▸ hpath', hforced ▸ haware⟩
  · rintro ⟨hseries, hpath', haware⟩
    exact ⟨hseries, hpath ▸ hpath', hforced ▸ haware⟩

theorem mem_namedAwareness (registry : Registry) {path : List String} {forced : Option Bool} :
    r ∈ namedAwareness names path forced lookup ↔ Tells registry lookup path forced [] names r := by
  rw [namedAwareness, List.mem_map]
  constructor
  · rintro ⟨name, hname, rfl⟩
    exact ⟨hname, by rw [stepsFrom, List.zipIdx_nil, List.map_nil, List.append_nil], rfl⟩
  · rintro ⟨hseries, hpath, haware⟩
    rw [stepsFrom, List.zipIdx_nil, List.map_nil, List.append_nil] at hpath
    refine ⟨r.series, hseries, ?_⟩
    obtain ⟨series, path', aware⟩ := r
    exact congrArg₂ _ hpath.symm haware.symm

/-- **The awareness that is told** is that at the ends of the chains whose calls have operators. -/
theorem mem_awarenessBelow_iff {path : List String} {forced : Option Bool} :
    r ∈ t.awarenessBelow registry lookup path forced ↔
      ∃ calls names, t.IsChainTo registry calls names ∧
        (∀ call ∈ calls, call.operator?.isSome = true) ∧
        Tells registry lookup path forced calls names r := by
  induction t using inductionOn generalizing path forced with
  | atom l =>
    rw [awarenessBelow]
    refine iff_of_false List.not_mem_nil ?_
    rintro ⟨_, _, h, -⟩
    exact not_isChainTo_atom h
  | list items ih =>
    rw [awarenessBelow_list]
    cases hsymbol : headSymbol? items with
    | none =>
      -- What has no operator is not searched, and is no call of a chain whose calls have one.
      refine iff_of_false List.not_mem_nil ?_
      rintro ⟨calls, names, hcalls, hheaded, -⟩
      have hnone : (list items).operator? = none := hsymbol
      have hsome := hheaded _ hcalls.mem_self
      rw [hnone] at hsome
      cases hsome
    | some symbol =>
      have hoperator : (list items).operator? = some symbol := hsymbol
      have hforced : (registry.find? symbol).bind Operator.forcedAwareness =
          forcedBy registry (list items) := by
        rw [forcedBy, Registry.operatorOf?, hoperator, Option.bind_some]
      have hstep : pathStep symbol path.length =
          (list items).operator?.getD "" ++ "@" ++ toString path.length := by
        rw [hoperator, pathStep, Option.getD_some]
      have hsome : (list items).operator?.isSome = true := by rw [hoperator, Option.isSome_some]
      dsimp only
      rw [hforced, hstep]
      cases hnamed : namedSeries? registry (list items) with
      | some names =>
        dsimp only
        rw [mem_namedAwareness registry, ← tells_cons]
        constructor
        · exact fun h => ⟨_, names, .last hnamed, fun u hu => List.mem_singleton.1 hu ▸ hsome, h⟩
        · rintro ⟨calls, others, hcalls, -, h⟩
          obtain ⟨rfl, rfl⟩ := (isChainTo_of_names hnamed).1 hcalls
          exact h
      | none =>
        dsimp only
        rw [List.mem_flatMap]
        constructor
        · rintro ⟨a, ha, hr⟩
          obtain ⟨calls, names, hcalls, hheaded, h⟩ := (ih a (List.mem_of_mem_tail ha)).1 hr
          exact ⟨_, names, .through hnamed ha hcalls, List.forall_mem_cons.2 ⟨hsome, hheaded⟩,
            tells_cons.2 h⟩
        · rintro ⟨_, names, hcalls, hheaded, h⟩
          obtain ⟨a, ha, rest, hrest, rfl⟩ := (isChainTo_of_none hnamed).1 hcalls
          exact ⟨a, ha, (ih a (List.mem_of_mem_tail ha)).2
            ⟨rest, names, hrest, (List.forall_mem_cons.1 hheaded).2, tells_cons.1 h⟩⟩

/-- The calls of a chain have operators, where all lists do. -/
theorem IsChainTo.headed (h : t.IsChainTo registry calls names)
    (ht : t.Everywhere fun u => u.isHeadedNode = true) :
    ∀ call ∈ calls, call.operator?.isSome = true := by
  intro call hcall
  obtain ⟨hnode, hlist⟩ := h.mem_nodes hcall
  have hheaded : (call.literal?.isSome || call.operator?.isSome) = true := ht call hnode
  rwa [hlist, Option.isSome_none, Bool.false_or] at hheaded

/-! ### Leaves of a history -/

/-- Whether a node is a call of an operator that has a history of its own. -/
def isAutotrophicNode (registry : Registry) (t : Tree) : Bool :=
  (registry.operatorOf? t).any Operator.isAutotrophic

/-- **A history is replayed from the ends of the chains** whose operators are all known and have no
history of their own. -/
theorem series_mem_leavesOfHistory_iff {name : String} :
    HistoryLeaf.series name ∈ t.leavesOfHistory registry ↔
      ∃ calls names, t.IsChainTo registry calls names ∧ name ∈ names ∧
        ∀ call ∈ calls, (registry.operatorOf? call).isSome = true ∧
          call.isAutotrophicNode registry = false := by
  induction t using inductionOn with
  | atom l =>
    rw [leavesOfHistory]
    refine iff_of_false List.not_mem_nil ?_
    rintro ⟨_, _, h, -⟩
    exact not_isChainTo_atom h
  | list items ih =>
    cases hop : registry.operatorOf? (list items) with
    | none =>
      rw [leavesOfHistory_of_unknown hop]
      refine iff_of_false List.not_mem_nil ?_
      rintro ⟨calls, names, hcalls, -, hknown⟩
      have hsome := (hknown _ hcalls.mem_self).1
      rw [hop] at hsome
      cases hsome
    | some op =>
      have hauto : isAutotrophicNode registry (list items) = op.isAutotrophic := by
        rw [isAutotrophicNode, hop, Option.any_some]
      have hnamedOp : op.namedSeries? (list items).args = namedSeries? registry (list items) := by
        rw [namedSeries?, hop, Option.bind_some]
      rw [leavesOfHistory_of_known hop, hnamedOp]
      by_cases hhistory : op.isAutotrophic = true
      · -- The call itself is what is replayed, whatever is named below it.
        rw [if_pos hhistory]
        refine iff_of_false (fun h => by cases List.mem_singleton.1 h) ?_
        rintro ⟨calls, names, hcalls, -, hknown⟩
        have hfalse := (hknown _ hcalls.mem_self).2
        rw [hauto, hhistory] at hfalse
        cases hfalse
      rw [if_neg hhistory]
      rw [Bool.not_eq_true] at hhistory
      have hcall : (registry.operatorOf? (list items)).isSome = true ∧
          isAutotrophicNode registry (list items) = false :=
        ⟨by rw [hop, Option.isSome_some], by rw [hauto, hhistory]⟩
      cases hnamed : namedSeries? registry (list items) with
      | some names =>
        rw [Option.elim_some]
        constructor
        · intro h
          obtain ⟨other, hother, heq⟩ := List.mem_map.1 h
          obtain rfl := HistoryLeaf.series.inj heq
          exact ⟨_, names, .last hnamed, hother, fun u hu => List.mem_singleton.1 hu ▸ hcall⟩
        · rintro ⟨calls, others, hcalls, hname, -⟩
          obtain ⟨rfl, rfl⟩ := (isChainTo_of_names hnamed).1 hcalls
          exact List.mem_map_of_mem hname
      | none =>
        rw [Option.elim_none, mem_leavesOfHistoryOfAll]
        constructor
        · rintro ⟨a, ha, h⟩
          obtain ⟨calls, names, hcalls, hname, hknown⟩ := (ih a (List.mem_of_mem_tail ha)).1 h
          exact ⟨_, names, .through hnamed ha hcalls, hname, List.forall_mem_cons.2 ⟨hcall, hknown⟩⟩
        · rintro ⟨_, names, hcalls, hname, hknown⟩
          obtain ⟨a, ha, rest, hrest, rfl⟩ := (isChainTo_of_none hnamed).1 hcalls
          exact ⟨a, ha, (ih a (List.mem_of_mem_tail ha)).2
            ⟨rest, names, hrest, hname, (List.forall_mem_cons.1 hknown).2⟩⟩

/-- The operators of a formula are known, if it has no unknown ones. -/
theorem isSome_operatorOf? (hknown : t.unknownOperators registry = []) (hcall : call ∈ t.nodes)
    (hoperator : call.operator?.isSome = true) : (registry.operatorOf? call).isSome = true := by
  obtain ⟨symbol, hsymbol⟩ := Option.isSome_iff_exists.1 hoperator
  have hmem : symbol ∈ t.operators := by
    rw [operators, List.mem_eraseDups]
    exact List.mem_filterMap.2 ⟨call, hcall, hsymbol⟩
  have hcontains : registry.contains symbol = true := by
    have hnone := List.filter_eq_nil_iff.1 hknown symbol hmem
    simpa using hnone
  rw [Registry.operatorOf?, hsymbol, Option.bind_some, Registry.find?, Option.isSome_iff_ne_none,
    Ne, OrderedMap.find?_eq_none_iff, not_not]
  exact OrderedMap.contains_iff.1 hcontains

theorem mem_series_historyLeaves_iff {name : String} :
    name ∈ (t.historyLeaves registry).series ↔
      HistoryLeaf.series name ∈ t.leavesOfHistory registry := by
  unfold historyLeaves
  rw [mem_sortedSet, List.mem_filterMap]
  constructor
  · rintro ⟨leaf, hleaf, heq⟩
    cases leaf with
    | series other => exact Option.some.inj heq ▸ hleaf
    | autotrophic call => cases heq
  · exact fun h => ⟨_, h, rfl⟩

/-- A history is replayed from series that the formula refers to. -/
theorem historyLeaves_subset : (t.historyLeaves registry).series ⊆ t.seriesReferences registry := by
  intro name hname
  rw [mem_series_historyLeaves_iff, series_mem_leavesOfHistory_iff] at hname
  obtain ⟨calls, names, hcalls, hname, -⟩ := hname
  exact mem_sortedSet.2 (mem_references_iff.2 ⟨calls, names, hcalls, hname⟩)

/-- A history is replayed from all series that the formula refers to, if no call with a history of
its own refers to any. -/
theorem subset_historyLeaves (ht : t.Everywhere fun u => u.isHeadedNode = true)
    (hknown : t.unknownOperators registry = [])
    (hauto : ∀ call ∈ t.nodes, call.isAutotrophicNode registry = true →
      call.references registry = []) :
    t.seriesReferences registry ⊆ (t.historyLeaves registry).series := by
  intro name hname
  obtain ⟨calls, names, hcalls, hname⟩ := mem_references_iff.1 (mem_sortedSet.1 hname)
  rw [mem_series_historyLeaves_iff, series_mem_leavesOfHistory_iff]
  refine ⟨calls, names, hcalls, hname, fun call hcall => ?_⟩
  obtain ⟨hnode, -⟩ := hcalls.mem_nodes hcall
  refine ⟨isSome_operatorOf? hknown hnode (hcalls.headed ht call hcall), ?_⟩
  by_contra hhistory
  obtain ⟨rest, hrest⟩ := hcalls.exists_from hcall
  have hmem := mem_references_iff.2 ⟨rest, names, hrest, hname⟩
  rw [hauto call hnode (by simpa using hhistory)] at hmem
  cases hmem

/-! ### The searches together -/

/-- **The searches agree on the references of a formula** in which lists have operators. The series
whose awareness is told are those that it refers to, and so are those whose existence is told. What
is told of awareness is, for each call that names a series and is reached through calls that name
none, the operators of these calls with their depths, and what the innermost of them that forces
awareness makes of the series, or else what is looked up. With known operators only, its history is
replayed from series that it refers to, and from all of them if no call with a history of its own
refers to any. -/
theorem searches_agree_on_references (registry : Registry) (lookup : String → Option Bool)
    (isThere : String → Bool) {t : Tree} (ht : t.Everywhere fun u => u.isHeadedNode = true) :
    (∀ name, (∃ r ∈ t.awareness registry lookup, r.series = name) ↔
        name ∈ t.seriesReferences registry) ∧
      (t.seriesExistence registry isThere).map (·.1) = t.seriesReferences registry ∧
      (∀ r, r ∈ t.awareness registry lookup ↔
        ∃ calls names, t.IsChainTo registry calls names ∧ r.series ∈ names ∧
          r.path = pathOf calls ∧
          r.aware = (innermostForced registry calls).or (lookup r.series)) ∧
      (t.unknownOperators registry = [] →
        (t.historyLeaves registry).series ⊆ t.seriesReferences registry ∧
        ((∀ call ∈ t.nodes, call.isAutotrophicNode registry = true →
            call.references registry = []) →
          (t.historyLeaves registry).series = t.seriesReferences registry)) := by
  refine ⟨fun name => ?_, ?_, fun r => ?_, fun hknown => ⟨historyLeaves_subset, fun hauto => ?_⟩⟩
  · rw [seriesReferences, mem_sortedSet, ← series_awarenessBelow ht [] none, List.mem_map]
    exact Iff.rfl
  · rw [seriesExistence, List.map_map]
    exact List.map_id _
  · rw [awareness, mem_awarenessBelow_iff]
    constructor
    · rintro ⟨calls, names, hcalls, -, hseries, hpath, haware⟩
      exact ⟨calls, names, hcalls, hseries, hpath, by rw [haware, Option.or_none]⟩
    · rintro ⟨calls, names, hcalls, hseries, hpath, haware⟩
      exact ⟨calls, names, hcalls, hcalls.headed ht, hseries, hpath, by rw [haware, Option.or_none]⟩
  · have hsorted (xs : List String) : (sortedSet xs).Pairwise (· < ·) :=
      pairwise_sortedSet IsStrictOrder.trans IsStrictOrder.compare xs
    exact IsStrictOrder.eq_of_mem_iff (hsorted _) (hsorted _) fun name =>
      ⟨fun h => historyLeaves_subset h, fun h => subset_historyLeaves ht hknown hauto h⟩

/-- An operator whose calls name a series by every string among their arguments. -/
def station : Extension where
  __ := Extension.plain "station" (.variadic 1 [.str] (.fixed .series))
    fun _ _ => .ok (.series (.empty "station"))
  namedSeries? args := some (args.filterMap str?)

/-- An operator below which series count as aware. -/
def localized : Extension where
  __ := Extension.plain "localized" (.fixed [[.series]] .series)
    fun _ _ => .ok (.series (.empty "localized"))
  forcedAwareness := some true

/-- The built-in operators and these two. -/
def withStations : Registry := (Registry.builtin.register station).register localized

/-- A formula with a series that is localized below `naive`, two that one call names, and a constant. -/
def localizedBelowNaive : Tree :=
  list [symbol "add",
    list [symbol "naive", list [symbol "localized", list [symbol "series", str "a"]], str "UTC"],
    list [symbol "naive", list [symbol "station", str "c", str "b"], str "UTC"],
    list [symbol "constant", atom (.int 1), str "2024-01-01", str "2024-01-02", str "D",
      str "2024-01-01"]]

theorem searches_agree_localizedBelowNaive :
    (localizedBelowNaive.Everywhere fun u => u.isHeadedNode = true) ∧
      localizedBelowNaive.unknownOperators withStations = [] ∧
      (∀ call ∈ localizedBelowNaive.nodes, call.isAutotrophicNode withStations = true →
        call.references withStations = []) ∧
      ⟨"a", "add@0/naive@1/localized@2/series@3", some true⟩ ∈
        localizedBelowNaive.awareness withStations (fun _ => none) ∧
      ⟨"b", "add@0/naive@1/station@2", some false⟩ ∈
        localizedBelowNaive.awareness withStations (fun _ => none) ∧
      (localizedBelowNaive.historyLeaves withStations).series = ["a", "b", "c"] := by
  have hheaded : ∀ u ∈ localizedBelowNaive.nodes, u.isHeadedNode = true := by decide +kernel
  have hknown : localizedBelowNaive.unknownOperators withStations = [] := by decide +kernel
  have hauto : ∀ call ∈ localizedBelowNaive.nodes, call.isAutotrophicNode withStations = true →
      call.references withStations = [] := by decide +kernel
  obtain ⟨-, -, hawareness, hleaves⟩ :=
    searches_agree_on_references withStations (fun _ => none) (fun _ => true) hheaded
  refine ⟨hheaded, hknown, hauto, ?_, ?_, ?_⟩
  · refine (hawareness _).2 ⟨_, ["a"], .through rfl List.mem_cons_self (.through rfl
      List.mem_cons_self (.through rfl List.mem_cons_self (.last rfl))), List.mem_cons_self, ?_, ?_⟩
    · decide +kernel
    · decide +kernel
  · refine (hawareness _).2 ⟨_, ["c", "b"], .through rfl (List.mem_cons_of_mem _ List.mem_cons_self)
      (.through rfl List.mem_cons_self (.last rfl)), by decide, ?_, ?_⟩
    · decide +kernel
    · decide +kernel
  · rw [(hleaves hknown).2 hauto]
    decide +kernel

end Tree

end SeriesAlgebra
