import SeriesAlgebra.Proofs.Engine.Plain
import SeriesAlgebra.Proofs.Engine.Scenarios
import SeriesAlgebra.Proofs.Formula.Expansion
import SeriesAlgebra.Proofs.Series.Slicing

/-!
# Bound groups read as stored series

What a bound group has in the column of a combination of scenarios is the value of its
formula for the series that are bound being stored ones, which have the columns of their
groups as their values (`Engine.column?_bound`). The groups are read once, in the window that
the bound group is asked for, and their columns are cut again to what the formula asks for
on its way down. That makes no difference while the formula only narrows the window
(`Series.window_window`), but it does where the formula looks beyond it: clocks show stamps
that are stored a little outside of the window, and these are not there
(`Engine.column?_ne_clocksOfParis`).
-/

namespace SeriesAlgebra

open Evaluation Reading Comparison

/-! ### Formulas that look beyond the window -/

namespace Tree

/-- Whether a call looks beyond the window at series of given names: it shows them by the clocks of a
zone. -/
def LooksBeyond (names : List String) : Tree → Prop
  | atom _ => False
  | list items => Calls items .naive ∧ ∃ name ∈ (list items).seriesReferences .builtin, name ∈ names

instance (names : List String) : DecidablePred (LooksBeyond names)
  | atom _ => .isFalse id
  | list items => inferInstanceAs (Decidable (headSymbol? items = some Builtin.naive.name ∧
      ∃ name ∈ (list items).seriesReferences .builtin, name ∈ names))

/-- Whether a leaf of a formula has one of given names. -/
def ReadsAny (names : List String) (t : Tree) : Prop :=
  ∃ items name, list items ∈ t.nodes ∧ leafName? items = some name ∧ name ∈ names

/-- What an argument reads, the call does. -/
theorem readsAny_of_arg {names : List String} {items : List Tree} {a : Tree} (ha : a ∈ items.tail)
    (h : a.ReadsAny names) : (list items).ReadsAny names := by
  obtain ⟨leaf, name, hleaf, hname⟩ := h
  exact ⟨leaf, name, mem_nodes_list.2 (Or.inr ⟨a, List.mem_of_mem_tail ha, hleaf⟩), hname⟩

end Tree

/-! ### Tables that are cut -/

/-- Whether a table has the columns of another one, cut to a window. -/
structure Frame.IsCut (w : Window) (f g : Frame) : Prop where
  columnNames : f.columnNames = g.columnNames
  column? : ∀ name, f.column? name = (g.column? name).map (·.window w)

namespace Engine

variable {e : Engine} {A : Resolver Memo} {q : Query} {group : String} {binding : Binding} {t : Tree}
  {table tableIn : String → Frame} {rows : List BindingRow} {choice : Combination}

/-! ### Stored groups -/

/-- A stored group is read from the store, whatever is remembered. -/
theorem readGroup_stored {σ : Type} (he : e.NamesApart) {name : String}
    (hstored : e.store.containsGroup name = true)
    (enter : String → Except EngineError (Resolver σ)) (q : Query) :
    ∃ f, e.store.readGroup? name q = some f ∧ e.readGroup enter name q = pure f := by
  have hformula : e.groupFormulas.contains name = false := Bool.eq_false_iff.2 fun h =>
    Bool.eq_false_iff.1 (he.groupFormulas name h) hstored
  have hbinding : e.bindings.contains name = false := Bool.eq_false_iff.2 fun h =>
    Bool.eq_false_iff.1 (he.bindings name h).1 hstored
  obtain ⟨versions, hversions⟩ := Option.isSome_iff_exists.1 hstored
  have hread : (e.store.readGroup? name q).isSome = true := by
    unfold Store.readGroup?
    rw [hversions]
    rfl
  obtain ⟨f, hf⟩ := Option.isSome_iff_exists.1 hread
  refine ⟨f, hf, ?_⟩
  have htree : e.groupTree? name = .ok none := by
    unfold groupTree?
    rw [OrderedMap.contains_eq_false_iff.1 hformula]
    rfl
  unfold readGroup
  rw [htree, OrderedMap.contains_eq_false_iff.1 hbinding, hf]
  rfl

/-- What is read of a stored group in a window is its table over all value dates, cut. -/
theorem isCut_readGroup? {name : String} {revision : Option InsertionDate} {w : Window} {f g : Frame}
    (hf : e.store.readGroup? name ⟨revision, w⟩ = some f)
    (hg : e.store.readGroup? name ⟨revision, .unbounded⟩ = some g) : f.IsCut w g := by
  obtain ⟨versions, hversions, rfl⟩ := Option.map_eq_some_iff.1 hf
  obtain ⟨versions', hversions', rfl⟩ := Option.map_eq_some_iff.1 hg
  obtain rfl := Option.some.inj (hversions.symm.trans hversions')
  dsimp only
  cases History.version? versions revision with
  | none => exact ⟨rfl, fun _ => rfl⟩
  | some version =>
    refine ⟨?_, fun name => ?_⟩
    · exact (version.columnNames_window w).trans (version.columnNames_window .unbounded).symm
    · dsimp only
      rw [Frame.column?_window, Frame.column?_window, Option.map_map]
      rfl

/-! ### Series that are no formulas -/

/-- What is no formula is read from a store or source by readers and by the engine alike. -/
theorem read_of_readPrimary {name : String} (hname : e.formulaTree? name = .ok none) {s : Series}
    (h : e.readPrimary name q = .ok s) : e.read name q = .ok (some s) := by
  unfold readPrimary at h
  unfold read
  rw [not_contains hname, if_neg Bool.false_ne_true]
  cases hstored : e.store.read? name q with
  | some r =>
    rw [hstored] at h
    rw [Except.ok.inj h]
  | none =>
    rw [hstored] at h
    cases hsource : e.sourceOf? name with
    | none =>
      rw [hsource] at h
      cases h
    | some source =>
      rw [hsource] at h
      obtain ⟨found, hfound, h⟩ := Result.bind_ok h
      cases found with
      | none => cases h
      | some r =>
        obtain rfl := Except.ok.inj h
        exact hfound

/-- A reader reads what is no formula from a store or source, whatever is remembered. -/
theorem readPrimary_of_reader {name : String} (hname : e.formulaTree? name = .ok none)
    {levels : Nat} {path : List String} {m m' : Memo} (hm : e.IsClosed m) {s : Series}
    (h : Gives ((e.readerBelow levels path).series name q) m s m') :
    e.IsClosed m' ∧ e.readPrimary name q = .ok s := by
  obtain ⟨hm', -, _, rfl, hheld⟩ := (traced_readerBelow levels path).series name q m hm s m' h
  have hlookup := hheld m' (.refl m')
  dsimp only at hlookup
  rw [heldReader_eq] at hlookup
  obtain ⟨n, hn⟩ := hm' name q s (held_ok.1 (gives_settle.1 hlookup).1)
  rw [readSeries_primary hname] at hn
  exact ⟨hm', (gives_settle.1 hn).1⟩

/-! ### The columns of a combination -/

/-- The columns of groups in a window are those over all value dates, cut. -/
theorem rel_boundTo {w : Window} (hcut : ∀ row ∈ rows, (tableIn row.group).IsCut w (table row.group))
    {bound : List (String × Series)}
    (h : rows.mapM (boundColumn (scenariosOf tableIn rows) choice) = .ok bound) (name : String) :
    Option.Rel (fun s r => s = Series.window r w) ((OrderedMap.ofList bound).find? name)
      ((boundTo table rows choice).find? name) := by
  refine OrderedMap.rel_find?_ofList (Result.forall₂_filterMap (Result.forall₂_imp_of_mem
    (Result.forall₂_of_mapM h) fun row hrow b hb => ?_)) name
  unfold boundColumn at hb
  rw [find?_tables hrow] at hb
  dsimp only [Option.bind_some] at hb
  rw [(hcut row hrow).column?] at hb
  cases hcolumn : (table row.group).column? ((choice.scenario? row.family).getD "") with
  | none =>
    rw [hcolumn] at hb
    cases hb
  | some column =>
    rw [hcolumn] at hb
    obtain rfl := Except.ok.inj hb
    exact ⟨_, rfl, rfl, (column.window_withName row.series w).symm⟩

/-- The scenarios of rows are those of tables with the same columns. -/
theorem families_congr {known known' : Scenarios} (hknown : known.families = known'.families)
    (h : ∀ row ∈ rows, (tableIn row.group).columnNames = (table row.group).columnNames) :
    (rows.foldl (addRow tableIn) known).families = (rows.foldl (addRow table) known').families := by
  induction rows generalizing known known' with
  | nil => exact hknown
  | cons row rest ih =>
    refine ih ?_ fun r hr => h r (List.mem_cons_of_mem _ hr)
    unfold addRow
    dsimp only
    rw [hknown, h row List.mem_cons_self]

/-- Every row stands for a column, and nothing else does. -/
theorem mem_boundTo {bound : List (String × Series)} {known : Scenarios}
    (h : rows.mapM (boundColumn known choice) = .ok bound) {name : String} :
    (∃ s, (OrderedMap.ofList bound).find? name = some s) ↔ ∃ row ∈ rows, row.series = name := by
  have hseries : List.Forall₂ (fun row b => row.series = b.1) rows bound :=
    (Result.forall₂_of_mapM h).imp fun row b hb => by
      unfold boundColumn at hb
      dsimp only at hb
      split at hb
      · rw [← Except.ok.inj hb]
      · cases hb
  constructor
  · rintro ⟨s, hs⟩
    have hmem := OrderedMap.mem_ofList (OrderedMap.mem_of_find? hs)
    exact Result.exists_of_mem_right hseries hmem
  · rintro ⟨row, hrow, rfl⟩
    obtain ⟨b, hb, heq⟩ := Result.exists_of_mem_left hseries hrow
    exact OrderedMap.exists_find?_ofList (List.mem_map.2 ⟨b, hb, heq.symm⟩)

/-! ### Values -/

variable (e) in
/-- **The resolver for which some series are stored ones**, with given values over all value dates,
and all others are read as the engine reads them. -/
def asStored (columns : OrderedMap String Series) : Resolver Unit where
  series name q :=
    match columns.find? name with
    | some s => pure (s.window q.window)
    | none => do
      match ← settle (e.read name q) with
      | some s => return s
      | none => throw (.unknownName name)
  group name q := do
    match ← settle (e.readTable name q) with
    | some f => return f
    | none => throw (.unknownGroup name)
  autotrophic := Resolver.noAutotrophic

/-- What may be asked for from a formula down: series of given names in no other windows than those
within the first. -/
structure IsAsked (names : List String) (t : Tree) (q : Query) (u : Tree) (q' : Query) : Prop where
  nodes : ∀ v ∈ u.nodes, v ∈ t.nodes
  within : u.ReadsAny names → q'.window.IsWithin q.window

theorem IsAsked.arg {names : List String} {items : List Tree} {q' : Query}
    (h : IsAsked names t q (.list items) q') {a : Tree} (ha : a ∈ items.tail) :
    IsAsked names t q a q' :=
  ⟨fun v hv => h.nodes v (Tree.mem_nodes_list.2 (Or.inr ⟨a, List.mem_of_mem_tail ha, hv⟩)),
    fun hany => h.within (Tree.readsAny_of_arg ha hany)⟩

section

variable {names : List String} {t : Tree} {q : Query}
  (hnodes : t.Everywhere (Tree.IsExpandedNode (Tree.upTo names e.formulaTree?) fun _ => True))
  (hlook : q.window.isUnbounded = true ∨ ∀ u ∈ t.nodes, ¬ u.LooksBeyond names)

include hnodes hlook

/-- What the arguments of a call are asked for. -/
theorem IsAsked.below {items : List Tree} {q' c : Query} (h : IsAsked names t q (.list items) q')
    {b : Builtin} (hb : Tree.Calls items b) {keywords : OrderedMap String Value}
    (hc : b.childQuery keywords q' = .ok c) {a : Tree} (ha : a ∈ items.tail) :
    IsAsked names t q a c := by
  have harg := h.arg ha
  refine ⟨harg.nodes, fun hany => ?_⟩
  have hwithin := harg.within hany
  -- Two operators ask for other windows: one for a smaller one, the other for a larger one.
  cases b with
  | slice =>
    obtain ⟨w, -, hc⟩ := Result.bind_ok hc
    obtain rfl := Except.ok.inj hc
    exact (Window.isWithin_intersect _ _).trans hwithin
  | naive =>
    rcases hlook with hunbounded | hlook
    · exact Window.isWithin_unbounded hunbounded
    · -- Nothing that is bound stands below such a call.
      obtain ⟨leaf, name, hleaf, hname, hmem⟩ := Tree.readsAny_of_arg ha hany
      have hformula : (Tree.list items).Everywhere Tree.IsFormulaNode := fun v hv =>
        (hnodes v (h.nodes v hv)).formula
      exact absurd ⟨hb, name, mem_sortedSet.2 (Tree.mem_references hformula hleaf hname), hmem⟩
        (hlook _ (h.nodes _ (Tree.self_mem_nodes _)))
  | _ =>
    obtain rfl := Except.ok.inj hc
    exact hwithin

end

/-- **A bound group evaluates its formula as if columns were stored series**, as far as it does not
look beyond the window. -/
theorem resolvesAsked_asStored {names : List String} {bound : List (String × Series)}
    (hnodes : t.Everywhere (Tree.IsExpandedNode (Tree.upTo names e.formulaTree?) fun _ => True))
    (hlook : q.window.isUnbounded = true ∨ ∀ u ∈ t.nodes, ¬ u.LooksBeyond names)
    {columns : OrderedMap String Series}
    (hcut : ∀ name, Option.Rel (fun s r => s = Series.window r q.window)
      ((OrderedMap.ofList bound).find? name) (columns.find? name))
    (hbound : ∀ items name, .list items ∈ t.nodes → Tree.leafName? items = some name →
      (name ∈ names ↔ ∃ s, (OrderedMap.ofList bound).find? name = some s))
    (levels : Nat) (path : List String) :
    (lockstep fun m (_ : Unit) => e.IsClosed m).ResolvesAsked .builtin (IsAsked names t q)
      (withBound (e.readerBelow levels path) (.ofList bound)) fun _ => e.asStored columns where
  args h a ha := h.arg ha
  below {items q' b keywords c} h hop hc a ha := by
    obtain ⟨b', hb, heq⟩ := Tree.calls_of_operatorOf? hop
    obtain rfl := Operator.builtin.inj heq
    exact h.below hnodes hlook hb hc ha
  series {call q' name} h hname := by
    cases call with
    | atom l => cases hname
    | list items =>
      have hnode := h.nodes _ (Tree.self_mem_nodes _)
      have hcolumn := hcut name
      have hbound := hbound items name hnode hname
      unfold withBound asStored
      dsimp only
      cases hr : columns.find? name with
      | some r =>
        -- A column that was cut for the bound group is cut again for the leaf.
        cases hs : (OrderedMap.ofList bound).find? name with
        | none =>
          rw [hr, hs] at hcolumn
          cases hcolumn
        | some s =>
          rw [hr, hs] at hcolumn
          obtain rfl : s = r.window q.window := by
            cases hcolumn
            assumption
          have hwithin := h.within ⟨items, name, Tree.self_mem_nodes _, hname, hbound.2 ⟨_, hs⟩⟩
          change (lockstep _).Holds Eq (Pure.pure ((r.window q.window).window q'.window)) fun _ =>
            Pure.pure (r.window q'.window)
          rw [r.window_window hwithin]
          exact pure_same _ _
      | none =>
        cases hs : (OrderedMap.ofList bound).find? name with
        | some s =>
          rw [hr, hs] at hcolumn
          cases hcolumn
        | none =>
          -- Nothing is bound to the name and it is no formula, so both look into the store.
          have hfree : name ∉ names := fun hmem => by
            obtain ⟨s, hsome⟩ := hbound.1 hmem
            cases hs.symm.trans hsome
          have hprimary : e.formulaTree? name = .ok none :=
            (if_neg hfree).symm.trans ((hnodes _ hnode).leaf items name rfl hname)
          intro m _ hm s m' hread
          obtain ⟨hm', hread⟩ := readPrimary_of_reader hprimary hm hread
          exact ⟨s, (), gives_bind.2 ⟨some s, (), gives_settle.2 ⟨read_of_readPrimary hprimary hread, rfl⟩,
            gives_pure.2 ⟨rfl, rfl⟩⟩, rfl, hm'⟩
  group {call q' name} h hop hname := by
    cases call with
    | atom l => cases hop
    | list items =>
      obtain ⟨b, hb, hgroup, -⟩ := (hnodes _ (h.nodes _ (Tree.self_mem_nodes _))).formula
      obtain ⟨b', hb', heq⟩ := Tree.calls_of_operatorOf? hop
      obtain rfl := Operator.builtin.inj heq
      exact absurd (hb.unique hb') hgroup
  autotrophic call q' := pure_same _ none

/-! ### Columns -/

/-- Every leaf of the formula that may be bound has a row, so it is. -/
theorem mem_seriesNames_iff_bound (he : e.Consistent)
    (hnodes : t.Everywhere
      (Tree.IsExpandedNode (Tree.upTo binding.seriesNames e.formulaTree?) fun _ => True))
    {known : Scenarios} {bound : List (String × Series)}
    (hbound : (e.rowsFor binding t).mapM (boundColumn known choice) = .ok bound)
    {items : List Tree} {name : String} (hitems : .list items ∈ t.nodes)
    (hname : Tree.leafName? items = some name) :
    name ∈ binding.seriesNames ↔ ∃ s, (OrderedMap.ofList bound).find? name = some s := by
  have hreference : name ∈ t.seriesReferences e.registry := by
    rw [he.registry]
    exact mem_sortedSet.2 (Tree.mem_references (fun u hu => (hnodes u hu).formula) hitems hname)
  rw [mem_boundTo hbound, Binding.seriesNames, mem_sortedSet, List.mem_map]
  refine exists_congr fun row => ⟨?_, fun ⟨hrow, heq⟩ => ⟨(List.mem_filter.1 hrow).1, heq⟩⟩
  rintro ⟨hrow, rfl⟩
  exact ⟨List.mem_filter.2 ⟨hrow, List.contains_iff_mem.2 hreference⟩, rfl⟩

/-- The column of a combination is the value of the formula with columns being stored series. -/
theorem value_of_readCombination (he : e.Consistent)
    (hnodes : t.Everywhere
      (Tree.IsExpandedNode (Tree.upTo binding.seriesNames e.formulaTree?) fun _ => True))
    (hlook : q.window.isUnbounded = true ∨ ∀ u ∈ t.nodes, ¬ u.LooksBeyond binding.seriesNames)
    (hcut : ∀ row ∈ e.rowsFor binding t, (tableIn row.group).IsCut q.window (table row.group))
    {m m' : Memo} (hm : e.IsClosed m) {column : Series}
    (h : Gives (e.readCombination (e.readerInside group) binding t (e.rowsFor binding t)
      (scenariosOf tableIn (e.rowsFor binding t)) q choice) m column m') :
    (∃ s, Gives (evaluate e.registry (e.asStored (boundTo table (e.rowsFor binding t) choice)) t q)
      () (.series s) () ∧ column = s.withName choice.label) ∧ e.IsClosed m' := by
  obtain ⟨bound, _, hcolumns, hvalue⟩ := gives_bind.1 h
  obtain ⟨hbound, rfl⟩ := gives_settle.1 hcolumns
  obtain ⟨v, m₂, hv, hseries⟩ := gives_bind.1 hvalue
  obtain ⟨s, _, hasSeries, hnamed⟩ := gives_bind.1 hseries
  obtain ⟨hs, rfl⟩ := gives_settle.1 hasSeries
  obtain ⟨rfl, rfl⟩ := gives_pure.1 hnamed
  have hresolves := resolvesAsked_asStored (e := e) hnodes hlook (rel_boundTo hcut hbound)
    (fun _ _ => mem_seriesNames_iff_bound he hnodes hbound) (e.config.maxDepth - 1)
    [groupLabel group]
  rw [he.registry] at hv ⊢
  obtain ⟨_, _, hv', rfl, hm'⟩ := hresolves.evaluate ⟨fun _ hu => hu, fun _ => .refl _⟩ m () hm v m₂ hv
  cases v with
  | series r =>
    obtain rfl := Except.ok.inj hs
    exact ⟨⟨_, hv', rfl⟩, hm'⟩
  | _ => cases hs

theorem Reachable.exists_reaches (he : e.Reachable) : ∃ (store : Store) (config : Config)
    (first : Engine), Engine.create store config .builtin = .ok first ∧
      Reaches (fun _ _ => True) first e := by
  induction he with
  | @create store _ config e he => exact ⟨store, config, e, he, .refl⟩
  | perform _ c ih =>
    obtain ⟨store, config, first, hfirst, he⟩ := ih
    exact ⟨store, config, first, hfirst, he.perform c trivial⟩

/-- What is read of a stored group inside a bound group is its table over all value dates, cut. -/
theorem isCut_tableInside (he : e.Consistent) {name : String}
    (hstored : e.store.containsGroup name = true) {g : Frame}
    (hg : e.readTable name ⟨q.revision, .unbounded⟩ = .ok (some g)) (group : String) :
    (e.tableInside group q name).IsCut q.window g ∧
      (e.readerInside group).group name q = pure (e.tableInside group q name) := by
  obtain ⟨f, hf, hinside⟩ := readGroup_stored he.names hstored
    (e.enterBelow (e.config.maxDepth - 1) [groupLabel group]) q
  obtain ⟨g', hg', houtside⟩ := readGroup_stored he.names hstored
    (e.enterBelow e.config.maxDepth []) ⟨q.revision, .unbounded⟩
  have hread : (e.readerInside group).group name q = pure f := by
    rw [readerInside, readerBelow_eq]
    exact hinside
  have hread' : e.reader.group name ⟨q.revision, .unbounded⟩ = pure g' := by
    rw [reader, readerBelow_eq]
    exact houtside
  have htable : e.tableInside group q name = f := by
    rw [tableInside, hread]
    rfl
  rw [htable]
  refine ⟨?_, hread⟩
  unfold readTable at hg
  split at hg
  · rw [hread'] at hg
    obtain rfl := Option.some.inj (Except.ok.inj hg)
    exact isCut_readGroup? hf hg'
  · cases hg

/-- **What a bound group is read from**: it is bound to a formula that can be expanded, the groups of
all rows that the formula refers to are stored and have given tables over all value dates, and the
bound group itself is read as a table. -/
structure IsReadFrom (e : Engine) (group : String) (q : Query) (binding : Binding) (t : Tree)
    (table : String → Frame) (f : Frame) : Prop where
  bound : e.bindings.find? group = some binding
  expands : ∃ t₀, e.formulaTree? binding.formula = .ok (some t₀) ∧
    e.expand binding.seriesNames t₀ = .ok t
  stored : ∀ row ∈ e.rowsFor binding t, e.store.containsGroup row.group = true
  tables : ∀ row ∈ e.rowsFor binding t,
    e.readTable row.group ⟨q.revision, .unbounded⟩ = .ok (some (table row.group))
  read : e.readTable group q = .ok (some f)

variable {f : Frame}

/-- The leaves of the formula are no formulas, unless they are bound. -/
theorem IsReadFrom.nodes (h : e.IsReadFrom group q binding t table f) (he : e.Consistent) :
    t.Everywhere
      (Tree.IsExpandedNode (Tree.upTo binding.seriesNames e.formulaTree?) fun _ => True) := by
  obtain ⟨t₀, hformula, hexpand⟩ := h.expands
  exact Tree.everywhere_expandBelow_upTo he.isFormula (fun _ _ _ _ _ _ => trivial)
    (he.isKept hformula).formula.nodes (fun _ _ _ => trivial) (Result.mapError_ok hexpand)

/-- A bound group is made of what is read for every combination of its scenarios. -/
theorem IsReadFrom.exists_columns (h : e.IsReadFrom group q binding t table f) (he : e.Reachable)
    {known : Scenarios}
    (hknown : e.Answers ((e.rowsFor binding t).foldlM (addScenarios (e.readerInside group) q)
      ⟨.empty, .empty⟩) known) :
    ∃ columns m m', e.IsClosed m ∧ Gives ((combinations known.families).mapM
        (e.readCombination (e.readerInside group) binding t (e.rowsFor binding t) known q))
      m columns m' ∧ Frame.ofSeries? columns = .ok f := by
  obtain ⟨store, config, first, hfirst, hreaches⟩ := he.exists_reaches
  obtain ⟨t₀, hformula, hexpand⟩ := h.expands
  have hcontains : e.bindings.contains group = true := by
    rw [OrderedMap.contains, h.bound]
    rfl
  have hread := h.read
  unfold readTable at hread
  split at hread
  case isFalse => cases hread
  obtain ⟨_, hanswer, heq⟩ := Result.map_ok hread
  obtain rfl := Option.some.inj heq
  obtain ⟨m', hgives⟩ := gives_of_answerOf hanswer
  rw [reader_group_bound (maxDepth_ne_zero_of_reaches hfirst hreaches)
    (he.consistent.names.bindings group hcontains).2 h.bound,
    readBoundGroup_eq hformula hexpand] at hgives
  obtain ⟨_, m, hscenarios, hgives⟩ := gives_bind.1 hgives
  obtain ⟨m, hscenarios', hm⟩ := hknown [] isClosed_nil
  obtain ⟨rfl, rfl⟩ := hscenarios'.unique hscenarios
  split at hgives
  · obtain ⟨_, _, hthrow, -⟩ := gives_bind.1 hgives
    exact (gives_throw.1 hthrow).elim
  · obtain ⟨columns, m', hcolumns, htable⟩ := gives_bind.1 hgives
    exact ⟨columns, _, m', hm, hcolumns, Result.mapError_ok (gives_settle.1 htable).1⟩

/-- **A bound group has the values of its formula for columns being stored series**: in every engine
that is reached, if all rows that the formula refers to are of stored groups and the bound group is
read, its column for a combination of scenarios is the value of the expanded formula over the index
of the table, which has all stamps of the value. What is bound has the columns of the groups over all
value dates as its values, cut to whatever window the formula asks for. This is said of windows and
formulas that do not make the formula look beyond the window. -/
theorem column?_bound (he : e.Reachable) (h : e.IsReadFrom group q binding t table f)
    (hlook : q.window.isUnbounded = true ∨ ∀ u ∈ t.nodes, ¬ u.LooksBeyond binding.seriesNames)
    (hchoice : choice ∈ combinations (scenariosOf table (e.rowsFor binding t)).families) :
    ∃ s column, Gives (evaluate e.registry
        (e.asStored (boundTo table (e.rowsFor binding t) choice)) t q) () (.series s) () ∧
      f.column? choice.label = some column ∧ column.points = (s.reindex f.index).points ∧
      ∀ u ∈ s.index.stamps, u ∈ f.index.stamps := by
  have hconsistent := he.consistent
  have hgroups : ∀ row ∈ e.rowsFor binding t,
      (e.tableInside group q row.group).IsCut q.window (table row.group) ∧
        (e.readerInside group).group row.group q = pure (e.tableInside group q row.group) :=
    fun row hrow => isCut_tableInside hconsistent (h.stored row hrow) (h.tables row hrow) group
  -- The groups are read in the window, and then every combination is from them.
  have hknown : e.Answers ((e.rowsFor binding t).foldlM (addScenarios (e.readerInside group) q)
      ⟨.empty, .empty⟩) (scenariosOf (e.tableInside group q) (e.rowsFor binding t)) :=
    answers_foldlM_addScenarios (fun row hrow => (hgroups row hrow).2 ▸ answers_pure _)
      fun _ _ hf => by cases hf
  have hfamilies : (scenariosOf (e.tableInside group q) (e.rowsFor binding t)).families =
      (scenariosOf table (e.rowsFor binding t)).families :=
    families_congr rfl fun row hrow => (hgroups row hrow).1.columnNames
  obtain ⟨columns, m, m', hm, hcolumns, hframe⟩ := h.exists_columns he hknown
  rw [hfamilies] at hcolumns
  have hvalues := (forall₂_of_gives_mapM_of (J := e.IsClosed)
    (P := fun choice column => ∃ s, Gives (evaluate e.registry
      (e.asStored (boundTo table (e.rowsFor binding t) choice)) t q) () (.series s) () ∧
      column = s.withName choice.label) (fun _ _ _ _ _ hm hcolumn => value_of_readCombination
        hconsistent (h.nodes hconsistent) hlook (fun row hrow => (hgroups row hrow).1) hm hcolumn)
      hm hcolumns).1
  obtain ⟨column, hmem, s, hs, rfl⟩ := Result.exists_of_mem_left hvalues hchoice
  obtain ⟨shown, hshown, hpoints, hstamps⟩ := Frame.column?_of_ofSeries? hframe hmem
  exact ⟨s, shown, hs, hshown, hpoints, hstamps⟩

/-! ### Groups within the window, and around it -/

variable (e) in
/-- The table of a group over all value dates at a revision. -/
def tableAt (revision : Option InsertionDate) (name : String) : Frame :=
  ((e.readTable name ⟨revision, .unbounded⟩).toOption.join).getD .empty

variable (e) in
/-- Whether what can be computed of a bound group says that it is read from stored groups. -/
def ComputesFrom (group : String) (q : Query) (binding : Binding) (t : Tree) : Prop :=
  e.bindings.find? group = some binding ∧
    (e.formulaTree? binding.formula).toOption = some (some t) ∧
    (e.expand binding.seriesNames t).toOption = some t ∧
    ∀ row ∈ e.rowsFor binding t, e.store.containsGroup row.group = true ∧
      (e.readTable row.group ⟨q.revision, .unbounded⟩).toOption.join.isSome = true

instance : Decidable (e.ComputesFrom group q binding t) :=
  inferInstanceAs (Decidable (_ ∧ _ ∧ _ ∧ _))

theorem isReadFrom_of_computed (h : e.ComputesFrom group q binding t)
    (hread : e.readTable group q = .ok (some f)) :
    e.IsReadFrom group q binding t (e.tableAt q.revision) f := by
  obtain ⟨hbound, hformula, hexpand, hrows⟩ := h
  refine ⟨hbound, ⟨t, Result.ok_of_toOption hformula, Result.ok_of_toOption hexpand⟩,
    fun row hrow => (hrows row hrow).1, fun row hrow => ?_, hread⟩
  obtain ⟨g, hg⟩ := Result.exists_ok_some (hrows row hrow).2
  rw [tableAt, hg]
  rfl

/-- What a reading without memory gives, if it can be computed. -/
theorem gives_of_computed {α : Type} {x : Reading Unit α} {a : α}
    (h : (x.run ()).1.toOption = some a) : Gives x () a () :=
  Prod.ext (Result.ok_of_toOption h) (Subsingleton.elim _ _)

/-- An engine with a group of two hours, on both sides of a midnight of universal time, in two
scenarios, a series with a value at this midnight, and a formula of both that the group is bound
to. -/
def aroundMidnight (text : String) : Engine :=
  (overNothing .initial).performAll [
    .updateGroup "temperature" ⟨⟨[(dayOf2024 1).shift (.seconds (-3600)), dayOf2024 1]⟩,
      [("cold", [1.0, 2.0]), ("mild", [3.0, 4.0])]⟩ (dayOf2024 0),
    .updateSeries "u" (.ofPoints "u" [(dayOf2024 1, 10.0)]) (dayOf2024 0) false,
    .registerFormula "f" text ⟨some false, false⟩,
    .registerBinding "g" "f" [⟨"t", "temperature", "weather"⟩]]

theorem reachable_aroundMidnight (text : String) : (aroundMidnight text).Reachable :=
  (reachable_overNothing rfl).performAll _

/-- What the group is bound to. -/
def midnightBinding : Binding := ⟨"f", [⟨"t", "temperature", "weather"⟩]⟩

/-- The query from midnight on. -/
def fromMidnight : Query := ⟨none, ⟨some (dayOf2024 1), none⟩⟩

/-- The sum of what is bound and a stored series. -/
def sumOfBound : Tree :=
  .list [.symbol "add", .list [.symbol "series", .str "t"], .list [.symbol "series", .str "u"]]

/-- What is bound by the clocks of Paris, or else a stored series. -/
def clocksOfParis : Tree :=
  .list [.symbol "priority",
    .list [.symbol "naive", .list [.symbol "series", .str "t"], .str "Europe/Paris"],
    .list [.symbol "series", .str "u"]]

/-- The scenario of mild weather. -/
def mild : Combination := ⟨[("weather", "mild")]⟩

/-- A sum from midnight on has a column for mild weather, as if the temperature were stored. -/
theorem column?_bound_sumOfBound :
    let e := aroundMidnight "(add (series \"t\") (series \"u\"))"
    let rows := e.rowsFor midnightBinding sumOfBound
    ∃ f s column, e.IsReadFrom "g" fromMidnight midnightBinding sumOfBound (e.tableAt none) f ∧
      mild ∈ combinations (scenariosOf (e.tableAt none) rows).families ∧
      Gives (evaluate e.registry (e.asStored (boundTo (e.tableAt none) rows mild)) sumOfBound
        fromMidnight) () (.series s) () ∧
      f.column? mild.label = some column ∧ column.points = (s.reindex f.index).points := by
  let e := aroundMidnight "(add (series \"t\") (series \"u\"))"
  have hcomputed : e.ComputesFrom "g" fromMidnight midnightBinding sumOfBound ∧
      (e.readTable "g" fromMidnight).toOption.join.isSome = true ∧
      mild ∈ combinations (scenariosOf (e.tableAt none)
        (e.rowsFor midnightBinding sumOfBound)).families ∧
      ∀ u ∈ sumOfBound.nodes, ¬ u.LooksBeyond midnightBinding.seriesNames := by
    decide +kernel
  obtain ⟨hfrom, hread, hmild, hlook⟩ := hcomputed
  obtain ⟨f, hf⟩ := Result.exists_ok_some hread
  obtain ⟨s, column, hs, hcolumn, hpoints, -⟩ := column?_bound (reachable_aroundMidnight _)
    (isReadFrom_of_computed hfrom hf) (Or.inr hlook) hmild
  exact ⟨f, s, column, isReadFrom_of_computed hfrom hf, hmild, hs, hcolumn, hpoints⟩

/-- **What clocks show of the time before the window is not there**: the hour before midnight of
universal time is shown at midnight by the clocks of Paris, but the bound group has the other series
there. -/
theorem column?_ne_clocksOfParis :
    let e := aroundMidnight "(priority (naive (series \"t\") \"Europe/Paris\") (series \"u\"))"
    let rows := e.rowsFor midnightBinding clocksOfParis
    e.Reachable ∧ ∃ f s column,
      e.IsReadFrom "g" fromMidnight midnightBinding clocksOfParis (e.tableAt none) f ∧
      mild ∈ combinations (scenariosOf (e.tableAt none) rows).families ∧
      Gives (evaluate e.registry (e.asStored (boundTo (e.tableAt none) rows mild)) clocksOfParis
        fromMidnight) () (.series s) () ∧
      f.column? mild.label = some column ∧ column.points ≠ (s.reindex f.index).points := by
  let e := aroundMidnight "(priority (naive (series \"t\") \"Europe/Paris\") (series \"u\"))"
  let rows := e.rowsFor midnightBinding clocksOfParis
  let stored := evaluate e.registry (e.asStored (boundTo (e.tableAt none) rows mild)) clocksOfParis
    fromMidnight
  -- Whether the other series' value is shown, in the column and in the value.
  have hcomputed : e.ComputesFrom "g" fromMidnight midnightBinding clocksOfParis ∧
      mild ∈ combinations (scenariosOf (e.tableAt none) rows).families ∧
      ((e.readTable "g" fromMidnight).toOption.join.bind fun f =>
        (stored.run ()).1.toOption.bind fun v => (v.asSeries "f").toOption.bind fun s =>
          (f.column? mild.label).map fun column => (column.points.any fun p => p.2 == 10.0,
            (s.reindex f.index).points.any fun p => p.2 == 10.0)) = some (true, false) := by
    decide +kernel
  obtain ⟨hfrom, hmild, hshown⟩ := hcomputed
  obtain ⟨f, hf, hshown⟩ := Option.bind_eq_some_iff.1 hshown
  obtain ⟨v, hv, hshown⟩ := Option.bind_eq_some_iff.1 hshown
  obtain ⟨s, hs, hshown⟩ := Option.bind_eq_some_iff.1 hshown
  obtain ⟨column, hcolumn, hshown⟩ := Option.map_eq_some_iff.1 hshown
  obtain ⟨hten, hnoTen⟩ := Prod.mk.inj hshown
  have hread : e.readTable "g" fromMidnight = .ok (some f) :=
    Result.ok_of_toOption (Option.join_eq_some_iff.1 hf)
  have hvalue : Gives stored () (.series s) () := by
    cases v with
    | series r =>
      obtain rfl := Option.some.inj hs
      exact gives_of_computed hv
    | _ => cases hs
  refine ⟨reachable_aroundMidnight _, f, s, column, isReadFrom_of_computed hfrom hread, hmild,
    hvalue, hcolumn, fun heq => ?_⟩
  rw [heq, hnoTen] at hten
  cases hten

end Engine

end SeriesAlgebra
