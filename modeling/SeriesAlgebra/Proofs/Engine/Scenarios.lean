import SeriesAlgebra.Proofs.Binding.Combinations
import SeriesAlgebra.Proofs.Engine.Memory
import SeriesAlgebra.Proofs.Engine.Names
import SeriesAlgebra.Proofs.Frame.Columns

/-!
# One column for each combination of scenarios

A bound group that has all it is read from (`Engine.IsSupplied`) is read if and only if the
combinations of scenarios have different labels, and then it has one column for each of them
(`Engine.readTable_bound`). Labels differ if no scenario has a hyphen in its name
(`nodup_labels`); but a label does not say where one scenario ends and the next begins, so
scenarios with hyphens may make a bound group that cannot be read
(`Engine.not_readTable_hyphened`).
-/

namespace SeriesAlgebra

open Evaluation Reading Comparison

namespace Engine

variable {table : String → Frame} {known : Scenarios} {rows : List BindingRow} {choice : Combination}

/-! ### Scenarios -/

/-- The tables and scenarios that are known after another row, whose group has a given table. -/
def addRow (table : String → Frame) (known : Scenarios) (row : BindingRow) : Scenarios where
  tables := known.tables.insert row.group (table row.group)
  families :=
    if known.families.contains row.family then known.families
    else known.families.insert row.family (table row.group).columnNames

/-- **The scenarios of rows** whose groups have given tables. -/
def scenariosOf (table : String → Frame) (rows : List BindingRow) : Scenarios :=
  rows.foldl (addRow table) ⟨.empty, .empty⟩

/-- The columns that rows stand for in a combination of scenarios, by the names of their series. -/
def boundTo (table : String → Frame) (rows : List BindingRow) (choice : Combination) :
    OrderedMap String Series :=
  .ofList <| rows.filterMap fun row =>
    ((table row.group).column? ((choice.scenario? row.family).getD "")).map fun column =>
      (row.series, column.withName row.series)

theorem find?_tables_foldl {group : String}
    (h : (∃ row ∈ rows, row.group = group) ∨ known.tables.find? group = some (table group)) :
    (rows.foldl (addRow table) known).tables.find? group = some (table group) := by
  induction rows generalizing known with
  | nil => exact h.resolve_left nofun
  | cons row rest ih =>
    refine ih ?_
    by_cases heq : row.group = group
    · subst heq
      exact Or.inr (OrderedMap.find?_insert_self _ _ _)
    · rcases h with ⟨r, hr, hgroup⟩ | hknown
      · refine Or.inl ⟨r, (List.mem_cons.1 hr).resolve_left ?_, hgroup⟩
        rintro rfl
        exact heq hgroup
      · exact Or.inr ((OrderedMap.find?_insert_of_ne _ (Ne.symm heq) _).trans hknown)

/-- The table of a row's group is known. -/
theorem find?_tables {row : BindingRow} (h : row ∈ rows) :
    (scenariosOf table rows).tables.find? row.group = some (table row.group) :=
  find?_tables_foldl (Or.inl ⟨row, h, rfl⟩)

theorem find?_families_addRow (known : Scenarios) (row : BindingRow) (family : String) :
    (addRow table known row).families.find? family = (known.families.find? family).or
      (if row.family = family then some (table row.group).columnNames else none) := by
  unfold addRow
  dsimp only
  cases hknown : known.families.find? family with
  | none =>
    split
    · rename_i hcontains
      rw [hknown, if_neg]
      · rfl
      · rintro rfl
        rw [OrderedMap.contains, hknown] at hcontains
        cases hcontains
    · by_cases heq : row.family = family
      · subst heq
        rw [OrderedMap.find?_insert_self, if_pos rfl]
        rfl
      · rw [OrderedMap.find?_insert_of_ne _ (Ne.symm heq), hknown, if_neg heq]
        rfl
  | some scenarios =>
    split
    · rw [hknown]
      rfl
    · rename_i hcontains
      rw [OrderedMap.find?_insert_of_ne, hknown]
      · rfl
      · rintro rfl
        exact hcontains (by rw [OrderedMap.contains, hknown]; rfl)

theorem find?_families_foldl (family : String) :
    (rows.foldl (addRow table) known).families.find? family = (known.families.find? family).or
      ((rows.find? (·.family = family)).map fun row => (table row.group).columnNames) := by
  induction rows generalizing known with
  | nil => exact (Option.or_none).symm
  | cons row rest ih =>
    rw [List.foldl_cons, ih, find?_families_addRow, List.find?_cons, Option.or_assoc]
    by_cases heq : row.family = family
    · simp [heq]
    · simp [heq]

/-- **The scenarios of a family** are the columns of the group of its first row. -/
theorem find?_families (table : String → Frame) (rows : List BindingRow) (family : String) :
    (scenariosOf table rows).families.find? family =
      (rows.find? (·.family = family)).map fun row => (table row.group).columnNames :=
  find?_families_foldl family

/-- A row's family has the columns of the group of a row of that family. -/
theorem exists_first (table : String → Frame) {row : BindingRow} (h : row ∈ rows) :
    ∃ first ∈ rows, first.family = row.family ∧
      (scenariosOf table rows).families.find? row.family = some (table first.group).columnNames := by
  obtain ⟨first, hfirst⟩ := Option.isSome_iff_exists.1
    (List.find?_isSome.2 ⟨row, h, decide_eq_true rfl⟩ : (rows.find? (·.family = row.family)).isSome)
  have hfamily := List.find?_some hfirst
  refine ⟨first, List.mem_of_find?_eq_some hfirst, of_decide_eq_true hfamily, ?_⟩
  rw [find?_families, hfirst]
  rfl

theorem isEmpty_families (h : rows ≠ []) : (scenariosOf table rows).families.isEmpty = false := by
  obtain ⟨row, hrow⟩ := List.exists_mem_of_ne_nil rows h
  obtain ⟨first, -, -, hfirst⟩ := exists_first table hrow
  exact List.isEmpty_eq_false_iff_exists_mem.2 ⟨_, OrderedMap.mem_of_find? hfirst⟩

/-- **Whether the groups of a family have the same scenarios.** -/
def SharesScenarios (table : String → Frame) (rows : List BindingRow) : Prop :=
  ∀ row ∈ rows, ∀ other ∈ rows, row.family = other.family →
    ∀ name, name ∈ (table row.group).columnNames ↔ name ∈ (table other.group).columnNames

/-- A row stands for a column in every combination of scenarios. -/
theorem exists_boundColumn (hshared : SharesScenarios table rows) {row : BindingRow}
    (hrow : row ∈ rows) (hchoice : choice ∈ combinations (scenariosOf table rows).families) :
    ∃ column, (table row.group).column? ((choice.scenario? row.family).getD "") = some column := by
  obtain ⟨first, hmem, hfamily, hfirst⟩ := exists_first table hrow
  obtain ⟨scenario, hcolumn, hscenario⟩ := exists_scenario hchoice hfirst
  rw [hscenario]
  exact Frame.exists_column? ((hshared first hmem row hrow hfamily scenario).1 hcolumn)

theorem mapM_boundColumn (hshared : SharesScenarios table rows)
    (hchoice : choice ∈ combinations (scenariosOf table rows).families) :
    ∃ bound, rows.mapM (boundColumn (scenariosOf table rows) choice) = .ok bound ∧
      OrderedMap.ofList bound = boundTo table rows choice := by
  refine ⟨_, Result.mapM_eq_ok fun row hrow => ?_, rfl⟩
  obtain ⟨column, hcolumn⟩ := exists_boundColumn hshared hrow hchoice
  refine ⟨(row.series, column.withName row.series), ?_, by rw [hcolumn]; rfl⟩
  unfold boundColumn
  rw [find?_tables hrow]
  dsimp only [Option.bind_some]
  rw [hcolumn]

/-! ### Reading -/

variable {e : Engine} {A : Resolver Memo} {q : Query}

theorem answers_addScenarios {row : BindingRow}
    (hgroup : e.Answers (A.group row.group q) (table row.group))
    (hknown : ∀ group f, known.tables.find? group = some f → f = table group) :
    e.Answers (addScenarios A q known row) (addRow table known row) := by
  unfold addScenarios
  dsimp only
  split
  · rename_i f hf
    rw [hknown _ f hf]
    exact answers_pure _
  · exact hgroup.bind (answers_pure _)

theorem answers_foldlM_addScenarios
    (hgroups : ∀ row ∈ rows, e.Answers (A.group row.group q) (table row.group))
    (hknown : ∀ group f, known.tables.find? group = some f → f = table group) :
    e.Answers (rows.foldlM (addScenarios A q) known) (rows.foldl (addRow table) known) := by
  induction rows generalizing known with
  | nil => exact answers_pure known
  | cons row rest ih =>
    refine (answers_addScenarios (hgroups row List.mem_cons_self) hknown).bind
      (ih (fun r hr => hgroups r (List.mem_cons_of_mem _ hr)) fun group f hf => ?_)
    by_cases heq : group = row.group
    · subst heq
      exact (Option.some.inj ((OrderedMap.find?_insert_self _ _ _).symm.trans hf)).symm
    · exact hknown group f ((OrderedMap.find?_insert_of_ne _ heq _).symm.trans hf)

variable (e) in
/-- The rows of a binding that a formula refers to. -/
def rowsFor (binding : Binding) (t : Tree) : List BindingRow :=
  binding.rows.filter fun row => (t.seriesReferences e.registry).contains row.series

variable (e) in
/-- The reader inside a bound group. -/
def readerInside (group : String) : Resolver Memo :=
  e.readerBelow (e.config.maxDepth - 1) [groupLabel group]

variable {group : String} {binding : Binding} {t₀ t : Tree}

/-- A bound group is read from the scenarios of the rows that its formula refers to. -/
theorem readBoundGroup_eq (hformula : e.formulaTree? binding.formula = .ok (some t₀))
    (hexpand : e.expand binding.seriesNames t₀ = .ok t) :
    e.readBoundGroup A binding q = (do
      let known ← (e.rowsFor binding t).foldlM (addScenarios A q) ⟨.empty, .empty⟩
      if known.families.isEmpty then throw (.noGroupMappings binding.formula)
      let columns ← (combinations known.families).mapM
        (e.readCombination A binding t (e.rowsFor binding t) known q)
      settle ((Frame.ofSeries? columns).mapError .frame)) := by
  unfold readBoundGroup
  rw [hformula]
  change settle (e.expand binding.seriesNames t₀) >>= _ = _
  rw [hexpand]
  rfl

/-- A bound group is read by the reader inside it. -/
theorem reader_group_bound (hdepth : e.config.maxDepth ≠ 0)
    (hgroup : e.groupFormulas.contains group = false)
    (hbinding : e.bindings.find? group = some binding) (q : Query) :
    e.reader.group group q = e.readBoundGroup (e.readerInside group) binding q := by
  obtain ⟨levels, hlevels⟩ := Nat.exists_eq_succ_of_ne_zero hdepth
  have htree : e.groupTree? group = .ok none := by
    unfold groupTree?
    rw [OrderedMap.contains_eq_false_iff.1 hgroup]
    rfl
  unfold reader readerInside
  rw [readerBelow_eq, hlevels, Nat.add_one_sub_one]
  change e.readGroup (e.enterBelow (levels + 1) []) group q = _
  unfold readGroup
  rw [htree, hbinding]
  rfl

/-! ### Columns -/

/-- **Whether a bound group has all it is read from**: its formula can be expanded and refers to a
series of some row, the groups of these rows can be read and have the same scenarios if they are of
one family, and the formula has a series as its value for every combination of scenarios. -/
structure IsSupplied (e : Engine) (group : String) (q : Query) (binding : Binding) (t : Tree)
    (table : String → Frame) : Prop where
  bound : e.bindings.find? group = some binding
  expands : ∃ t₀, e.formulaTree? binding.formula = .ok (some t₀) ∧
    e.expand binding.seriesNames t₀ = .ok t
  referenced : e.rowsFor binding t ≠ []
  groups : ∀ row ∈ e.rowsFor binding t,
    answerOf ((e.readerInside group).group row.group q) = .ok (table row.group)
  shared : SharesScenarios table (e.rowsFor binding t)
  values : ∀ choice ∈ combinations (scenariosOf table (e.rowsFor binding t)).families, ∃ s,
    answerOf (evaluate e.registry (withBound (e.readerInside group)
      (boundTo table (e.rowsFor binding t) choice)) t q) = .ok (.series s)

/-- A combination of scenarios has a column. -/
theorem IsSupplied.exists_column (h : e.IsSupplied group q binding t table)
    (hchoice : choice ∈ combinations (scenariosOf table (e.rowsFor binding t)).families) :
    ∃ column, e.Answers (e.readCombination (e.readerInside group) binding t (e.rowsFor binding t)
      (scenariosOf table (e.rowsFor binding t)) q choice) column ∧ column.name = choice.label := by
  obtain ⟨bound, hbound, heq⟩ := mapM_boundColumn h.shared hchoice
  obtain ⟨s, hs⟩ := h.values choice hchoice
  rw [← heq] at hs
  have hresolves := resolves_withBound (lockstep_readerBelow (e := e) (e.config.maxDepth - 1)
    [groupLabel group]) (.ofList bound)
  exact ⟨s.withName choice.label, (answers_settle hbound).bind
    ((answers_of_answerOf (hresolves.evaluate t q) hs).bind
      ((answers_settle rfl).bind (answers_pure _))), rfl⟩

/-- **A bound group is read if the columns that it should have make a table.** -/
theorem IsSupplied.exists_columns (h : e.IsSupplied group q binding t table)
    (hdepth : e.config.maxDepth ≠ 0) (hgroup : e.groupFormulas.contains group = false) :
    ∃ columns : List Series, columns.map Series.name =
        (combinations (scenariosOf table (e.rowsFor binding t)).families).map Combination.label ∧
      answerOf (e.reader.group group q) = (Frame.ofSeries? columns).mapError .frame := by
  obtain ⟨t₀, hformula, hexpand⟩ := h.expands
  obtain ⟨columns, hcolumns⟩ := Result.exists_forall₂ fun _ hchoice => h.exists_column hchoice
  refine ⟨columns, ?_, ?_⟩
  · exact (List.forall₂_eq_eq_eq ▸ List.forall₂_map_left_iff.2 (List.forall₂_map_right_iff.2
      (hcolumns.flip.imp fun _ _ hcolumn => hcolumn.2)))
  · rw [reader_group_bound hdepth hgroup h.bound, readBoundGroup_eq hformula hexpand]
    have hgroups : ∀ row ∈ e.rowsFor binding t,
        e.Answers ((e.readerInside group).group row.group q) (table row.group) := fun row hrow =>
      answers_of_answerOf ((lockstep_readerBelow _ _).group row.group q) (h.groups row hrow)
    have hknown : e.Answers ((e.rowsFor binding t).foldlM (addScenarios (e.readerInside group) q)
        ⟨.empty, .empty⟩) (scenariosOf table (e.rowsFor binding t)) :=
      answers_foldlM_addScenarios hgroups fun _ _ hf => by cases hf
    -- What is remembered grows from one combination to the next, and makes no difference.
    obtain ⟨memo, hmemo, hrun⟩ := hknown.run_bind _ isClosed_nil
    rw [answerOf, hrun, isEmpty_families h.referenced, if_neg Bool.false_ne_true]
    obtain ⟨memo', -, hrun'⟩ := (answers_mapM (hcolumns.imp fun _ _ hcolumn => hcolumn.1)).run_bind
      (fun columns => settle ((Frame.ofSeries? columns).mapError EngineError.frame)) hmemo
    refine (congrArg Prod.fst hrun').trans ?_
    cases (Frame.ofSeries? columns).mapError EngineError.frame <;> rfl

/-- Formulas may always nest. -/
theorem maxDepth_ne_zero_of_reaches {store : Store} {config : Config} {registry : Registry}
    {first : Engine} (hfirst : create store config registry = .ok first)
    (he : Reaches (fun _ _ => True) first e) : e.config.maxDepth ≠ 0 := by
  have hcreated : first.config.maxDepth ≠ 0 := by
    obtain ⟨c, hc, hfirst⟩ := Result.bind_ok hfirst
    obtain rfl := Except.ok.inj hfirst
    unfold Config.validate at hc
    split at hc
    · cases hc
    · rename_i hdepth
      exact Except.ok.inj hc ▸ hdepth
  refine Reaches.invariant (I := fun e => e.config.maxDepth ≠ 0) (fun _ _ h => h) (fun _ _ h => h)
    (fun _ _ _ _ heffect h => ?_) he hcreated
  rw [heffect.config]
  exact h

/-- **A bound group that has all it is read from has one column for each combination of scenarios**,
with names that differ, as far as the labels of the combinations do. If two combinations have one
label, it cannot be read. -/
theorem readTable_bound {store : Store} {config : Config} {registry : Registry} {first : Engine}
    (hfirst : create store config registry = .ok first) (he : Reaches (fun _ _ => True) first e)
    (h : e.IsSupplied group q binding t table) :
    let families := (scenariosOf table (e.rowsFor binding t)).families
    let labels := (combinations families).map Combination.label
    (labels.Nodup → ∃ f, e.readTable group q = .ok (some f) ∧ f.columnNames = labels ∧
      f.columnNames.Nodup ∧ f.columns.length = (families.values.map List.length).prod) ∧
    (¬ labels.Nodup → ∃ name, e.readTable group q = .error (.frame (.duplicateColumn name))) := by
  have hcontains : e.bindings.contains group = true := by
    rw [OrderedMap.contains, h.bound]
    rfl
  obtain ⟨columns, hnames, hanswer⟩ := h.exists_columns (maxDepth_ne_zero_of_reaches hfirst he)
    ((namesApart_of_reaches hfirst he).bindings group hcontains).2
  have hread : e.readTable group q = ((Frame.ofSeries? columns).mapError .frame).map some := by
    rw [readTable, if_pos, hanswer]
    unfold containsGroup groupTypeOf?
    rw [if_pos hcontains]
    rfl
  dsimp only
  rw [← hnames, hread]
  rcases Frame.ofSeries?_cases columns with ⟨hnodup, hf⟩ | ⟨hdup, name, hf⟩
  · rw [hf]
    have hfst := Frame.map_fst_columnsOver (.unionAll (columns.map Series.index)) columns
    refine ⟨fun _ => ⟨_, rfl, hfst, ?_, ?_⟩, absurd hnodup⟩
    · unfold Frame.columnNames
      rw [hfst]
      exact hnodup
    · have hlength := congrArg List.length hnames
      rw [List.length_map, List.length_map, length_combinations] at hlength
      rw [← hlength]
      exact List.length_map _
  · rw [hf]
    exact ⟨fun hnodup => absurd hnodup hdup, fun _ => ⟨name, rfl⟩⟩

/-! ### Labels that differ, and labels that do not -/

variable (e) in
/-- The table of a group, as it is read inside a bound group. -/
def tableInside (group : String) (q : Query) (name : String) : Frame :=
  (answerOf ((e.readerInside group).group name q)).toOption.getD .empty

/-- Groups of different families need not have the same scenarios. -/
theorem sharesScenarios_of_nodup (h : (rows.map (·.family)).Nodup) :
    SharesScenarios table rows := by
  intro row hrow other hother hfamily name
  rw [List.inj_on_of_nodup_map h hrow hother hfamily]

variable (e) in
/-- Whether what can be computed of a bound group says that it has all it is read from. -/
def ComputesSupplied (group : String) (q : Query) (binding : Binding) (t : Tree) : Prop :=
  e.bindings.find? group = some binding ∧
    (e.formulaTree? binding.formula).toOption = some (some t) ∧
    (e.expand binding.seriesNames t).toOption = some t ∧
    e.rowsFor binding t ≠ [] ∧ ((e.rowsFor binding t).map (·.family)).Nodup ∧
    (∀ row ∈ e.rowsFor binding t,
      (answerOf ((e.readerInside group).group row.group q)).toOption.isSome = true) ∧
    ∀ choice ∈ combinations (scenariosOf (e.tableInside group q) (e.rowsFor binding t)).families,
      (answerOf (evaluate e.registry (withBound (e.readerInside group)
        (boundTo (e.tableInside group q) (e.rowsFor binding t) choice)) t q)).toOption.any
          (fun v => (v.asSeries binding.formula).toOption.isSome) = true

instance : Decidable (e.ComputesSupplied group q binding t) :=
  inferInstanceAs (Decidable (_ ∧ _ ∧ _ ∧ _ ∧ _ ∧ _ ∧ _))

theorem isSupplied_of_computed (h : e.ComputesSupplied group q binding t) :
    e.IsSupplied group q binding t (e.tableInside group q) := by
  obtain ⟨hbound, hformula, hexpand, hreferenced, hfamilies, hgroups, hvalues⟩ := h
  refine ⟨hbound, ⟨t, Result.ok_of_toOption hformula, Result.ok_of_toOption hexpand⟩,
    hreferenced, fun row hrow => ?_, sharesScenarios_of_nodup hfamilies, fun choice hchoice => ?_⟩
  · obtain ⟨f, hf⟩ := Result.exists_ok (hgroups row hrow)
    rw [tableInside, hf]
    rfl
  · obtain ⟨v, hv, htag⟩ := Result.exists_ok_any (hvalues choice hchoice)
    cases v with
    | series s => exact ⟨s, hv⟩
    | _ => cases htag

/-- A table of ones with given columns. -/
def tableOfOnes (names : List String) : Frame :=
  ⟨⟨[dayOf2024 0]⟩, names.map fun name => (name, [1.0])⟩

/-- The calls that bind a sum of two series to two groups with given scenarios, of one family each. -/
def crossingCalls (prices temperatures : List String) : List Call :=
  [.updateGroup "price" (tableOfOnes prices) (dayOf2024 0),
    .updateGroup "temperature" (tableOfOnes temperatures) (dayOf2024 0),
    .registerFormula "f" "(add (series \"p\") (series \"t\"))" ⟨some false, false⟩,
    .registerBinding "g" "f" [⟨"p", "price", "market"⟩, ⟨"t", "temperature", "weather"⟩]]

/-- The engine after these calls. -/
def crossing (prices temperatures : List String) : Engine :=
  (overNothing .initial).performAll (crossingCalls prices temperatures)

theorem reaches_crossing (prices temperatures : List String) :
    Reaches (fun _ _ => True) (overNothing .initial) (crossing prices temperatures) :=
  Reaches.refl.performAll _ fun _ _ _ => trivial

/-- What the group is bound to. -/
def crossingBinding : Binding :=
  ⟨"f", [⟨"p", "price", "market"⟩, ⟨"t", "temperature", "weather"⟩]⟩

/-- The sum that is bound. -/
def crossingSum : Tree :=
  .list [.symbol "add", .list [.symbol "series", .str "p"], .list [.symbol "series", .str "t"]]

/-- Two scenarios of each family make four columns. -/
theorem readTable_bound_crossing :
    let e := crossing ["low", "high"] ["cold", "warm"]
    e.IsSupplied "g" .latest crossingBinding crossingSum (e.tableInside "g" .latest) ∧
      ∃ f, e.readTable "g" .latest = .ok (some f) ∧
        f.columnNames = ["low-cold", "low-warm", "high-cold", "high-warm"] := by
  let e := crossing ["low", "high"] ["cold", "warm"]
  have hcomputed : e.ComputesSupplied "g" .latest crossingBinding crossingSum ∧
      (combinations (scenariosOf (e.tableInside "g" .latest)
        (e.rowsFor crossingBinding crossingSum)).families).map Combination.label =
          ["low-cold", "low-warm", "high-cold", "high-warm"] := by
    decide +kernel
  obtain ⟨hsupplied, hlabels⟩ := hcomputed
  obtain ⟨f, hf, hnames, -⟩ := (readTable_bound (create_overNothing rfl)
    (reaches_crossing _ _) (isSupplied_of_computed hsupplied)).1 (by rw [hlabels]; decide)
  exact ⟨isSupplied_of_computed hsupplied, f, hf, hnames.trans hlabels⟩

/-- **Scenarios with hyphens may make a bound group that cannot be read**: here two combinations of
them have the label `a-b-c`. -/
theorem not_readTable_hyphened :
    let e := crossing ["a", "a-b"] ["b-c", "c"]
    Reaches (fun _ _ => True) (overNothing .initial) e ∧
      e.IsSupplied "g" .latest crossingBinding crossingSum (e.tableInside "g" .latest) ∧
      ¬ ∃ f, e.readTable "g" .latest = .ok (some f) := by
  let e := crossing ["a", "a-b"] ["b-c", "c"]
  have hcomputed : e.ComputesSupplied "g" .latest crossingBinding crossingSum ∧
      (e.readTable "g" .latest).toOption.isSome = false := by
    decide +kernel
  refine ⟨reaches_crossing _ _, isSupplied_of_computed hcomputed.1, ?_⟩
  obtain ⟨cause, hcause⟩ := Result.exists_error hcomputed.2
  rintro ⟨f, hf⟩
  cases hcause.symm.trans hf

end Engine

end SeriesAlgebra
