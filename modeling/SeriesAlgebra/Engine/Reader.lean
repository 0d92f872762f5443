import SeriesAlgebra.Engine.Basic
import SeriesAlgebra.Evaluation.Interpreter

/-!
# Reading series and groups

A formula is read by evaluating it, and the formulas it refers to are evaluated in
turn where they stand. A **reader** is the resolver that does so. It keeps the path of
names being read: a name that is already on the path closes a cycle, and there may be
only so many names on it. So readers go down the levels that are left
(`Engine.readerBelow`), and reading always ends.

A reader remembers the series it has read, by name and query, for the length of one
call. A remembered series is answered without a look at the path.

A bound group is read by evaluating its formula once for every combination of
scenarios, with bound series standing for columns of their groups
(`Engine.readBoundGroup`).
-/

namespace SeriesAlgebra

/-- The series read so far. -/
abbrev Memo := List ((String × Query) × Series)

namespace Memo

/-- A series that is computed only if it was not read before. -/
def remember (key : String × Query) (compute : Reading Memo Series) : Reading Memo Series := do
  let memo : Memo ← get
  match memo.lookup key with
  | some s => return s
  | none =>
    let s ← compute
    modify fun memo => (key, s) :: memo
    return s

end Memo

namespace Engine

variable {σ : Type}

open Evaluation

/-! ### Series -/

/-- A series that is no formula, from the store or from a source. -/
def readPrimary (e : Engine) (name : String) (query : Query) : Except EngineError Series :=
  match e.store.read? name query with
  | some s => .ok s
  | none =>
    match e.sourceOf? name with
    | none => .error (.unknownName name)
    | some source => do
      match ← source.read? name query with
      | some s => return s
      | none => throw (.unknownName name)

/-- A series or formula; `enter` gives the reader for what a formula refers to. -/
def readSeries (e : Engine) (enter : String → Except EngineError (Resolver σ)) (name : String)
    (query : Query) : Reading σ Series := do
  match ← settle ((e.formulaTree? name).mapError EngineError.tree) with
  | none => settle (e.readPrimary name query)
  | some t =>
    let below ← settle (enter name)
    let v ← evaluate e.registry below t query
    return (← settle (v.asSeries name)).withName name

/-! ### Bound groups -/

/-- The tables of the groups that a binding reads, and the scenarios of its families. -/
structure Scenarios where
  tables : OrderedMap String Frame
  families : OrderedMap String (List String)

/-- The table of the group of a row, and the scenarios of its family, unless they are known. -/
def addScenarios (reader : Resolver σ) (query : Query) (known : Scenarios) (row : BindingRow) :
    Reading σ Scenarios := do
  let table ← match known.tables.find? row.group with
    | some table => pure table
    | none => reader.group row.group query
  return {
    tables := known.tables.insert row.group table
    families :=
      if known.families.contains row.family then known.families
      else known.families.insert row.family table.columnNames }

/-- The column that a row stands for in a combination of scenarios. -/
def boundColumn (known : Scenarios) (choice : Combination) (row : BindingRow) :
    Except EngineError (String × Series) :=
  let scenario := (choice.scenario? row.family).getD ""
  match (known.tables.find? row.group).bind (·.column? scenario) with
  | some column => .ok (row.series, column.withName row.series)
  | none => .error (.missingScenario row.group scenario)

/-- The reader for which some names stand for given series. -/
def withBound (reader : Resolver σ) (bound : OrderedMap String Series) : Resolver σ where
  series name query :=
    match bound.find? name with
    | some s => pure (s.window query.window)
    | none => reader.series name query
  group := reader.group
  autotrophic := Resolver.noAutotrophic

/-- The column of a bound group for one combination of scenarios. -/
def readCombination (e : Engine) (reader : Resolver σ) (binding : Binding) (t : Tree)
    (rows : List BindingRow) (known : Scenarios) (query : Query) (choice : Combination) :
    Reading σ Series := do
  let bound ← settle (rows.mapM (boundColumn known choice))
  let v ← evaluate e.registry (withBound reader (.ofList bound)) t query
  return (← settle (v.asSeries binding.formula)).withName choice.label

/-- **A bound group**: the formula once for every combination of scenarios. -/
def readBoundGroup (e : Engine) (reader : Resolver σ) (binding : Binding) (query : Query) :
    Reading σ Frame := do
  match ← settle ((e.formulaTree? binding.formula).mapError EngineError.tree) with
  | none => throw (.notAFormula binding.formula)
  | some t =>
    let t ← settle (e.expand binding.seriesNames t)
    let referenced := t.seriesReferences e.registry
    let rows := binding.rows.filter fun row => referenced.contains row.series
    let known ← rows.foldlM (addScenarios reader query) ⟨.empty, .empty⟩
    if known.families.isEmpty then throw (.noGroupMappings binding.formula)
    let columns ← (combinations known.families).mapM
      (e.readCombination reader binding t rows known query)
    settle ((Frame.ofSeries? columns).mapError .frame)

/-! ### Groups -/

/-- The name of a group on the path of names being read. -/
def groupLabel (name : String) : String := "group " ++ name

/-- A group, group formula or bound group; `enter` gives the reader for what it refers to. -/
def readGroup (e : Engine) (enter : String → Except EngineError (Resolver σ)) (name : String)
    (query : Query) : Reading σ Frame := do
  match ← settle ((e.groupTree? name).mapError EngineError.tree) with
  | some t =>
    let below ← settle (enter (groupLabel name))
    let v ← evaluate e.registry below t query
    settle (v.asTable name)
  | none =>
    match e.bindings.find? name with
    | some binding =>
      let below ← settle (enter (groupLabel name))
      e.readBoundGroup below binding query
    | none =>
      match e.store.readGroup? name query with
      | some table => return table
      | none => throw (.unknownGroup name)

/-! ### Readers -/

/-- The reader that enters formulas in a given way. -/
def readerEntering (e : Engine) (enter : String → Except EngineError (Resolver Memo)) :
    Resolver Memo where
  series name query := Memo.remember (name, query) (e.readSeries enter name query)
  group := e.readGroup enter
  autotrophic := Resolver.noAutotrophic

/-- The reader below a path of names being read, with a number of levels left. -/
def readerBelow (e : Engine) : Nat → List String → Resolver Memo
  | 0, path => e.readerEntering fun label =>
      if path.contains label then .error (.tree (.cycle (path ++ [label])))
      else .error (.tree (.tooDeep e.config.maxDepth))
  | levels + 1, path => e.readerEntering fun label =>
      if path.contains label then .error (.tree (.cycle (path ++ [label])))
      else .ok (readerBelow e levels (path ++ [label]))

/-- **The reader of an engine.** -/
def reader (e : Engine) : Resolver Memo := e.readerBelow e.config.maxDepth []

/-- The answer of a reading that remembers nothing at first. -/
def answerOf {α : Type} (reading : Reading Memo α) : Except EngineError α := (reading.run []).1

/-- **Reading a series**: a formula, a stored series, or one of a source. -/
def read (e : Engine) (name : String) (query : Query) : Except EngineError (Option Series) :=
  if e.formulas.contains name then (answerOf (e.reader.series name query)).map some
  else match e.store.read? name query with
    | some s => .ok (some s)
    | none =>
      match e.sourceOf? name with
      | some source => source.read? name query
      | none => .ok none

/-- **Reading a group**: a bound group, a group formula, or a stored group. -/
def readTable (e : Engine) (name : String) (query : Query) : Except EngineError (Option Frame) :=
  if e.containsGroup name then (answerOf (e.reader.group name query)).map some
  else .ok none

end Engine

end SeriesAlgebra
