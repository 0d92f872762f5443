import SeriesAlgebra.Analysis.Awareness
import SeriesAlgebra.Analysis.References
import SeriesAlgebra.Binding.Basic
import SeriesAlgebra.Engine.Config
import SeriesAlgebra.Engine.Source
import SeriesAlgebra.Formula.Expansion
import SeriesAlgebra.Formula.Reading
import SeriesAlgebra.Formula.Writing
import SeriesAlgebra.Store.Basic

/-!
# The engine

The engine gives names to formulas over a store. A formula is read like a stored
series; a **group formula** gives a table, and is read like a stored group; a
**binding** makes a group of a formula. Formulas are kept as text and read back
whenever they are needed.

An engine is a value. A call that changes it gives a new engine and an answer, which
may be an error (`Outcome`); everything the engine decided is in its ledger.
-/

namespace SeriesAlgebra

/-- A formula under its name, with its metadata. -/
structure FormulaRecord where
  name : String
  text : String
  metadata : Metadata

/-- Named formulas over a store. -/
structure Engine where
  config : Config
  registry : Registry
  store : Store
  formulas : OrderedMap String FormulaRecord
  groupFormulas : OrderedMap String FormulaRecord
  /-- The bindings, by the name of the group that each makes. -/
  bindings : OrderedMap String Binding
  sources : List Source
  ledger : Ledger

/-- What a call leaves behind: the engine after it, and its answer. -/
structure Outcome (α : Type) where
  engine : Engine
  answer : Except EngineError α

/-- What a series can be. -/
inductive SeriesType
  | primary
  | formula
  deriving DecidableEq, Repr

/-- What a group can be. -/
inductive GroupType
  | primary
  | formula
  | bound
  deriving DecidableEq, Repr

namespace Engine

/-- **An engine over a store**, without formulas yet. Its settings must be valid. -/
def create (store : Store) (config : Config) (registry : Registry) : Except ConfigError Engine := do
  return ⟨← config.validate, registry, store, .empty, .empty, .empty, [], []⟩

/-- The engine with one more source, to be asked last. -/
def addSource (e : Engine) (source : Source) : Engine :=
  { e with sources := e.sources ++ [source] }

/-- The engine with one more record in its ledger. -/
def note (e : Engine) (record : LedgerRecord) : Engine :=
  { e with ledger := e.ledger ++ [record] }

/-! ### What there is -/

/-- The first source that has a series. -/
def sourceOf? (e : Engine) (name : String) : Option Source := findSource? e.sources name

/-- Whether a series is known, here or to a source. -/
def contains (e : Engine) (name : String) : Bool :=
  e.formulas.contains name || e.store.contains name || (e.sourceOf? name).isSome

/-- What the series of a name is here. -/
def typeOf? (e : Engine) (name : String) : Option SeriesType :=
  if e.formulas.contains name then some .formula
  else if e.store.contains name then some .primary
  else none

/-- What the group of a name is. -/
def groupTypeOf? (e : Engine) (name : String) : Option GroupType :=
  if e.bindings.contains name then some .bound
  else if e.groupFormulas.contains name then some .formula
  else if e.store.containsGroup name then some .primary
  else none

/-- Whether there is a group of a name. -/
def containsGroup (e : Engine) (name : String) : Bool := (e.groupTypeOf? name).isSome

/-! ### Formulas -/

/-- The tree of a formula that is kept as text. -/
def treeOf? (record : Option FormulaRecord) : Except TreeError (Option Tree) :=
  match record with
  | none => .ok none
  | some record => (Tree.parse record.text).map some

/-- The tree of the formula of a name. -/
def formulaTree? (e : Engine) (name : String) : Except TreeError (Option Tree) :=
  treeOf? (e.formulas.find? name)

/-- The tree of the group formula of a name. -/
def groupTree? (e : Engine) (name : String) : Except TreeError (Option Tree) :=
  treeOf? (e.groupFormulas.find? name)

/-- A formula in which all formulas it refers to are inlined, except those to stop at. -/
def expand (e : Engine) (stop : List String) (t : Tree) : Except EngineError Tree :=
  (t.expand e.formulaTree? stop e.config.maxDepth).mapError .tree

/-- The text of a formula with the formulas it refers to inlined, except those to stop at. -/
def expandedFormula (e : Engine) (name : String) (stop : List String) :
    Except EngineError (Option String) := do
  match ← (e.formulaTree? name).mapError EngineError.tree with
  | none => return none
  | some t => return some (← e.expand stop t).text

/-- The text of a formula, as it is or expanded. -/
def formula (e : Engine) (name : String) (expanded : Bool) :
    Except EngineError (Option String) :=
  match e.formulas.find? name with
  | some record => if expanded then e.expandedFormula name [] else .ok (some record.text)
  | none =>
    if e.store.contains name then .ok none
    else match e.sourceOf? name with
      | some source => source.formula? name expanded
      | none => .ok none

/-- The text of a group formula. -/
def groupFormula (e : Engine) (name : String) : Option String :=
  (e.groupFormulas.find? name).map (·.text)

/-! ### Metadata -/

/-- The metadata of a series. -/
def metadata (e : Engine) (name : String) : Except EngineError (Option Metadata) :=
  match e.formulas.find? name, e.store.aware? name, e.sourceOf? name with
  | some record, _, _ => .ok (some record.metadata)
  | none, some aware, _ => .ok (some (Metadata.initial aware))
  | none, none, some source => source.metadata? name
  | none, none, none => .ok none

/-- Whether a series is aware of time zones, as far as its metadata tell. -/
def aware? (e : Engine) (name : String) : Option Bool :=
  match e.formulas.find? name, e.store.aware? name, e.sourceOf? name with
  | some record, _, _ => record.metadata.aware?
  | none, some aware, _ => some aware
  | none, none, some source => (source.metadata? name).toOption.join.bind Metadata.aware?
  | none, none, none => none

/-! ### Components -/

/-- A reference of a formula as a component. Local formulas are broken down if asked for, by
`breakDown`, and series of other sources always. -/
def component (e : Engine) (breakDown : String → Except EngineError (Option Component))
    (expanded : Bool) (name : String) : Except EngineError Component :=
  let orSeries (c : Except EngineError (Option Component)) : Except EngineError Component :=
    c.map (·.getD (.series name))
  if e.formulas.contains name then
    if expanded then orSeries (breakDown name) else .ok (.series name)
  else if e.store.contains name then .ok (.series name)
  else match e.sourceOf? name with
    | some source => orSeries (source.components? name expanded)
    | none => .ok (.series name)

/-- The components of a formula, with a number of levels allowed. -/
def componentsWithin (e : Engine) (expanded : Bool) :
    Nat → String → Except EngineError (Option Component)
  | 0, _ => .error (.tree (.tooDeep e.config.maxDepth))
  | levels + 1, name => do
    match ← (e.formulaTree? name).mapError EngineError.tree with
    | some t =>
      let parts ← (t.seriesReferences e.registry).mapM
        (e.component (e.componentsWithin expanded levels) expanded)
      return some (.formula name parts)
    | none =>
      if e.store.contains name then return none
      else match e.sourceOf? name with
        | some source => source.components? name expanded
        | none => return none

/-- **The series a formula reads**, formulas among them broken down if asked for. -/
def components (e : Engine) (name : String) (expanded : Bool) :
    Except EngineError (Option Component) :=
  e.componentsWithin expanded (e.config.maxDepth + 1) name

end Engine

end SeriesAlgebra
