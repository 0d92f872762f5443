import SeriesAlgebra.Engine.Registration
import SeriesAlgebra.Formula.Rename

/-!
# Updating, renaming and deleting

Stored series and groups are updated, renamed and deleted through the engine, which
keeps formulas and store apart: a formula cannot be updated with values. Renaming a
series changes every formula that refers to it, and is refused if the new name is
taken or already referred to. Deleting a formula deletes its bindings too.

Each of these calls changes nothing but the ledger if it fails.
-/

namespace SeriesAlgebra

namespace Engine

/-! ### Updates -/

/-- **An update of a stored series**; the answer is its effect, if it has one. -/
def updateSeries (e : Engine) (name : String) (update : Series) (date : InsertionDate)
    (aware : Bool) : Outcome (Option Series) :=
  if e.formulas.contains name then ⟨e, .error (.formulaUpdate name)⟩
  else match e.store.update name update date aware with
    | .error cause => ⟨e, .error (.store cause)⟩
    | .ok (effect, store) => ⟨{ e with store := store }, .ok effect⟩

/-- An update of a stored group. -/
def updateGroup (e : Engine) (name : String) (table : Frame) (date : InsertionDate) :
    Outcome Unit :=
  if e.groupFormulas.contains name || e.bindings.contains name then
    ⟨e, .error (.formulaUpdate name)⟩
  else match e.store.updateGroup name table date with
    | .error cause => ⟨e, .error (.store cause)⟩
    | .ok store => ⟨{ e with store := store }, .ok ()⟩

/-- An update of the user's metadata of a formula. -/
def updateMetadata (e : Engine) (name : String) (updates : Metadata) : Outcome Unit :=
  match e.formulas.find? name with
  | none => ⟨e, .error (.notAFormula name)⟩
  | some record =>
    match record.metadata.update updates with
    | .error cause => ⟨e, .error cause⟩
    | .ok metadata =>
      ⟨{ e with formulas := e.formulas.insert name { record with metadata := metadata } }, .ok ()⟩

/-! ### Renaming -/

/-- A formula with its tree and the series it refers to. -/
structure ReadRecord where
  name : String
  tree : Tree
  references : List String

/-- The formulas of a map with their trees. -/
def readRecords (e : Engine) (records : OrderedMap String FormulaRecord) :
    Except TreeError (List ReadRecord) :=
  records.values.mapM fun record =>
    (Tree.parse record.text).map fun t => ⟨record.name, t, t.seriesReferences e.registry⟩

/-- The records in which the formulas that refer to a series call it by its new name. -/
def renameReferences (old new : String) (read : List ReadRecord)
    (records : OrderedMap String FormulaRecord) : OrderedMap String FormulaRecord :=
  (read.filter (·.references.contains old)).foldl (fun records r =>
    records.modify r.name fun record =>
      { record with text := (r.tree.renameSeries old new).text }) records

/-- The binding in which a series has another name. -/
def renameInBinding (old new : String) (b : Binding) : Binding where
  formula := if b.formula = old then new else b.formula
  rows := b.rows.map fun row => if row.series = old then { row with series := new } else row

/-- The formulas in which the record of a name has moved to another, if there is one. -/
def moveRecord (old new : String) (records : OrderedMap String FormulaRecord) :
    OrderedMap String FormulaRecord :=
  match records.find? old with
  | some record => (records.erase old).insert new { record with name := new }
  | none => records

/-- The store and the formulas after the series itself has its new name. -/
def moveSeries (e : Engine) (old new : String) :
    Except StoreError (Store × OrderedMap String FormulaRecord) :=
  if e.store.contains old then (e.store.rename old new).map fun store => (store, e.formulas)
  else .ok (e.store, moveRecord old new e.formulas)

/-- Renaming once names and references are known to be free. -/
def renameChecked (e : Engine) (old new : String) (formulas groups : List ReadRecord) :
    Outcome Unit :=
  match e.moveSeries old new with
  | .error cause => ⟨e, .error (.store cause)⟩
  | .ok (store, moved) =>
    let e := { e with
      store := store
      formulas := renameReferences old new formulas moved
      groupFormulas := renameReferences old new groups e.groupFormulas
      bindings := e.bindings.mapValues fun _ => renameInBinding old new }
    ⟨e.accept .renamed old ("renamed to " ++ new), .ok ()⟩

/-- **Renaming a series or a formula**, and every reference to it. -/
def rename (e : Engine) (old new : String) : Outcome Unit :=
  if !e.store.contains old && !e.formulas.contains old then ⟨e, .error (.unknownName old)⟩
  else if old = new then ⟨e, .ok ()⟩
  else if e.store.contains new || e.formulas.contains new then
    e.refuse .renameConflict old (.nameTaken new)
  else match e.readRecords e.formulas, e.readRecords e.groupFormulas with
    | .error cause, _ => ⟨e, .error (.tree cause)⟩
    | .ok _, .error cause => ⟨e, .error (.tree cause)⟩
    | .ok formulas, .ok groups =>
      match ((formulas ++ groups).filter (·.references.contains new)).map (·.name) with
      | [] => e.renameChecked old new formulas groups
      | referencedBy => e.refuse .renameConflict old (.renameConflict new referencedBy)

/-! ### Deleting -/

/-- **Deleting a formula** and its bindings, or a stored series. -/
def delete (e : Engine) (name : String) : Outcome Unit :=
  if e.formulas.contains name then
    let e := { e with
      formulas := e.formulas.erase name
      bindings := e.bindings.filter fun _ b => b.formula ≠ name }
    ⟨e.accept .deleted name "series", .ok ()⟩
  else match e.store.delete name with
    | .error cause => ⟨e, .error (.store cause)⟩
    | .ok store => ⟨{ e with store := store }.accept .deleted name "series", .ok ()⟩

/-- **Deleting a binding, a group formula or a stored group.** -/
def deleteGroup (e : Engine) (name : String) : Outcome Unit :=
  if e.bindings.contains name then
    ⟨{ e with bindings := e.bindings.erase name }.accept .deleted name "group", .ok ()⟩
  else if e.groupFormulas.contains name then
    ⟨{ e with groupFormulas := e.groupFormulas.erase name }.accept .deleted name "group", .ok ()⟩
  else match e.store.deleteGroup name with
    | .error cause => ⟨e, .error (.store cause)⟩
    | .ok store => ⟨{ e with store := store }.accept .deleted name "group", .ok ()⟩

end Engine

end SeriesAlgebra
