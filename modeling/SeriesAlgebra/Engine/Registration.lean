import SeriesAlgebra.Engine.Basic
import SeriesAlgebra.Typing.Inference

/-!
# Registering formulas

A formula is checked before it gets its name: its operators are known, its type is
right, it does not lead back to itself, the series and groups it refers to exist or
may be missing, and it does not mix awareness of time zones. The first check that
fails refuses the formula (`Engine.validate`), and the ledger says why. A text that is
no formula at all is refused without a record.

Registering changes nothing but the ledger if it fails.
-/

namespace SeriesAlgebra

/-- What a caller may ask for when a formula is registered. -/
structure RegisterOptions where
  /-- Whether references to unknown series are refused, if the policy is not to decide. -/
  rejectsUnknown : Option Bool
  /-- Whether a formula of the same name is replaced. -/
  replaces : Bool
  deriving DecidableEq, Repr

/-- The result of checking a formula: what goes into the ledger, and whether the formula is
accepted, with the awareness of its references. -/
structure Verdict where
  records : List LedgerRecord
  answer : Except EngineError (Option Bool)

namespace Engine

/-- The error of a check, with the kind of issue that goes into the ledger. -/
abbrev Check := Except (IssueKind × EngineError)

/-- A check whose error is an issue of a kind. -/
def ofKind {α : Type} (kind : IssueKind) (x : Except EngineError α) : Check α :=
  x.mapError fun e => (kind, e)

/-- The record of a refusal. -/
def refusal (e : Engine) (kind : IssueKind) (subject : String) (cause : EngineError) :
    LedgerRecord :=
  e.config.policy.record .reject kind subject cause.message

/-- The outcome of a call that is refused, with a record of it. -/
def refuse {α : Type} (e : Engine) (kind : IssueKind) (subject : String) (cause : EngineError) :
    Outcome α :=
  ⟨e.note (e.refusal kind subject cause), .error cause⟩

/-- The engine after a success, with a record of it. -/
def accept (e : Engine) (kind : IssueKind) (subject detail : String) : Engine :=
  e.note (e.config.policy.record .allow kind subject detail)

/-- The formula of a name as it will be when `pending` is registered under another. -/
def pendingTree? (e : Engine) (name : String) (pending : Tree) (expected : TypeTag)
    (asked : String) : Except TreeError (Option Tree) :=
  if asked = name ∧ expected = .series then .ok (some pending) else e.formulaTree? asked

/-- The checks that come before references are looked up: operators, types, cycles. -/
def checkShape (e : Engine) (name : String) (t : Tree) (expected : TypeTag) : Check Unit := do
  ofKind .unknownOperator (t.checkOperators e.registry)
  let _ ← ofKind .typeMismatch ((Typing.check e.registry expected t).mapError .typing)
  let _ ← ofKind .cycle
    ((t.expand (e.pendingTree? name t expected) [] e.config.maxDepth).mapError .tree)

/-- The series a formula refers to that do not exist. -/
def missingSeries (e : Engine) (t : Tree) : List String :=
  ((t.seriesExistence e.registry e.contains).filter fun (_, isThere) => !isThere).map (·.1)

/-- The groups a formula refers to that do not exist. -/
def missingGroups (e : Engine) (t : Tree) : List String :=
  (t.leafNames Tree.groupOperator).filter fun name => !e.containsGroup name

/-- The awareness of the references of a formula. -/
def awarenessOf (e : Engine) (t : Tree) : List ReferenceAwareness :=
  t.awareness e.registry e.aware?

/-- The checks that come after missing series are decided on: groups, awareness. -/
def checkReferences (e : Engine) (t : Tree) (options : RegisterOptions) : Check (Option Bool) := do
  let missing := e.missingGroups t
  if !missing.isEmpty && options.rejectsUnknown.getD e.config.policy.rejectsUnknown then
    throw (.unknownSeries, .unknownGroups t.text missing)
  ofKind .timezoneMismatch (commonAwareness t.text (e.awarenessOf t))

/-- **All checks of a formula**, in order. -/
def validate (e : Engine) (name : String) (t : Tree) (expected : TypeTag)
    (options : RegisterOptions) : Verdict :=
  let policy := e.config.policy
  match e.checkShape name t expected with
  | .error (kind, cause) => ⟨[e.refusal kind name cause], .error cause⟩
  | .ok () =>
    let missing := e.missingSeries t
    let noted :=
      if missing.isEmpty then [] else [policy.recordUnknown name missing options.rejectsUnknown]
    if !missing.isEmpty && policy.decideUnknown options.rejectsUnknown == .reject then
      ⟨noted, .error (.unknownSeries t.text missing)⟩
    else match e.checkReferences t options with
      | .error (kind, cause) => ⟨noted ++ [e.refusal kind name cause], .error cause⟩
      | .ok aware => ⟨noted, .ok aware⟩

/-- The record of a formula that was accepted. -/
def newRecord (name : String) (t : Tree) (aware : Option Bool) (previous : Option FormulaRecord) :
    FormulaRecord :=
  ⟨name, t.text,
    (Metadata.initial (aware.getD false)).withPreserved (previous.map FormulaRecord.metadata)⟩

/-- The engine with the records of a verdict. -/
def noteAll (e : Engine) (records : List LedgerRecord) : Engine :=
  { e with ledger := e.ledger ++ records }

/-- **Registering a formula**, which is read like a series. -/
def registerFormula (e : Engine) (name text : String) (options : RegisterOptions) :
    Outcome Unit :=
  match Tree.parse text with
  | .error cause => ⟨e, .error (.tree cause)⟩
  | .ok t =>
    if e.store.contains name then e.refuse .primaryConflict name (.primaryExists name)
    else if e.formulas.contains name && !options.replaces then
      e.refuse .primaryConflict name (.formulaExists name)
    else
      let verdict := e.validate name t .series options
      let e := e.noteAll verdict.records
      match verdict.answer with
      | .error cause => ⟨e, .error cause⟩
      | .ok aware =>
        let record := newRecord name t aware (e.formulas.find? name)
        let e := { e with formulas := e.formulas.insert name record }
        ⟨e.accept .registered name "formula", .ok ()⟩

/-- **Registering a group formula**, which is read like a group. -/
def registerGroupFormula (e : Engine) (name text : String) (options : RegisterOptions) :
    Outcome Unit :=
  match Tree.parse text with
  | .error cause => ⟨e, .error (.tree cause)⟩
  | .ok t =>
    if e.store.containsGroup name || e.bindings.contains name then
      e.refuse .primaryConflict name (.nameTaken name)
    else if e.groupFormulas.contains name && !options.replaces then
      e.refuse .primaryConflict name (.formulaExists name)
    else
      let verdict := e.validate name t .table options
      let e := e.noteAll verdict.records
      match verdict.answer with
      | .error cause => ⟨e, .error cause⟩
      | .ok aware =>
        let record := newRecord name t aware (e.groupFormulas.find? name)
        let e := { e with groupFormulas := e.groupFormulas.insert name record }
        ⟨e.accept .registered name "group formula", .ok ()⟩

/-- Binding a formula under the name of a group; `build` makes the binding. -/
def bind (e : Engine) (group formula : String) (build : Except BindingFault Binding) :
    Outcome Unit :=
  if !e.formulas.contains formula then e.refuse .malformedBinding group (.notAFormula formula)
  else if e.store.containsGroup group || e.groupFormulas.contains group then
    e.refuse .malformedBinding group (.nameTaken group)
  else match build with
    | .error fault => e.refuse .malformedBinding group (.malformedBinding fault)
    | .ok binding =>
      let e := { e with bindings := e.bindings.insert group binding }
      ⟨e.accept .registered group "bindings", .ok ()⟩

/-- **Binding a formula** by rows. -/
def registerBinding (e : Engine) (group formula : String) (rows : List BindingRow) : Outcome Unit :=
  e.bind group formula (Binding.ofRows? formula rows)

/-- Binding a formula by records. -/
def registerBindingRecords (e : Engine) (group formula : String) (records : List Json) :
    Outcome Unit :=
  e.bind group formula (Binding.ofRecords? formula records)

end Engine

end SeriesAlgebra
