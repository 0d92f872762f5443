import SeriesAlgebra.Engine.Reader

/-!
# Histories of formulas

The history of a stored series is in the store. That of a formula is **replayed**: the
formula is expanded, the histories of its leaves are collected, and it is evaluated as
of every insertion date in one of them, each leaf standing for its version in effect
at that date. A leaf whose history has nothing up to the first of these dates starts
from its value at that date.

A leaf of an expanded formula is not a formula itself, unless an extension names
one. So a replay may lead to another, and since it can only lead through the formulas
there are, one level more than their number is enough (`Engine.replayLevels`); a
replay that needs more leads back to itself.
-/

namespace SeriesAlgebra

namespace Engine

open Evaluation

variable {σ : Type}

/-- The levels that replays may go down. -/
def replayLevels (e : Engine) : Nat := e.formulas.size + 1

/-- The tree of a formula with everything inlined. -/
def expandedTree (e : Engine) (name : String) : Except EngineError Tree := do
  match ← (e.formulaTree? name).mapError EngineError.tree with
  | some t => e.expand [] t
  | none => throw (.notAFormula name)

/-! ### Replaying -/

/-- The version of a history that a query asks for, empty if there is none in effect. -/
def versionFor (h : History) (name : String) (query : Query) : Series :=
  match query.revision.bind (History.asOf? h) with
  | some version => version.window query.window
  | none => Series.empty name

/-- The histories that a replay works with: of series by name, and of autotrophic calls by text,
together with the calls. -/
structure Replayed where
  series : OrderedMap String History
  calls : OrderedMap String (Tree × History)

/-- The reader for which series and autotrophic calls have known histories. -/
def replaying (reader : Resolver σ) (known : Replayed) : Resolver σ where
  series name query :=
    match known.series.find? name with
    | some h => pure ((versionFor h name query).withName name)
    | none => reader.series name query
  group := reader.group
  autotrophic call query :=
    match known.calls.find? call.text with
    | some (_, h) => pure (some (.series (versionFor h call.text query)))
    | none => pure none

/-- The history of an autotrophic call. -/
def callHistory (e : Engine) (query : HistoryQuery) (call : Tree) : Reading Memo History := do
  let args ← evaluateArgs e.registry e.reader call (.latestIn query.window)
  match e.registry.operatorOf? call with
  | some op => settle (op.history args query)
  | none => throw (unknownHead call)

/-- Whether a history has nothing up to a date. -/
def startsAfter (h : History) (date : InsertionDate) : Bool := (History.asOf? h date).isNone

/-- A history that starts with a version at a date, unless the version has no points. -/
def startingWith (h : History) (date : InsertionDate) (version : Series) : History :=
  if version.isEmpty then h else h.insert date version

/-- The history of a series, starting from its value at a date if it has nothing up to there. -/
def backfillSeries (e : Engine) (query : HistoryQuery) (first : InsertionDate)
    (leaf : String × History) : Except EngineError (String × History) := do
  if startsAfter leaf.2 first then
    match ← e.read leaf.1 (query.asOf first) with
    | some version => return (leaf.1, startingWith leaf.2 first version)
    | none => return leaf
  else return leaf

/-- The history of an autotrophic call of a formula, starting from its value at a date if it has
nothing up to there. -/
def backfillCall (e : Engine) (formula : String) (query : HistoryQuery) (first : InsertionDate)
    (leaf : String × (Tree × History)) : Reading Memo (String × (Tree × History)) := do
  let (text, call, h) := leaf
  if startsAfter h first then
    let v ← evaluate e.registry e.reader call (query.asOf first)
    return (text, call, startingWith h first (← settle (v.asSeries formula)))
  else return leaf

/-- The insertion dates of several histories, in order. -/
def datesOf (known : Replayed) : List InsertionDate :=
  sortedSet (known.series.values.flatMap OrderedMap.keys ++
    known.calls.values.flatMap fun (_, h) => h.keys)

/-- The histories with their beginnings filled in, at the first of some dates. -/
def backfill (e : Engine) (formula : String) (query : HistoryQuery) (dates : List InsertionDate)
    (known : Replayed) : Reading Memo Replayed :=
  match dates with
  | [] => pure known
  | first :: _ => do
    let series ← settle (known.series.entries.mapM (e.backfillSeries query first))
    let calls ← known.calls.entries.mapM (e.backfillCall formula query first)
    return ⟨⟨series⟩, ⟨calls⟩⟩

/-- The version of a formula at an insertion date. -/
def replayAt (e : Engine) (name : String) (t : Tree) (query : HistoryQuery) (known : Replayed)
    (date : InsertionDate) : Reading Memo (InsertionDate × Series) := do
  let v ← evaluate e.registry (replaying e.reader known) t (query.asOf date)
  return (date, (← settle (v.asSeries name)).withName name)

/-- The versions of an expanded formula; `leafHistory` gives the histories of series. -/
def replay (e : Engine) (leafHistory : String → HistoryQuery → Except EngineError (Option History))
    (name : String) (t : Tree) (query : HistoryQuery) : Except EngineError History := do
  let leaves := t.historyLeaves e.registry
  let series ← leaves.series.mapM fun leaf => do
    match ← leafHistory leaf query.absolute with
    | some h => return (leaf, h)
    | none => throw (.unknownName leaf)
  answerOf do
    let calls ← leaves.autotrophic.mapM fun call => do
      return (call.text, call, ← e.callHistory query.absolute call)
    let known : Replayed := ⟨.ofList series, .ofList calls⟩
    let dates := datesOf known
    let known ← e.backfill name query.absolute dates known
    return .ofList (← dates.mapM (e.replayAt name t query known))

/-! ### Differences -/

/-- The instant before a date. -/
def instantBefore (date : InsertionDate) : InsertionDate := date.shift (.microseconds (-1))

/-- A history as it was asked for: in full, or as differences, of which the first is to the value
of the series right before the first version. -/
def asAsked (e : Engine) (name : String) (query : HistoryQuery) (h : History) :
    Except EngineError History := do
  if !query.asDiff then return h
  let before ← match h.keys.head? with
    | none => pure none
    | some first => e.read name (query.asOf (instantBefore first))
  return History.diffs h before

/-! ### Histories -/

/-- The history of a series or formula, with a number of levels left for replays. -/
def historyWithin (e : Engine) :
    Nat → String → HistoryQuery → Except EngineError (Option History)
  | 0, name, _ => .error (.tree (.cycle [name]))
  | levels + 1, name, query => do
    if e.formulas.contains name then
      let h ← e.replay (e.historyWithin levels) name (← e.expandedTree name) query
      return some (← e.asAsked name query h)
    else match e.store.history? name query.inserted query.window with
      | some h => return some (← e.asAsked name query h)
      | none =>
        match e.sourceOf? name with
        | some source => source.history? name query
        | none => return none

/-- **The history of a series or formula**: its versions inserted in a window. -/
def history (e : Engine) (name : String) (query : HistoryQuery) :
    Except EngineError (Option History) :=
  e.historyWithin e.replayLevels name query

/-! ### Insertion dates -/

/-- The insertion dates of an autotrophic call. -/
def callDates (e : Engine) (inserted : Window) (call : Tree) :
    Reading Memo (List InsertionDate) := do
  match e.registry.operatorOf? call with
  | none => throw (unknownHead call)
  | some op =>
    let args ← evaluateArgs e.registry e.reader call .latest
    settle (op.insertionDates args inserted)

/-- The insertion dates of a series or formula, with a number of levels left. -/
def insertionDatesWithin (e : Engine) :
    Nat → String → Window → Except EngineError (List InsertionDate)
  | 0, name, _ => .error (.tree (.cycle [name]))
  | levels + 1, name, inserted => do
    if e.formulas.contains name then
      let leaves := (← e.expandedTree name).historyLeaves e.registry
      let ofSeries ← leaves.series.mapM fun leaf => e.insertionDatesWithin levels leaf inserted
      let ofCalls ← answerOf (leaves.autotrophic.mapM (e.callDates inserted))
      return sortedSet (ofSeries.flatten ++ ofCalls.flatten)
    else if e.store.contains name then return e.store.insertionDates name inserted
    else match e.sourceOf? name with
      | some source => source.insertionDates name inserted
      | none => throw (.unknownName name)

/-- **The insertion dates of a series or formula** in a window. -/
def insertionDates (e : Engine) (name : String) (inserted : Window) :
    Except EngineError (List InsertionDate) :=
  e.insertionDatesWithin e.replayLevels name inserted

end Engine

end SeriesAlgebra
