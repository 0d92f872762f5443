import SeriesAlgebra.Engine.Staircase
import SeriesAlgebra.Proofs.Engine.Names

/-!
# Calls that fail

A call that fails leaves an engine as it was, but for records at the end of its ledger,
and one that registers a name tells in the last record what became of it
(`Engine.perform_atomic`). No answer depends on the ledger
(`Engine.answersAlike_noteAll`), so whatever is read afterwards is read as before.
-/

namespace SeriesAlgebra

namespace Engine

/-- **Whether two engines answer alike** whatever is read from them. -/
structure AnswersAlike (e e' : Engine) : Prop where
  asSource : e'.toSource = e.toSource
  tables : e'.readTable = e.readTable
  staircases : e'.staircase = e.staircase
  expandedFormulas : e'.expandedFormula = e.expandedFormula
  groupFormulas : e'.groupFormula = e.groupFormula
  types : e'.typeOf? = e.typeOf?
  groupTypes : e'.groupTypeOf? = e.groupTypeOf?

/-! ### Answers and the ledger -/

section Ledger

variable (e : Engine) (records : List LedgerRecord)

theorem readerBelow_noteAll (levels : Nat) (path : List String) :
    (e.noteAll records).readerBelow levels path = e.readerBelow levels path := by
  induction levels generalizing path with
  | zero => rfl
  | succ levels ih =>
    simp only [readerBelow, ih]
    rfl

theorem reader_noteAll : (e.noteAll records).reader = e.reader := readerBelow_noteAll e records _ _

theorem read_noteAll : (e.noteAll records).read = e.read := by
  unfold read
  rw [reader_noteAll]
  rfl

theorem readTable_noteAll : (e.noteAll records).readTable = e.readTable := by
  unfold readTable
  rw [reader_noteAll]
  rfl

theorem componentsWithin_noteAll (expanded : Bool) (levels : Nat) :
    (e.noteAll records).componentsWithin expanded levels = e.componentsWithin expanded levels := by
  induction levels with
  | zero => rfl
  | succ levels ih =>
    funext name
    simp only [componentsWithin, ih]
    rfl

theorem replay_noteAll : (e.noteAll records).replay = e.replay := by
  unfold replay callHistory backfill backfillSeries backfillCall replayAt
  rw [reader_noteAll, read_noteAll]
  rfl

theorem historyWithin_noteAll (levels : Nat) :
    (e.noteAll records).historyWithin levels = e.historyWithin levels := by
  induction levels with
  | zero => rfl
  | succ levels ih =>
    funext name query
    simp only [historyWithin, asAsked, replay_noteAll, read_noteAll, ih]
    rfl

theorem history_noteAll : (e.noteAll records).history = e.history := by
  funext name query
  exact congrFun (congrFun (historyWithin_noteAll e records _) name) query

theorem callDates_noteAll : (e.noteAll records).callDates = e.callDates := by
  unfold callDates
  rw [reader_noteAll]
  rfl

theorem insertionDatesWithin_noteAll (levels : Nat) :
    (e.noteAll records).insertionDatesWithin levels = e.insertionDatesWithin levels := by
  induction levels with
  | zero => rfl
  | succ levels ih =>
    funext name inserted
    simp only [insertionDatesWithin, callDates_noteAll, ih]
    rfl

theorem staircaseWithin_noteAll (delay : Span) (window : Window) (levels : Nat) :
    (e.noteAll records).staircaseWithin delay window levels =
      e.staircaseWithin delay window levels := by
  induction levels with
  | zero => rfl
  | succ levels ih =>
    funext name
    simp only [staircaseWithin, assembleStaircase, replayStaircase, reader_noteAll,
      history_noteAll, ih]
    rfl

/-- What an engine is as a source does not depend on its ledger. -/
theorem toSource_noteAll : (e.noteAll records).toSource = e.toSource := by
  have hdates : (e.noteAll records).insertionDates = e.insertionDates := by
    funext name inserted
    exact congrFun (congrFun (insertionDatesWithin_noteAll e records _) name) inserted
  have hcomponents : (e.noteAll records).components = e.components := by
    funext name expanded
    exact congrFun (componentsWithin_noteAll e records expanded _) name
  unfold toSource
  rw [read_noteAll, history_noteAll, hdates, hcomponents]
  rfl

/-- **No answer depends on the ledger.** -/
theorem answersAlike_noteAll : e.AnswersAlike (e.noteAll records) where
  asSource := toSource_noteAll e records
  tables := readTable_noteAll e records
  staircases := by
    funext name delay window
    exact congrFun (staircaseWithin_noteAll e records delay window _) name
  expandedFormulas := rfl
  groupFormulas := rfl
  types := rfl
  groupTypes := rfl

end Ledger

/-! ### Failing and succeeding -/

/-- No effect is on the ledger. -/
theorem Effect.ledger {e e' : Engine} {c : Call} (h : e.Effect c e') : e'.ledger = e.ledger := by
  cases h <;> rfl

/-- **A call that fails changes nothing but the ledger, which it only adds to**, and a call that
registers a name records last that the name is rejected or registered. -/
theorem perform_atomic (e : Engine) (c : Call) :
    (∀ cause, (e.perform c).answer = .error cause → ∃ records,
      (e.perform c).engine = { e with ledger := e.ledger ++ records } ∧
      e.AnswersAlike (e.perform c).engine ∧ c.Refused records) ∧
    ((e.perform c).answer = .ok () → ∃ records,
      (e.perform c).engine.ledger = e.ledger ++ records ∧ c.Accepted records) := by
  rcases e.ends_perform c with ⟨records, cause, heq, hrefused⟩ | ⟨e', records, heq, heffect, haccepted⟩
  · rw [heq]
    exact ⟨fun _ _ => ⟨records, rfl, answersAlike_noteAll e records, hrefused⟩, nofun⟩
  · rw [heq]
    exact ⟨nofun, fun _ => ⟨records, congrArg (· ++ records) heffect.ledger, haccepted⟩⟩

/-- A binding of a formula that there is not is refused, and leaves all answers. -/
theorem perform_atomic_boundByTwo :
    (∃ records, (boundByTwo.perform (.registerBinding "h" "a" [])).engine =
        { boundByTwo with ledger := boundByTwo.ledger ++ records } ∧
      boundByTwo.AnswersAlike (boundByTwo.perform (.registerBinding "h" "a" [])).engine ∧
      (Call.registerBinding "h" "a" []).Refused records) ∧
    ∃ records, (boundByTwo.perform (.registerBinding "h" "f" [⟨"a", "low", "case"⟩])).engine.ledger =
        boundByTwo.ledger ++ records ∧
      (Call.registerBinding "h" "f" [⟨"a", "low", "case"⟩]).Accepted records := by
  obtain ⟨cause, hcause⟩ := Result.exists_error
    (x := (boundByTwo.perform (.registerBinding "h" "a" [])).answer) (by decide +kernel)
  have hok : (boundByTwo.perform (.registerBinding "h" "f" [⟨"a", "low", "case"⟩])).answer =
      .ok () := Result.ok_of_toOption (by decide +kernel)
  exact ⟨(perform_atomic boundByTwo _).1 cause hcause, (perform_atomic boundByTwo _).2 hok⟩

end Engine

end SeriesAlgebra
