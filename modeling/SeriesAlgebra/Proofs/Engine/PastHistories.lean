import SeriesAlgebra.Proofs.Engine.Past
import SeriesAlgebra.Proofs.Engine.Replay

/-!
# Histories of the past

The history of a formula in a window of insertion dates that ends in the past is replayed
from versions of the past only: the histories of its leaves end by then, what they start from
is read at the first of their dates, and the formula is evaluated as of each date. A
difference is to the value right before the first version. So engines with the same past
have the same histories there (`Engine.SamePast.history`).

Updates of what is stored leave the past before them as it is, be they accepted or
refused (`Engine.samePast_performAll`). Main statement: whatever is asked of the past, the
answer is the same after the updates, value or error (`Engine.same_answers_of_updatesAfter`).
-/

namespace SeriesAlgebra

open Evaluation Reading

/-- **Whether a call updates, after a date, a series or a group that is in a store.** -/
def Call.UpdatesAfter (d : InsertionDate) (store : Store) : Call → Prop
  | updateSeries name _ date _ => store.contains name = true ∧ d < date
  | updateGroup name _ date => store.containsGroup name = true ∧ d < date
  | _ => False

instance (d : InsertionDate) (store : Store) : (c : Call) → Decidable (c.UpdatesAfter d store)
  | .updateSeries name _ date _ =>
    inferInstanceAs (Decidable (store.contains name = true ∧ d < date))
  | .updateGroup name _ date =>
    inferInstanceAs (Decidable (store.containsGroup name = true ∧ d < date))
  | .updateMetadata .. | .registerFormula .. | .registerGroupFormula .. | .registerBinding ..
  | .registerBindingRecords .. | .rename .. | .delete .. | .deleteGroup .. =>
    inferInstanceAs (Decidable False)

namespace Engine

open SeriesAlgebra.Tree

variable {e e' : Engine} {d date : InsertionDate} {u : Tree} {q : HistoryQuery} {name : String}

/-- The instant before a date is not after it. -/
theorem instantBefore_le (date : InsertionDate) : instantBefore date ≤ date := by
  have hbound : date.nano.val < 2000000000 := date.nano.isLt
  have hwhole : (Span.microseconds (-1)).micros.tdiv 1000000 = 0 := by decide
  have hpart : (Span.microseconds (-1)).micros.tmod 1000000 * 1000 = -1000 := by decide
  unfold instantBefore Stamp.shift
  dsimp only
  rw [hwhole, hpart, Stamp.le_def]
  split
  -- A date in a leap second stays in its second; any other may go to the second before.
  · rename_i hleap
    have hnano : 1000000000 ≤ date.nano.val := of_decide_eq_true hleap
    rw [if_neg (by omega), if_neg (by omega)]
    refine Or.inr ⟨rfl, ?_⟩
    show ((date.nano.val : Int) + -1000).toNat % 2000000000 ≤ date.nano.val
    omega
  · rename_i hleap
    have hnano : ¬ 1000000000 ≤ date.nano.val := fun h => hleap (decide_eq_true h)
    show date.second + 0 + ((date.nano.val : Int) + -1000) / 1000000000 < date.second ∨
      date.second + 0 + ((date.nano.val : Int) + -1000) / 1000000000 = date.second ∧
        (((date.nano.val : Int) + -1000) % 1000000000).toNat ≤ date.nano.val
    omega

/-- Readers for the dates of a replay agree where the readers for the other series do. -/
theorem agreeAt_replaying {σ : Type} {revision : Option InsertionDate} {A B : Resolver σ}
    (h : A.AgreeAt revision B) (known : Replayed) :
    (replaying A known).AgreeAt revision (replaying B known) where
  series name window := by
    unfold replaying
    dsimp only
    rw [h.series]
  group := h.group
  autotrophic _ _ := rfl

namespace SamePast

theorem expandedTree (h : SamePast d e e') : e'.expandedTree = e.expandedTree := by
  funext name
  unfold Engine.expandedTree
  rw [h.formulaTree?, h.expand]

/-- Differences are asked for alike. -/
theorem asAsked (h : SamePast d e e') (name : String) (q : HistoryQuery) {hist : History}
    (hhist : ∀ date ∈ hist.keys, date ≤ d) : e'.asAsked name q hist = e.asAsked name q hist := by
  unfold Engine.asAsked
  cases hfirst : hist.keys.head? with
  | none => rfl
  | some first =>
    have hle : instantBefore first ≤ d :=
      Stamp.le_trans (instantBefore_le first) (hhist first (List.mem_of_head? hfirst))
    dsimp only [HistoryQuery.asOf]
    rw [h.read hle]

/-! ### Replays -/

/-- The histories of constant calls do not depend on what is stored. -/
theorem callEntries (h : SamePast d e e') (he : e.Consistent) (hu : e.IsExpanded u)
    (q : HistoryQuery) : e'.callEntries q (u.historyLeaves .builtin).autotrophic =
      e.callEntries q (u.historyLeaves .builtin).autotrophic := by
  refine mapM_congr fun call hcall => ?_
  obtain ⟨items, hmem, hcalls, rfl⟩ := (mem_autotrophic_historyLeaves hu.isFormula).1 hcall
  have hscalar := (hu.isConstantCall hmem hcalls).scalar
  unfold callHistory
  rw [h.registry, he.registry, evaluateArgs_scalar _ hscalar, evaluateArgs_scalar _ hscalar]

theorem backfill (h : SamePast d e e') (formula : String) (q : HistoryQuery)
    {dates : List InsertionDate} (hdates : ∀ date ∈ dates, date ≤ d) (known : Replayed) :
    e'.backfill formula q dates known = e.backfill formula q dates known := by
  cases dates with
  | nil => rfl
  | cons first rest =>
    have hfirst := hdates first List.mem_cons_self
    have hseries : e'.backfillSeries q first = e.backfillSeries q first := by
      funext leaf
      unfold backfillSeries HistoryQuery.asOf
      rw [h.read hfirst]
    have hcalls : e'.backfillCall formula q first = e.backfillCall formula q first := by
      funext ⟨text, call, hist⟩
      unfold backfillCall HistoryQuery.asOf
      dsimp only
      rw [h.registry, (h.reader hfirst).evaluate]
    simp only [Engine.backfill, hseries, hcalls]

theorem replayAt (h : SamePast d e e') (hdate : date ≤ d) (name : String) (t : Tree)
    (q : HistoryQuery) (known : Replayed) :
    e'.replayAt name t q known date = e.replayAt name t q known date := by
  unfold Engine.replayAt HistoryQuery.asOf
  rw [h.registry, (agreeAt_replaying (h.reader hdate) known).evaluate]

/-- The versions of a formula are the same if all dates are of the past. -/
theorem replayKnown (h : SamePast d e e') (name : String) (t : Tree) (q : HistoryQuery)
    {known : Replayed} (hdates : ∀ date ∈ datesOf known, date ≤ d) :
    e'.replayKnown name t q known = e.replayKnown name t q known := by
  unfold Engine.replayKnown
  rw [h.backfill name q.absolute hdates]
  refine bind_congr fun filled => ?_
  rw [mapM_congr fun date hdate => h.replayAt (hdates date hdate) name t q filled]

/-- **A formula is replayed alike**, if the histories of its leaves are the same. -/
theorem replay (h : SamePast d e e') (he : e.Consistent) (hu : e.IsExpanded u)
    (hq : q.inserted.EndsBy d) {levels : Nat}
    (hleaves : ∀ leaf, e'.historyWithin levels leaf q.absolute =
      e.historyWithin levels leaf q.absolute) (name : String) :
    e'.replay (e'.historyWithin levels) name u q = e.replay (e.historyWithin levels) name u q := by
  rw [replay_eq, replay_eq, h.registry, he.registry, funext hleaves]
  refine Result.bind_congr_of_ok fun series hseries => ?_
  rw [h.callEntries he hu]
  refine congrArg answerOf (bind_congr_of_gives fun calls m m' hcalls => ?_)
  -- The dates of the replay are those of the collected histories, which end by the window's end.
  rw [← he.registry] at hseries hcalls
  have hcollected := collected_of_mapM he hu hseries hcalls
  exact h.replayKnown name u q fun date hdate =>
    hq.le ((hcollected.mem_datesOf he hu).1 hdate).1

/-! ### Histories -/

/-- The versions of a stored series in a window that ends in the past are of the past. -/
theorem le_of_mem_stored {store : Store} {inserted window : Window} (hinserted : inserted.EndsBy d)
    {hist : History} (hhist : store.history? name inserted window = some hist) :
    ∀ date ∈ hist.keys, date ≤ d := by
  obtain ⟨stored, -, rfl⟩ := Option.map_eq_some_iff.1 hhist
  intro date hdate
  rw [OrderedMap.keys_mapValues] at hdate
  exact hinserted.le (History.mem_keys_filter.1 hdate).2

/-- The versions of a formula in a window that ends in the past are of the past. -/
theorem le_of_mem_replay (he : e.Consistent) (hu : e.IsExpanded u) (hq : q.inserted.EndsBy d)
    {levels : Nat} {hist : History}
    (hhist : e.replay (e.historyWithin levels) name u q = .ok hist) :
    ∀ date ∈ hist.keys, date ≤ d := by
  obtain ⟨known, filled, hcollected, -, hkeys, -⟩ := replay_ok he hu hhist
  intro date hdate
  exact hq.le ((hcollected.mem_datesOf he hu).1 ((hkeys date).1 hdate)).1

theorem historyWithin (h : SamePast d e e') (he : e.Consistent) (levels : Nat) (name : String)
    (hq : q.inserted.EndsBy d) : e'.historyWithin levels name q = e.historyWithin levels name q := by
  induction levels generalizing name q with
  | zero => rfl
  | succ levels ih =>
    rw [Engine.historyWithin, Engine.historyWithin, h.formulas, h.expandedTree,
      h.store.history? hq]
    split
    · refine Result.bind_congr_of_ok fun u hu => ?_
      have hexpanded := isExpanded he hu
      rw [h.replay he hexpanded hq fun leaf => ih leaf hq]
      refine Result.bind_congr_of_ok fun hist hhist => ?_
      rw [h.asAsked name q (le_of_mem_replay he hexpanded hq hhist)]
    · cases hhist : e.store.history? name q.inserted q.window with
      | some hist =>
        dsimp only
        rw [h.asAsked name q (le_of_mem_stored hq hhist)]
      | none =>
        unfold sourceOf?
        rw [h.sources]

/-- **Histories are the same in a window of insertion dates that ends in the past.** -/
theorem history (h : SamePast d e e') (he : e.Consistent) (name : String)
    (hq : q.inserted.EndsBy d) : e'.history name q = e.history name q := by
  unfold Engine.history replayLevels
  rw [h.formulas]
  exact h.historyWithin he _ name hq

/-! ### Updates -/

theorem refl (d : InsertionDate) (e : Engine) : SamePast d e e :=
  ⟨rfl, rfl, rfl, rfl, rfl, rfl, .refl d e.store⟩

theorem trans {e'' : Engine} (h : SamePast d e e') (h' : SamePast d e' e'') : SamePast d e e'' where
  config := h'.config.trans h.config
  registry := h'.registry.trans h.registry
  formulas := h'.formulas.trans h.formulas
  groupFormulas := h'.groupFormulas.trans h.groupFormulas
  bindings := h'.bindings.trans h.bindings
  sources := h'.sources.trans h.sources
  store := h.store.trans h'.store

theorem withStore {store : Store} (h : e.store.SamePast d store)
    (records : List LedgerRecord) : SamePast d e ({ e with store := store }.noteAll records) :=
  ⟨rfl, rfl, rfl, rfl, rfl, rfl, h⟩

end SamePast

/-! ### Updates of what is stored -/

/-- An update of what is stored leaves the past before it as it is, whatever comes of it. -/
theorem samePast_perform {c : Call} (hc : c.UpdatesAfter d e.store) :
    SamePast d e (e.perform c).engine := by
  rcases e.ends_perform c with ⟨records, cause, heq, -⟩ | ⟨e', records, heq, heffect, -⟩
  · rw [heq]
    exact .withStore (Store.SamePast.refl d e.store) records
  · rw [heq]
    cases heffect with
    | updateSeries _ hstore => exact .withStore (Store.samePast_update hc.1 hc.2 hstore) records
    | updateGroup _ _ hstore =>
      exact .withStore (Store.samePast_updateGroup hc.1 hc.2 hstore) records
    | @bind _ group formula binding hgroup =>
      cases c with
      | updateSeries => cases hgroup
      | updateGroup => cases hgroup
      | _ => exact hc.elim
    | _ => exact hc.elim

/-- What is in a store is in a store of the same past. -/
theorem updatesAfter_of_samePast {c : Call} {store : Store} (h : e.store.SamePast d store)
    (hc : c.UpdatesAfter d e.store) : c.UpdatesAfter d store := by
  cases c with
  | updateSeries name _ _ _ => exact ⟨(h.contains name).trans hc.1, hc.2⟩
  | updateGroup name _ _ => exact ⟨(h.containsGroup name).trans hc.1, hc.2⟩
  | _ => exact hc

/-- **Updates of what is stored leave the past before them as it is.** -/
theorem samePast_performAll {calls : List Call} (hcalls : ∀ c ∈ calls, c.UpdatesAfter d e.store) :
    SamePast d e (e.performAll calls) := by
  induction calls generalizing e with
  | nil => exact .refl d e
  | cons c rest ih =>
    have hfirst := samePast_perform (hcalls c List.mem_cons_self)
    exact hfirst.trans (ih fun c hc =>
      updatesAfter_of_samePast hfirst.store (hcalls c (List.mem_cons_of_mem _ hc)))

/-- **The past does not change**: whatever updates of stored series and groups come after a date,
the answers of an engine are the same as before them, be it a value or an error – for series and
formulas at the date, for groups of all kinds at the date, and for histories in windows of insertion
dates that end by the date. -/
theorem same_answers_of_updatesAfter (he : e.Reachable) {calls : List Call}
    (hcalls : ∀ c ∈ calls, c.UpdatesAfter d e.store) :
    (∀ name window,
      (e.performAll calls).read name ⟨some d, window⟩ = e.read name ⟨some d, window⟩) ∧
    (∀ name window,
      (e.performAll calls).readTable name ⟨some d, window⟩ = e.readTable name ⟨some d, window⟩) ∧
    ∀ name (q : HistoryQuery), q.inserted.EndsBy d →
      (e.performAll calls).history name q = e.history name q := by
  have hpast := samePast_performAll hcalls
  exact ⟨hpast.read (Stamp.le_refl d), hpast.readTable (Stamp.le_refl d),
    fun name q hq => hpast.history he.consistent name hq⟩

/-- Calls that store a series and a group, and register a formula and its bindings. -/
def storingCalls : List Call :=
  [.updateSeries "a" (.ofPoints "a" [(dayOf2024 1, 1.0), (dayOf2024 2, 2.0)]) (dayOf2024 0) false,
    .updateGroup "g" ⟨⟨[dayOf2024 1, dayOf2024 2]⟩, [("low", [1.0, 2.0]), ("high", [3.0, 4.0])]⟩
      (dayOf2024 0),
    .registerFormula "f" "(* 2 (series \"a\"))" ⟨none, false⟩,
    .registerBinding "b" "f" [⟨"a", "g", "case"⟩]]

/-- The engine after these calls. -/
def storing : Engine := (overNothing .initial).performAll storingCalls

theorem reachable_storing : storing.Reachable :=
  (reachable_overNothing rfl).performAll storingCalls

/-- Calls that update the series and the group later: one with an effect, one without, one that comes
too late, one that erases a point, and one with other columns. -/
def updatingCalls : List Call :=
  [.updateSeries "a" (.ofPoints "a" [(dayOf2024 2, 3.0)]) (dayOf2024 3) false,
    .updateSeries "a" (.ofPoints "a" [(dayOf2024 2, 3.0)]) (dayOf2024 4) false,
    .updateSeries "a" (.ofPoints "a" [(dayOf2024 2, 5.0)]) (dayOf2024 3) false,
    .updateSeries "a" (.ofPoints "a" [(dayOf2024 1, missing)]) (dayOf2024 5) false,
    .updateGroup "g" ⟨⟨[dayOf2024 1]⟩, [("only", [7.0])]⟩ (dayOf2024 5)]

/-- The series, the formula, the bound group and the history of the formula are what they were. -/
theorem same_answers_updatingCalls :
    (∀ c ∈ updatingCalls, c.UpdatesAfter (dayOf2024 2) storing.store) ∧
    (∃ s, (storing.performAll updatingCalls).read "f" ⟨some (dayOf2024 2), .unbounded⟩ =
        .ok (some s) ∧
      s.samePoints (.ofPoints "f" [(dayOf2024 1, 2.0), (dayOf2024 2, 4.0)]) = true) ∧
    (∃ table, (storing.performAll updatingCalls).readTable "b" ⟨some (dayOf2024 2), .unbounded⟩ =
        .ok (some table) ∧ table.columnNames = ["low", "high"]) ∧
    ∃ h, (storing.performAll updatingCalls).history "f"
        ⟨⟨none, some (dayOf2024 2)⟩, .unbounded, true⟩ = .ok (some h) ∧ h.keys = [dayOf2024 0] := by
  have hcalls : ∀ c ∈ updatingCalls, c.UpdatesAfter (dayOf2024 2) storing.store := by
    decide +kernel
  obtain ⟨hread, htable, hhistory⟩ := same_answers_of_updatesAfter reachable_storing hcalls
  refine ⟨hcalls, ?_, ?_, ?_⟩
  · rw [hread]
    have h : (storing.read "f" ⟨some (dayOf2024 2), .unbounded⟩).toOption.join.any (fun s =>
        s.samePoints (.ofPoints "f" [(dayOf2024 1, 2.0), (dayOf2024 2, 4.0)])) = true := by
      decide +kernel
    exact Result.exists_ok_some_any h
  · rw [htable]
    have h : (storing.readTable "b" ⟨some (dayOf2024 2), .unbounded⟩).toOption.join.any (fun table =>
        decide (table.columnNames = ["low", "high"])) = true := by decide +kernel
    obtain ⟨table, htable, hnames⟩ := Result.exists_ok_some_any h
    exact ⟨table, htable, of_decide_eq_true hnames⟩
  · rw [hhistory _ _ ⟨dayOf2024 2, rfl, Stamp.le_refl _⟩]
    have h : (storing.history "f" ⟨⟨none, some (dayOf2024 2)⟩, .unbounded, true⟩).toOption.join.any
        (fun h => decide (h.keys = [dayOf2024 0])) = true := by decide +kernel
    obtain ⟨h, hh, hkeys⟩ := Result.exists_ok_some_any h
    exact ⟨h, hh, of_decide_eq_true hkeys⟩

end Engine

end SeriesAlgebra
