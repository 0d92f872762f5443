import SeriesAlgebra.Proofs.Engine.Relabeling.Reads
import SeriesAlgebra.Proofs.Engine.Replay
import SeriesAlgebra.Proofs.Formula.Relabeling.References
import SeriesAlgebra.Proofs.Order.Relabeling

/-!
# Histories of series that have other names

If an engine holds what another one holds under other names, the histories are the same up
to the names of series (`Engine.Relabels.history`). A formula is replayed over the same
dates: the histories of its leaves are the same under other names, and its constant calls
do not mention any. What differs is the order in which the leaves come.
-/

namespace SeriesAlgebra

open Evaluation Reading Value Series

theorem Value.Related.yields_asSeries {S : Series → Series → Prop} {v w : Value}
    (h : Value.Related S v w) (operator operator' : String) :
    Yields S (v.asSeries operator) (w.asSeries operator') := by
  cases h with
  | series h => exact Yields.ok h
  | _ => exact Yields.error

namespace Engine

open SeriesAlgebra.Tree

variable {f : String → String} {P : String → Prop} {e e' : Engine} {name : String}
  {q : HistoryQuery} {u u' : Tree}

/-! ### Stored series -/

/-- Differences are asked for alike. -/
theorem Relabels.asAsked (h : Relabels f P e e') (hname : P name) (q : HistoryQuery)
    {hist hist' : History} (hh : History.Similar hist hist') :
    Yields History.Similar (e.asAsked name q hist) (e'.asAsked (f name) q hist') := by
  unfold Engine.asAsked
  rw [← hh.keys]
  cases q.asDiff with
  | false => exact Yields.ok hh
  | true =>
    cases hist.keys.head? with
    | none => exact Yields.ok (hh.diffs .none)
    | some first =>
      exact Yields.bind (h.read hname _) fun before before' hbefore =>
        Yields.ok (hh.diffs hbefore)

/-- The history of what is no formula, without sources. -/
theorem historyWithin_stored (he : e.Consistent) (hnone : e.formulaTree? name = .ok none)
    (levels : Nat) (q : HistoryQuery) : e.historyWithin (levels + 1) name q =
      (e.store.history? name q.inserted q.window).elim (.ok none) fun h =>
        (e.asAsked name q h).map some := by
  rw [historyWithin, not_contains hnone, if_neg Bool.false_ne_true]
  cases e.store.history? name q.inserted q.window with
  | some h => rfl
  | none =>
    unfold sourceOf?
    rw [he.sources]
    rfl

theorem Relabels.storedHistory (h : Relabels f P e e') (hname : P name) (inserted window : Window) :
    Option.Rel History.Similar (e.store.history? name inserted window)
      (e'.store.history? (f name) inserted window) := by
  have hstored := h.stored name hname
  unfold Store.history?
  generalize e.store.series.find? name = stored at hstored
  generalize e'.store.series.find? (f name) = stored' at hstored
  cases hstored with
  | none => exact .none
  | some hs =>
    exact .some ((History.Similar.filter hs inserted.contains).mapValues
      fun s t hst => hst.window window)

theorem Relabels.leafHistory (h : Relabels f P e e') (hname : P name)
    (hnone : e.formulaTree? name = .ok none) (levels levels' : Nat) (q : HistoryQuery) :
    Yields (Option.Rel History.Similar) (e.historyWithin levels name q)
      (e'.historyWithin (levels' + 1) (f name) q) := by
  cases levels with
  | zero => exact Yields.error
  | succ levels =>
    have hstored := h.storedHistory hname q.inserted q.window
    rw [historyWithin_stored h.source hnone,
      historyWithin_stored h.target (h.formulas.none name hname hnone)]
    generalize e.store.history? name q.inserted q.window = hist at hstored
    generalize e'.store.history? (f name) q.inserted q.window = hist' at hstored
    cases hstored with
    | none => exact Yields.ok .none
    | some hh => exact Yields.map (h.asAsked hname q hh) fun _ _ => .some

/-! ### Leaves -/

/-- The leaves of a formula with other names. -/
theorem mem_series_relabeled (ht : u.Everywhere IsFormulaNode) (huu : Tree.Relabels f u u')
    (name' : String) : name' ∈ (u'.historyLeaves .builtin).series ↔
      ∃ name ∈ (u.historyLeaves .builtin).series, name' = f name := by
  unfold historyLeaves
  rw [huu.leavesOfHistory ht]
  dsimp only
  simp only [mem_sortedSet, List.mem_filterMap, List.mem_map]
  constructor
  · rintro ⟨_, ⟨leaf, hleaf, rfl⟩, heq⟩
    cases leaf with
    | series name => exact ⟨name, ⟨_, hleaf, rfl⟩, (Option.some.inj heq).symm⟩
    | autotrophic call => cases heq
  · rintro ⟨name, ⟨leaf, hleaf, heq⟩, rfl⟩
    cases leaf with
    | series name' =>
      obtain rfl := Option.some.inj heq
      exact ⟨_, ⟨_, hleaf, rfl⟩, rfl⟩
    | autotrophic call => cases heq

theorem autotrophic_relabeled (ht : u.Everywhere IsFormulaNode) (huu : Tree.Relabels f u u') :
    (u'.historyLeaves .builtin).autotrophic = (u.historyLeaves .builtin).autotrophic := by
  unfold historyLeaves
  rw [huu.leavesOfHistory ht]
  dsimp only
  rw [List.filterMap_map]
  refine congrArg (fun F => List.filterMap F _) (funext fun leaf => ?_)
  cases leaf <;> rfl

/-! ### What a replay works with -/

/-- **Whether replays work with the same**, under other names. -/
structure SameReplayed (f : String → String) (known known' : Replayed) : Prop where
  series : OrderedMap.Relabels f History.Similar known.series known'.series
  calls : known.calls = known'.calls

theorem SameReplayed.datesOf {known known' : Replayed} (h : SameReplayed f known known')
    (hsorted : known.series.IsSorted) (hsorted' : known'.series.IsSorted) :
    datesOf known = datesOf known' := by
  refine sortedSet_congr fun date => ?_
  rw [List.mem_append, List.mem_append, h.calls]
  refine or_congr_left ?_
  simp only [List.mem_flatMap, OrderedMap.mem_values_iff hsorted,
    OrderedMap.mem_values_iff hsorted']
  constructor
  · rintro ⟨hist, ⟨name, hname⟩, hdate⟩
    obtain ⟨hist', hname', hh⟩ := h.series.image name hist hname
    exact ⟨hist', ⟨_, hname'⟩, hh.keys ▸ hdate⟩
  · rintro ⟨hist', ⟨name', hname'⟩, hdate⟩
    obtain ⟨name, hist, -, hname, hh⟩ := h.series.preimage name' hist' hname'
    exact ⟨hist, ⟨_, hname⟩, hh.keys ▸ hdate⟩

/-- The histories of constant calls are the same. -/
theorem Relabels.holds_callEntries (h : Relabels f P e e') (hu : e.IsExpanded u) (q : HistoryQuery) :
    (Comparison.lockstep (SameMemo f P)).Holds Eq
      (e.callEntries q (u.historyLeaves .builtin).autotrophic)
      fun _ => e'.callEntries q (u.historyLeaves .builtin).autotrophic := by
  refine Comparison.mono _ (Comparison.mapM _ (R := fun call call' => call = call' ∧
    call ∈ (u.historyLeaves .builtin).autotrophic) (S := Eq)
    (List.forall₂_same.2 fun _ hcall => ⟨rfl, hcall⟩) fun call _ hcall => ?_)
    fun _ _ hall => List.forall₂_eq_eq_eq ▸ hall
  obtain ⟨rfl, hcall⟩ := hcall
  obtain ⟨items, hmem, hcalls, rfl⟩ := (mem_autotrophic_historyLeaves hu.isFormula).1 hcall
  have hconstant := hu.isConstantCall hmem hcalls
  refine Comparison.bind _ (R := Eq) ?_ fun hist _ heq => Comparison.pure _ (heq ▸ rfl)
  unfold callHistory
  rw [h.source.registry, h.target.registry, hcalls.operatorOf?]
  refine Comparison.bind _ (Comparison.holds_evaluateArgs _ hconstant.scalar _) fun args _ heq => ?_
  subst heq
  exact Comparison.settle _ (Yields.refl _)

theorem startsAfter_congr {hist hist' : History} (hh : History.Similar hist hist')
    (date : InsertionDate) : startsAfter hist date = startsAfter hist' date := by
  have hasOf := hh.asOf? date
  unfold startsAfter
  generalize History.asOf? hist date = v at hasOf
  generalize History.asOf? hist' date = v' at hasOf
  cases hasOf <;> rfl

theorem similar_startingWith {hist hist' : History} (hh : History.Similar hist hist')
    (date : InsertionDate) {s s' : Series} (hs : s.Similar s') :
    History.Similar (startingWith hist date s) (startingWith hist' date s') := by
  unfold startingWith Series.isEmpty
  rw [hs.points]
  split
  · exact hh
  · exact hh.insert date hs

/-- The beginning of the history of a series is filled in alike. -/
theorem Relabels.backfillSeries (h : Relabels f P e e') (hname : P name) (q : HistoryQuery)
    (first : InsertionDate) {hist hist' : History} (hh : History.Similar hist hist') :
    Yields (fun a b => b.1 = f name ∧ History.Similar a.2 b.2)
      (e.backfillSeries q first (name, hist)) (e'.backfillSeries q first (f name, hist')) := by
  unfold Engine.backfillSeries
  dsimp only
  rw [← startsAfter_congr hh first]
  split
  · refine Yields.bind (h.read hname _) fun v v' hv => ?_
    cases hv with
    | none => exact Yields.ok ⟨rfl, hh⟩
    | some hs => exact Yields.ok ⟨rfl, similar_startingWith hh first hs⟩
  · exact Yields.ok ⟨rfl, hh⟩

/-- The beginnings of histories are filled in alike, and no history is lost. -/
theorem Relabels.holds_backfill (h : Relabels f P e e') {known known' : Replayed}
    (hcollected : e.Collected u q known) (hknown : SameReplayed f known known')
    (hsorted : known'.series.IsSorted) (name name' : String) (dates : List InsertionDate) :
    (Comparison.lockstep (SameMemo f P)).Holds
      (fun filled filled' => SameReplayed f filled filled' ∧
        ∀ n hist, known.series.find? n = some hist → ∃ hist, filled.series.find? n = some hist)
      (e.backfill name q.absolute dates known)
      fun _ => e'.backfill name' q.absolute dates known' := by
  cases dates with
  | nil => exact Comparison.pure _ ⟨hknown, fun _ hist hn => ⟨hist, hn⟩⟩
  | cons first rest =>
    refine Comparison.bind _ (R := fun series series' => OrderedMap.Relabels f History.Similar
      (⟨series⟩ : OrderedMap String History) (⟨series'⟩ : OrderedMap String History) ∧
        ∀ n hist, known.series.find? n = some hist →
          ∃ hist, (⟨series⟩ : OrderedMap String History).find? n = some hist)
      (Comparison.settle _ fun series hseries => ?_) fun series series' hseries => ?_
    · obtain ⟨series', hseries', hrelabels⟩ := hknown.series.exists_mapM hsorted
        (fun _ _ => backfillSeries_name) (fun _ _ => backfillSeries_name)
        (fun n hist hist' filled hn hh hfilled => by
          obtain ⟨⟨stored, hstored, -⟩, -⟩ := hcollected.ofSeries _ (OrderedMap.mem_of_find? hn)
          obtain ⟨⟨n', filled'⟩, hfilled', rfl, hsimilar⟩ :=
            h.backfillSeries (h.known n stored hstored) q.absolute first hh _ hfilled
          exact ⟨filled', hfilled', hsimilar⟩) hseries
      refine ⟨series', hseries', hrelabels, fun n hist hn => ?_⟩
      obtain ⟨filled, hfilled, -⟩ := OrderedMap.exists_lookup
        (fun _ _ => backfillSeries_name) (Result.forall₂_of_mapM hseries) hn
      exact ⟨filled, hfilled⟩
    · refine Comparison.bind _ (R := Eq) ?_ fun calls _ heq =>
        Comparison.pure _ ⟨⟨hseries.1, congrArg OrderedMap.mk heq⟩, hseries.2⟩
      rw [← hknown.calls]
      refine Comparison.mono _ (Comparison.mapM _ (R := fun leaf leaf' => leaf = leaf' ∧
        leaf ∈ known.calls.entries) (S := Eq)
        (List.forall₂_same.2 fun _ hleaf => ⟨rfl, hleaf⟩) fun leaf _ hleaf => ?_)
        fun _ _ hall => List.forall₂_eq_eq_eq ▸ hall
      obtain ⟨rfl, hleaf⟩ := hleaf
      obtain ⟨items, c, hconstant, -, hcall, -⟩ := hcollected.ofCalls leaf hleaf
      obtain ⟨text, call, hist⟩ := leaf
      dsimp only at hcall
      subst hcall
      unfold backfillCall
      dsimp only
      split
      · rw [h.source.registry, h.target.registry]
        refine Comparison.bind _ (Comparison.holds_constant_eq _ hconstant.calls hconstant.scalar
          (readerBelow_autotrophic _ _) (fun _ => readerBelow_autotrophic _ _) _) fun v _ heq => ?_
        subst heq
        refine Comparison.bind _ (R := Eq) (Comparison.settle _ ?_) fun s _ heq =>
          Comparison.pure _ (heq ▸ rfl)
        cases v with
        | series s => exact Yields.ok rfl
        | _ => exact Yields.error
      · exact Comparison.pure _ rfl

/-! ### Replays -/

/-- A version of a formula is evaluated alike. -/
theorem Relabels.holds_replayAt (h : Relabels f P e e') (hu : e.IsExpanded u)
    (huu : Tree.Relabels f u u') {known known' : Replayed} (hknown : SameReplayed f known known')
    (hleaves : ∀ name, u.HasLeaf name → ∃ hist, known.series.find? name = some hist)
    (name name' : String) (q : HistoryQuery) (date : InsertionDate) :
    (Comparison.lockstep (SameMemo f P)).Holds SimilarVersions (e.replayAt name u q known date)
      fun _ => e'.replayAt name' u' q known' date := by
  unfold replayAt
  rw [h.source.registry, h.target.registry]
  refine Comparison.bind _ (Comparison.holds_relabeled _ (B := fun _ => replaying e'.reader known')
    hu.isFormula huu (fun n q' hn => ?_) (fun items q' _ _ => ?_) _) fun v w hvw => ?_
  · obtain ⟨hist, hfound⟩ := hleaves n hn
    obtain ⟨hist', hfound', hh⟩ := hknown.series.image n hist hfound
    simp only [replaying, hfound, hfound']
    refine Comparison.pure _ (Similar.withName ?_ _ _)
    obtain ⟨revision, w⟩ := q'
    cases revision with
    | none => exact ⟨rfl, rfl⟩
    | some d =>
      rw [versionFor_eq, versionFor_eq]
      exact similar_shown (hh.asOf? d) _ _ _
  · simp only [replaying, ← hknown.calls]
    cases known.calls.find? (list items).text with
    | none => exact Comparison.pure _ .none
    | some leaf => exact Comparison.pure _ (.some (.series (Series.Similar.refl _)))
  · exact Comparison.bind _ (Comparison.settle _ (hvw.yields_asSeries name name')) fun s s' hs =>
      Comparison.pure _ ⟨rfl, hs.withName _ _⟩

/-- The versions of a formula are evaluated alike, if what is known of the leaves is the same. -/
theorem Relabels.holds_replayKnown (h : Relabels f P e e') (hu : e.IsExpanded u)
    (huu : Tree.Relabels f u u') {known known' : Replayed} (hcollected : e.Collected u q known)
    (hknown : SameReplayed f known known') (hsorted : known.series.IsSorted)
    (hsorted' : known'.series.IsSorted) (name name' : String) :
    (Comparison.lockstep (SameMemo f P)).Holds History.Similar (e.replayKnown name u q known)
      fun _ => e'.replayKnown name' u' q known' := by
  unfold replayKnown
  rw [← hknown.datesOf hsorted hsorted']
  refine Comparison.bind _ (h.holds_backfill hcollected hknown hsorted' name name' _)
    fun filled filled' hfilled => ?_
  have hleaves (n : String) (hn : u.HasLeaf n) : ∃ hist, filled.series.find? n = some hist := by
    obtain ⟨items, hitems, hname⟩ := hn.exists_node
    obtain ⟨hist, hhist⟩ := hcollected.series items n hitems hname
    exact hfilled.2 n hist hhist
  refine Comparison.bind _ (Comparison.mapM _ (R := Eq) (List.forall₂_same.2 fun _ _ => rfl)
    fun d _ hd => ?_) fun versions versions' hversions =>
      Comparison.pure _ (History.similar_ofList hversions)
  subst hd
  exact h.holds_replayAt hu huu hfilled.1 hleaves name name' q d

/-- The history of a leaf of an expanded formula is that of the leaf of the other name. -/
theorem Relabels.leafEntry (h : Relabels f P e e') (hu : e.IsExpanded u) {levels : Nat}
    (levels' : Nat) {leaf : String} (hleaf : leaf ∈ (u.historyLeaves .builtin).series)
    {entry : String × History}
    (hentry : leafEntry (fun leaf => e.historyWithin levels leaf q.absolute) leaf = .ok entry) :
    entry.1 = leaf ∧ ∃ hist, Engine.leafEntry (fun leaf => e'.historyWithin (levels' + 1) leaf q.absolute)
      (f leaf) = .ok (f leaf, hist) ∧ History.Similar entry.2 hist := by
  obtain ⟨rfl, hh⟩ := leafEntry_ok hentry
  obtain ⟨items, hitems, hname⟩ := (mem_series_historyLeaves hu.isFormula).1 hleaf
  have hnone := (hu.nodes _ hitems).leaf items _ rfl hname
  obtain ⟨stored, hstored, -⟩ := collectsSeries_of_historyWithin h.source hnone hh
  obtain ⟨found, hfound, hsimilar⟩ :=
    h.leafHistory (h.known _ stored hstored) hnone levels levels' q.absolute _ hh
  cases hsimilar with
  | @some _ hist hsimilar =>
    refine ⟨rfl, hist, ?_, hsimilar⟩
    unfold Engine.leafEntry
    dsimp only
    rw [hfound]
    rfl

/-- **A formula is replayed as the formula of the other names.** -/
theorem Relabels.replay (h : Relabels f P e e') (hu : e.IsExpanded u) (huu : Tree.Relabels f u u')
    (levels levels' : Nat) (name name' : String) (q : HistoryQuery) :
    Yields History.Similar (e.replay (e.historyWithin levels) name u q)
      (e'.replay (e'.historyWithin (levels' + 1)) name' u' q) := by
  intro hist hhist
  rw [replay_eq] at hhist ⊢
  obtain ⟨series, hseries, hhist⟩ := Result.bind_ok hhist
  obtain ⟨m, hgives⟩ := gives_of_answerOf hhist
  obtain ⟨calls, m₁, hcalls, hgives⟩ := gives_bind.1 hgives
  have hcollected := collected_of_mapM h.source hu hseries hcalls
  rw [h.source.registry] at hseries hcalls
  rw [h.target.registry, autotrophic_relabeled hu.isFormula huu]
  obtain ⟨series', hseries', hrelabels⟩ := OrderedMap.exists_relabels (R := History.Similar)
    (mem_series_relabeled hu.isFormula huu) (fun leaf hleaf entry => h.leafEntry hu levels' hleaf)
    hseries
  obtain ⟨_, m₁', hcalls', rfl, hm₁⟩ := h.holds_callEntries hu q [] [] sameMemo_nil calls m₁ hcalls
  have hsame : SameReplayed f ⟨.ofList series, .ofList calls⟩ ⟨.ofList series', .ofList calls⟩ :=
    ⟨hrelabels, rfl⟩
  obtain ⟨hist', m', hgives', hsimilar, -⟩ := h.holds_replayKnown hu huu hcollected hsame
    (OrderedMap.isSorted_ofList series) (OrderedMap.isSorted_ofList series') name name' m₁ m₁' hm₁
    hist m hgives
  refine ⟨hist', ?_, hsimilar⟩
  rw [hseries']
  exact congrArg Prod.fst (gives_bind.2 ⟨calls, m₁', hcalls', hgives'⟩)

/-! ### Histories -/

/-- The expansion of the formula of the other name. -/
theorem Relabels.expandedTree (h : Relabels f P e e') (hname : P name)
    (hu : e.expandedTree name = .ok u) :
    ∃ u', e'.expandedTree (f name) = .ok u' ∧ Tree.Relabels f u u' := by
  obtain ⟨t, ht, hexpand⟩ := expandedTree_ok hu
  obtain ⟨t', ht', htt'⟩ := h.formulas.some name t hname ht
  have hexpand := Result.mapError_ok hexpand
  obtain ⟨u', hu', huu'⟩ := Tree.exists_expand_of_relabels h.formulas
    (h.formulas.formula name t ht).nodes (h.formulas.leaves name t ht) htt' hexpand
  refine ⟨u', ?_, huu'⟩
  unfold Engine.expandedTree expand
  rw [ht', h.config]
  change ((t'.expand e'.formulaTree? [] e.config.maxDepth).mapError EngineError.tree) = _
  rw [hu']
  rfl

/-- A map that has a name is not empty. -/
theorem exists_size_eq_succ {α : Type} {m : OrderedMap String α} (h : m.contains name = true) :
    ∃ n, m.size = n + 1 := by
  obtain ⟨a, ha⟩ := Option.isSome_iff_exists.1 h
  exact Nat.exists_eq_succ_of_ne_zero (List.length_pos_of_mem (OrderedMap.mem_of_find? ha)).ne'

/-- **The history of a series is that of the series of the other name.** -/
theorem Relabels.history (h : Relabels f P e e') (hname : P name) (q : HistoryQuery) :
    Yields (Option.Rel History.Similar) (e.history name q) (e'.history (f name) q) := by
  unfold Engine.history replayLevels
  cases htree : e.formulaTree? name with
  | error cause => exact absurd htree (h.source.formulas.formulaTree?_ne_error name cause)
  | ok tree =>
    cases tree with
    | none => exact h.leafHistory hname htree _ _ q
    | some t =>
      have hcontains := contains_of_formulaTree? htree
      have hcontains' := (h.contains_formulas hname).trans hcontains
      obtain ⟨levels, hlevels⟩ := exists_size_eq_succ hcontains'
      rw [historyWithin, historyWithin, hcontains, hcontains', if_pos rfl, if_pos rfl, hlevels]
      intro hist hhist
      obtain ⟨u, hu, hhist⟩ := Result.bind_ok hhist
      obtain ⟨replayed, hreplayed, hhist⟩ := Result.bind_ok hhist
      obtain ⟨asked, hasked, hhist⟩ := Result.bind_ok hhist
      obtain rfl := Except.ok.inj hhist
      obtain ⟨u', hu', huu'⟩ := h.expandedTree hname hu
      obtain ⟨replayed', hreplayed', hsimilar⟩ := h.replay (isExpanded h.source hu) huu' _ levels
        name (f name) q _ hreplayed
      obtain ⟨asked', hasked', hsimilar⟩ := h.asAsked hname q hsimilar _ hasked
      refine ⟨some asked', ?_, .some hsimilar⟩
      rw [hu']
      change (e'.replay (e'.historyWithin (levels + 1)) (f name) u' q >>= _) = _
      rw [hreplayed']
      change (e'.asAsked (f name) q replayed' >>= _) = _
      rw [hasked']
      rfl

end Engine

end SeriesAlgebra
