import SeriesAlgebra.Proofs.Engine.Ordered
import SeriesAlgebra.Proofs.Store.Deltas

/-!
# Histories of differences

A history of differences is replayed from the value of the series right before its first
version (`Engine.before`). The replay gives the versions of the full history **if no value
vanishes from one version to the next, and only then** (`Engine.patchedAll_history_iff`):
stored series drop the points that an update erases, and formulas lose stamps when their
leaves do, and the differences do not tell (`Engine.patchedAll_history_ne`).
-/

namespace SeriesAlgebra

open Evaluation Reading Series

namespace Engine

variable {e : Engine} {name : String} {q : HistoryQuery} {h : History}

/-- **What a history of differences starts from**: the value of the series right before the first
version, if there is a version. -/
def before (e : Engine) (name : String) (q : HistoryQuery) (h : History) :
    Except EngineError (Option Series) :=
  match h.keys.head? with
  | none => .ok none
  | some first => e.read name (q.asOf (instantBefore first))


theorem asAsked_diff {b : Option Series} (hb : e.before name q h = .ok b) :
    e.asAsked name { q with asDiff := true } h = .ok (History.diffs h b) := by
  unfold asAsked
  unfold before at hb
  cases hfirst : h.keys.head? with
  | none =>
    rw [hfirst] at hb
    obtain rfl := Except.ok.inj hb
    rfl
  | some first =>
    rw [hfirst] at hb
    change e.read name (q.asOf (instantBefore first)) = .ok b at hb
    change (do let b ← e.read name (q.asOf (instantBefore first)); return History.diffs h b) = _
    rw [hb]
    rfl

/-- What comes before the first version is in order. -/
theorem isSorted_before (he : e.IsOrdered) {b : Option Series} (hb : e.before name q h = .ok b) :
    (b.getD (Series.empty name)).IsSorted := by
  cases b with
  | none => exact .nil
  | some s =>
    unfold before at hb
    split at hb
    · cases hb
    · exact isSorted_of_read he hb

/-- What the history of a formula or of a stored series is. -/
theorem history_cases (hname : e.formulas.contains name = true ∨ e.store.contains name = true)
    (hq : q.asDiff = false) (hh : e.history name q = .ok (some h)) :
    (∃ u, e.formulas.contains name = true ∧ e.expandedTree name = .ok u ∧
      e.replay (e.historyWithin e.formulas.size) name u q = .ok h) ∨
    e.formulas.contains name = false ∧ e.store.history? name q.inserted q.window = some h := by
  unfold history replayLevels at hh
  rw [historyWithin] at hh
  cases hformula : e.formulas.contains name with
  | true =>
    rw [hformula, if_pos rfl] at hh
    obtain ⟨u, hu, hh⟩ := Result.bind_ok hh
    obtain ⟨replayed, hreplay, hh⟩ := Result.bind_ok hh
    rw [asAsked_full hq] at hh
    obtain rfl := Option.some.inj (Except.ok.inj hh)
    exact Or.inl ⟨u, rfl, hu, hreplay⟩
  | false =>
    have hstored : e.store.contains name = true :=
      hname.resolve_left (by rw [hformula]; exact Bool.false_ne_true)
    rw [hformula, if_neg Bool.false_ne_true] at hh
    cases hhistory : e.store.history? name q.inserted q.window with
    | none =>
      rw [Store.contains, OrderedMap.contains, Option.map_eq_none_iff.1 hhistory] at hstored
      cases hstored
    | some stored =>
      rw [hhistory] at hh
      dsimp only at hh
      rw [asAsked_full hq] at hh
      obtain rfl := Option.some.inj (Except.ok.inj hh)
      exact Or.inr ⟨rfl, rfl⟩

/-- The differences of a history are those of its versions. -/
theorem history_diff (hname : e.formulas.contains name = true ∨ e.store.contains name = true)
    (hq : q.asDiff = false) (hh : e.history name q = .ok (some h)) {b : Option Series}
    (hb : e.before name q h = .ok b) :
    e.history name { q with asDiff := true } = .ok (some (History.diffs h b)) := by
  have hdiffs := asAsked_diff hb
  unfold history replayLevels
  rw [historyWithin]
  rcases history_cases hname hq hh with ⟨u, hformula, hu, hreplay⟩ | ⟨hformula, hstored⟩
  · rw [hformula, if_pos rfl, hu]
    change (do
      let h ← e.replay (e.historyWithin e.formulas.size) name u q
      return some (← e.asAsked name { q with asDiff := true } h)) = _
    rw [hreplay]
    change (do return some (← e.asAsked name { q with asDiff := true } h)) = _
    rw [hdiffs]
    rfl
  · rw [hformula, if_neg Bool.false_ne_true]
    dsimp only
    rw [hstored]
    change (do return some (← e.asAsked name { q with asDiff := true } h)) = _
    rw [hdiffs]
    rfl

/-- A history is in the order of its dates. -/
theorem isSorted_history (he : e.IsOrdered)
    (hname : e.formulas.contains name = true ∨ e.store.contains name = true)
    (hq : q.asDiff = false) (hh : e.history name q = .ok (some h)) : h.IsSorted := by
  rcases history_cases hname hq hh with ⟨u, -, -, hreplay⟩ | ⟨-, hstored⟩
  · exact isSorted_replay hreplay
  · obtain ⟨stored, hfind, rfl⟩ := Option.map_eq_some_iff.1 hstored
    have hsorted := (he.store.stored name stored hfind).sorted
    exact OrderedMap.isSorted_mapValues (OrderedMap.isSorted_filter hsorted _) _

/-- **Differences are replayed right if no value vanishes from a version to the next, and only
then.** -/
theorem patchedAll_history_iff {store : Store} (hstore : store.Reachable) {config : Config}
    {first : Engine} (hfirst : create store config .builtin = .ok first)
    (he : Reaches (fun _ _ => True) first e) (hsources : ∀ source ∈ e.sources, source.IsOrdered)
    (hname : e.formulas.contains name = true ∨ e.store.contains name = true)
    (hq : q.asDiff = false) (hh : e.history name q = .ok (some h)) {b : Option Series}
    (hb : e.before name q h = .ok b) :
    ∃ deltas, e.history name { q with asDiff := true } = .ok (some deltas) ∧
      deltas.keys = h.keys ∧ h.keys.Pairwise (· < ·) ∧
      (List.Forall₂ (fun s r => s.dropMissing.samePoints r.dropMissing = true)
        ((b.getD (Series.empty name)).patchedAll deltas.values) h.values ↔
          List.IsChain Keeps (b.toList ++ h.values)) := by
  have he := isOrdered_of_reaches hstore hfirst he hsources
  have hordered := isOrdered_of_history he hq hh
  refine ⟨_, history_diff hname hq hh hb, keys_diffs h b, isSorted_history he hname hq hh, ?_⟩
  rw [← patchedAll_diffs_iff hordered name, forall₂_saysAs_iff]
  · exact isSorted_patchedAll (isSorted_before he hb) _
  · intro r hr
    obtain ⟨entry, hentry, rfl⟩ := List.mem_map.1 hr
    exact hordered entry hentry

theorem reaches_revising (formula : String) :
    Reaches (fun _ _ => True) (overNothing .initial) (revising formula) := by
  have hfirst := Reaches.refl (P := fun _ _ => True) (e := overNothing .initial)
  have hsecond := hfirst.perform (.updateSeries "a"
    (.ofPoints "a" [(dayOf2024 0, 1.0), (dayOf2024 1, 2.0)]) (dayOf2024 0) false) trivial
  have hthird := hsecond.perform (.updateSeries "a" (.ofPoints "a" [(dayOf2024 1, 3.0)])
    (dayOf2024 2) false) trivial
  exact hthird.perform (.registerFormula "f" formula ⟨none, false⟩) trivial

/-- All versions in full. -/
def allVersions : HistoryQuery := .allIn .unbounded

/-- Twice a stored series, of which one value changes. -/
theorem patchedAll_history_revising : ∃ h b deltas,
    (revising "(* 2 (series \"a\"))").history "f" allVersions = .ok (some h) ∧
    (revising "(* 2 (series \"a\"))").before "f" allVersions h = .ok b ∧
    (revising "(* 2 (series \"a\"))").history "f" { allVersions with asDiff := true } =
      .ok (some deltas) ∧ deltas.keys = [dayOf2024 0, dayOf2024 2] ∧
    List.Forall₂ (fun s r => s.dropMissing.samePoints r.dropMissing = true)
      ((b.getD (Series.empty "f")).patchedAll deltas.values) h.values := by
  have hanswers : (do
      let h ← (revising "(* 2 (series \"a\"))").history "f" allVersions
      let b ← (revising "(* 2 (series \"a\"))").before "f" allVersions (h.getD .empty)
      return (h.map fun h : History => (h.keys, decide (List.IsChain
        (fun s r : Series => s.index.stamps ⊆ r.index.stamps) (b.toList ++ h.values))))) =
      .ok (some ([dayOf2024 0, dayOf2024 2], true)) :=
    Result.ok_of_toOption (by decide +kernel)
  obtain ⟨answer, hh, hanswers⟩ := Result.bind_ok hanswers
  obtain ⟨b, hb, hanswers⟩ := Result.bind_ok hanswers
  obtain ⟨h, rfl, heq⟩ := Option.map_eq_some_iff.1 (Except.ok.inj hanswers)
  obtain ⟨hkeys, hchain⟩ := Prod.mk.inj heq
  have hsources : ∀ source ∈ (revising "(* 2 (series \"a\"))").sources, source.IsOrdered := by
    rw [(reachable_revising _).consistent.sources]
    exact fun _ h => absurd h List.not_mem_nil
  obtain ⟨deltas, hdeltas, hkeys', -, hiff⟩ := patchedAll_history_iff .empty
    (create_overNothing rfl) (reaches_revising _) hsources (Or.inl (by decide +kernel)) rfl hh hb
  exact ⟨h, b, deltas, hh, hb, hdeltas, hkeys'.trans hkeys,
    hiff.2 ((of_decide_eq_true hchain).imp fun _ _ => keeps_of_subset)⟩

/-- An engine with a stored series from which an update erases a point. -/
def erasing : Engine :=
  (overNothing .initial).performAll
    [.updateSeries "a" (.ofPoints "a" [(dayOf2024 0, 1.0), (dayOf2024 1, 2.0)]) (dayOf2024 0) false,
     .updateSeries "a" (.ofPoints "a" [(dayOf2024 0, missing)]) (dayOf2024 1) false]

/-- **A replay of differences may keep what is erased**: the difference of the second version is
empty. -/
theorem patchedAll_history_ne : ¬ ∀ e, Reaches (fun _ _ => True) (overNothing .initial) e →
    ∀ name q h b deltas, e.store.contains name = true → q.asDiff = false →
      e.history name q = .ok (some h) → e.before name q h = .ok b →
      e.history name { q with asDiff := true } = .ok (some deltas) →
      List.Forall₂ (fun s r => s.dropMissing.samePoints r.dropMissing = true)
        ((b.getD (Series.empty name)).patchedAll deltas.values) h.values := by
  intro hall
  have hanswers : (do
      let h ← erasing.history "a" allVersions
      let b ← erasing.before "a" allVersions (h.getD .empty)
      let deltas ← erasing.history "a" { allVersions with asDiff := true }
      return ((h.isSome && deltas.isSome), decide (List.Forall₂
        (fun s r : Series => s.dropMissing.samePoints r.dropMissing = true)
        ((b.getD (Series.empty "a")).patchedAll (deltas.getD .empty).values)
        (h.getD .empty).values))) = .ok (true, false) :=
    Result.ok_of_toOption (by decide +kernel)
  obtain ⟨h, hh, hanswers⟩ := Result.bind_ok hanswers
  obtain ⟨b, hb, hanswers⟩ := Result.bind_ok hanswers
  obtain ⟨deltas, hdeltas, hanswers⟩ := Result.bind_ok hanswers
  obtain ⟨hsome, hdiffer⟩ := Prod.mk.inj (Except.ok.inj hanswers)
  rw [Bool.and_eq_true, Option.isSome_iff_exists, Option.isSome_iff_exists] at hsome
  obtain ⟨⟨h, rfl⟩, deltas, rfl⟩ := hsome
  exact of_decide_eq_false hdiffer (hall erasing (Reaches.refl.performAll _ fun _ _ _ => trivial) "a"
    allVersions h b deltas (by decide +kernel) rfl hh hb hdeltas)

end Engine

end SeriesAlgebra
