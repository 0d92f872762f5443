import SeriesAlgebra.Engine.Staircase
import SeriesAlgebra.Proofs.Engine.Relabeling.Histories
import SeriesAlgebra.Proofs.Formula.RenamedReferences

/-!
# Staircases of series that have other names

If an engine holds what another one holds under other names, the staircases are the same
up to the names of series, whichever way they are taken (`Engine.Relabels.staircase`).
-/

namespace SeriesAlgebra

open Evaluation Reading Value Series

namespace Engine

open SeriesAlgebra.Tree

variable {f : String → String} {P : String → Prop} {e e' : Engine} {name : String} {u u' : Tree}
  {delay : Span} {window : Window}

/-! ### Staircases of histories -/

/-- A staircase that is taken from a history. -/
theorem Relabels.replayStaircase (h : Relabels f P e e') (hname : P name) (delay : Span)
    (window : Window) : Yields (Option.Rel Similar) (e.replayStaircase name delay window)
      (e'.replayStaircase (f name) delay window) := by
  unfold Engine.replayStaircase
  refine Yields.bind (h.history hname _) fun hist hist' hh => ?_
  cases hh with
  | none => exact Yields.ok .none
  | some hh =>
    exact Yields.bind (Yields.mapError (hh.staircase name (f name) delay window)) fun _ _ hs =>
      Yields.ok (.some hs)

/-! ### Staircases that are assembled -/

/-- The staircase of a reference, with its name. -/
def stairEntry (stairOf : String → Except EngineError (Option Series)) (leaf : String) :
    Except EngineError (String × Series) := do
  (← stairOf leaf).elim (.error (.unknownName leaf)) fun s => .ok (leaf, s)

/-- A formula over the staircases of its references. -/
def assembleKnown (e : Engine) (name : String) (t : Tree) (window : Window)
    (stairs : OrderedMap String Series) : Except EngineError Series := do
  let v ← answerOf (evaluate e.registry (climbing e.reader stairs) t (.latestIn window))
  return (← v.asSeries name).withName name

theorem assembleStaircase_eq (stairOf : String → Except EngineError (Option Series)) (name : String)
    (t : Tree) (window : Window) : e.assembleStaircase stairOf name t window = (do
      let stairs ← (t.seriesReferences e.registry).mapM (stairEntry stairOf)
      e.assembleKnown name t window (.ofList stairs)) := by
  unfold assembleStaircase
  congr 1
  congr 1
  funext leaf
  unfold stairEntry
  congr 1
  funext found
  cases found <;> rfl

theorem stairEntry_ok {stairOf : String → Except EngineError (Option Series)} {leaf : String}
    {entry : String × Series} (h : stairEntry stairOf leaf = .ok entry) :
    entry.1 = leaf ∧ stairOf leaf = .ok (some entry.2) := by
  obtain ⟨found, hfound, h⟩ := Result.bind_ok h
  cases found with
  | none => cases h
  | some s =>
    obtain rfl := Except.ok.inj h
    exact ⟨rfl, hfound⟩

/-- The references of a formula with other names. -/
theorem mem_seriesReferences_relabeled (ht : u.Everywhere IsFormulaNode) (huu : Tree.Relabels f u u')
    (name' : String) : name' ∈ u'.seriesReferences .builtin ↔
      ∃ name ∈ u.seriesReferences .builtin, name' = f name := by
  unfold seriesReferences
  rw [huu.references ht, mem_sortedSet, List.mem_map]
  simp only [mem_sortedSet]
  exact ⟨fun ⟨n, hn, heq⟩ => ⟨n, hn, heq.symm⟩, fun ⟨n, hn, heq⟩ => ⟨n, hn, heq.symm⟩⟩

/-- A formula is evaluated alike over staircases that are the same under other names. -/
theorem Relabels.assembleKnown (h : Relabels f P e e') (ht : u.Everywhere IsFormulaNode)
    (huu : Tree.Relabels f u u') {stairs stairs' : OrderedMap String Series}
    (hstairs : OrderedMap.Relabels f Similar stairs stairs')
    (hleaves : ∀ n, u.HasLeaf n → ∃ s, stairs.find? n = some s) (name name' : String)
    (window : Window) : Yields Similar (e.assembleKnown name u window stairs)
      (e'.assembleKnown name' u' window stairs') := by
  unfold Engine.assembleKnown
  rw [h.source.registry, h.target.registry]
  refine Yields.bind (yields_answerOf (Comparison.holds_relabeled (Comparison.lockstep (SameMemo f P))
    (B := fun _ => climbing e'.reader stairs') ht huu (fun n q hn => ?_)
    (fun _ _ _ _ => Comparison.pure _ .none) _)) fun v w hvw =>
      Yields.bind (hvw.yields_asSeries name name') fun s s' hs => Yields.ok (hs.withName _ _)
  obtain ⟨s, hs⟩ := hleaves n hn
  obtain ⟨s', hs', hsimilar⟩ := hstairs.image n s hs
  simp only [climbing, hs, hs']
  exact Comparison.pure _ (hsimilar.window q.window)

/-- What is no formula has the staircase of its history. -/
theorem staircaseWithin_stored (hnone : e.formulaTree? name = .ok none) (levels : Nat) :
    e.staircaseWithin delay window (levels + 1) name = e.replayStaircase name delay window := by
  rw [staircaseWithin, not_contains hnone, if_neg Bool.false_ne_true]

/-- A leaf that has a staircase is stored. -/
theorem exists_stored_of_staircase (he : e.Consistent) (hnone : e.formulaTree? name = .ok none)
    {s : Series} (hs : e.replayStaircase name delay window = .ok (some s)) :
    ∃ stored, e.store.series.find? name = some stored := by
  obtain ⟨hist, hhist, hs⟩ := Result.bind_ok hs
  unfold history replayLevels at hhist
  rw [historyWithin_stored he hnone] at hhist
  cases hstored : e.store.series.find? name with
  | some stored => exact ⟨stored, rfl⟩
  | none =>
    unfold Store.history? at hhist
    rw [hstored] at hhist
    obtain rfl := Except.ok.inj hhist
    cases hs

/-- The staircase of a reference of an expanded formula is that of the reference of the other
name. -/
theorem Relabels.stairEntry (h : Relabels f P e e') (hu : e.IsExpanded u) {levels : Nat}
    (levels' : Nat) {leaf : String} (hleaf : leaf ∈ u.seriesReferences .builtin)
    {entry : String × Series}
    (hentry : stairEntry (e.staircaseWithin delay window levels) leaf = .ok entry) :
    entry.1 = leaf ∧ ∃ s, Engine.stairEntry (e'.staircaseWithin delay window (levels' + 1))
      (f leaf) = .ok (f leaf, s) ∧ entry.2.Similar s := by
  obtain ⟨rfl, hs⟩ := stairEntry_ok hentry
  obtain ⟨items, hitems, hname⟩ :=
    (Registry.namesByLeaves_builtin.hasLeaf_of_mem_references (mem_sortedSet.1 hleaf)).exists_node
  have hnone := (hu.nodes _ hitems).leaf items _ rfl hname
  cases levels with
  | zero => cases hs
  | succ levels =>
    rw [staircaseWithin_stored hnone] at hs
    obtain ⟨stored, hstored⟩ := exists_stored_of_staircase h.source hnone hs
    have hleafName := h.known _ stored hstored
    obtain ⟨found, hfound, hsimilar⟩ := h.replayStaircase hleafName delay window _ hs
    cases hsimilar with
    | @some _ s hsimilar =>
      refine ⟨rfl, s, ?_, hsimilar⟩
      unfold Engine.stairEntry
      rw [staircaseWithin_stored (h.formulas.none _ hleafName hnone), hfound]
      rfl

/-- **A staircase is assembled as the one of the other names.** -/
theorem Relabels.assembleStaircase (h : Relabels f P e e') (hu : e.IsExpanded u)
    (huu : Tree.Relabels f u u') (levels levels' : Nat) (name name' : String) :
    Yields Similar (e.assembleStaircase (e.staircaseWithin delay window levels) name u window)
      (e'.assembleStaircase (e'.staircaseWithin delay window (levels' + 1)) name' u' window) := by
  intro s hs
  rw [assembleStaircase_eq] at hs ⊢
  obtain ⟨stairs, hstairs, hs⟩ := Result.bind_ok hs
  rw [h.source.registry] at hstairs
  rw [h.target.registry]
  obtain ⟨stairs', hstairs', hrelabels⟩ := OrderedMap.exists_relabels (R := Similar)
    (mem_seriesReferences_relabeled hu.isFormula huu)
    (fun leaf hleaf entry => h.stairEntry hu levels' hleaf) hstairs
  have hleaves (n : String) (hn : u.HasLeaf n) :
      ∃ s, (OrderedMap.ofList stairs).find? n = some s := by
    obtain ⟨entry, hentry, hstair⟩ := Result.exists_of_mem_left (Result.forall₂_of_mapM hstairs)
      (mem_sortedSet.2 (hn.mem_references hu.isFormula))
    obtain ⟨rfl, -⟩ := stairEntry_ok hstair
    exact OrderedMap.exists_find?_ofList (List.mem_map_of_mem hentry)
  rw [hstairs']
  exact h.assembleKnown hu.isFormula huu hrelabels hleaves name name' window s hs

/-! ### Staircases -/

/-- **The staircase of a series is that of the series of the other name.** -/
theorem Relabels.staircase (h : Relabels f P e e') (hname : P name) (delay : Span)
    (window : Window) : Yields (Option.Rel Similar) (e.staircase name delay window)
      (e'.staircase (f name) delay window) := by
  unfold Engine.staircase replayLevels
  cases htree : e.formulaTree? name with
  | error cause => exact absurd htree (h.source.formulas.formulaTree?_ne_error name cause)
  | ok tree =>
    cases tree with
    | none =>
      rw [staircaseWithin_stored htree, staircaseWithin_stored (h.formulas.none name hname htree)]
      exact h.replayStaircase hname delay window
    | some t =>
      have hcontains := contains_of_formulaTree? htree
      have hcontains' := (h.contains_formulas hname).trans hcontains
      obtain ⟨levels, hlevels⟩ := exists_size_eq_succ hcontains'
      rw [staircaseWithin, staircaseWithin, hcontains, hcontains', if_pos rfl, if_pos rfl, hlevels]
      intro s hs
      obtain ⟨u, hu, hs⟩ := Result.bind_ok hs
      obtain ⟨u', hu', huu'⟩ := h.expandedTree hname hu
      rw [hu']
      change ∃ s', (if (e'.config.fastStaircase && u'.isPointwise e'.registry) = true then _ else _) =
        Except.ok s' ∧ _
      rw [h.config, h.target.registry, huu'.isPointwise, ← h.source.registry]
      by_cases hfast : (e.config.fastStaircase && u.isPointwise e.registry) = true
      · rw [if_pos hfast] at hs ⊢
        obtain ⟨stair, hstair, hsome⟩ := Result.bind_ok hs
        obtain rfl := Except.ok.inj hsome
        obtain ⟨s', hs', hsimilar⟩ := h.assembleStaircase (isExpanded h.source hu) huu' _ levels name
          (f name) stair hstair
        refine ⟨some s', ?_, .some hsimilar⟩
        rw [hs']
        rfl
      · rw [if_neg hfast] at hs ⊢
        exact h.replayStaircase hname delay window _ hs

end Engine

end SeriesAlgebra
