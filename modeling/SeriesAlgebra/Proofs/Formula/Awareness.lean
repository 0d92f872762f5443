import SeriesAlgebra.Proofs.Evaluation.NamedLeaves
import SeriesAlgebra.Proofs.Formula.RenamedReferences

/-!
# What awareness of a formula depends on

Each reference of a formula counts as what an operator around it forces, or else as what the
series is. So the awareness of a formula depends on two things: what is forced, which is a
matter of the formula alone, and the awareness of the series that nothing is forced on
(`Tree.unforcedReferences`). That all references that are known agree with a given awareness is
to say that they do in either case (`Tree.agrees_iff`).

Awareness is not changed by writing a formula and reading it again
(`Tree.awareness_canonical`), and after a renaming it is that of the series before
(`Tree.awareness_renameSeries`).
-/

namespace SeriesAlgebra

/-! ### A common awareness -/

/-- **References have a common awareness**, which is a given one if it is known at all, just if each of
them has the given one if its own is known. -/
theorem exists_commonAwareness_iff {formula : String} {references : List ReferenceAwareness}
    {own : Option Bool} :
    (∃ common, commonAwareness formula references = .ok common ∧
        ∀ aware, common = some aware → own = some aware) ↔
      ∀ r ∈ references, ∀ aware, r.aware = some aware → own = some aware := by
  have hmem (aware : Bool) : (∃ r ∈ references, r.aware = some aware) ↔
      aware ∈ references.filterMap ReferenceAwareness.aware := List.mem_filterMap.symm
  have hall : (∀ r ∈ references, ∀ aware, r.aware = some aware → own = some aware) ↔
      ∀ aware ∈ references.filterMap ReferenceAwareness.aware, own = some aware := by
    refine ⟨fun h aware haware => ?_, fun h r hr aware haware => h aware ((hmem _).1 ⟨r, hr, haware⟩)⟩
    obtain ⟨r, hr, haware⟩ := (hmem _).2 haware
    exact h r hr aware haware
  rw [hall]
  unfold commonAwareness
  cases references.filterMap ReferenceAwareness.aware with
  | nil => simp
  | cons first rest =>
    -- The first awareness that is known is compared with the others.
    dsimp only
    constructor
    · rintro ⟨common, hcommon, hown⟩ aware haware
      split at hcommon
      · rename_i hrest
        obtain rfl := Except.ok.inj hcommon
        rcases List.mem_cons.1 haware with rfl | haware
        · exact hown _ rfl
        · exact hown _ (congrArg some (beq_iff_eq.1 (List.all_eq_true.1 hrest aware haware)).symm)
      · cases hcommon
    · intro h
      have hfirst := h first List.mem_cons_self
      refine ⟨some first, if_pos (List.all_eq_true.2 fun aware haware => ?_), fun aware haware => ?_⟩
      · have haware := h aware (List.mem_cons_of_mem _ haware)
        exact beq_iff_eq.2 (Option.some.inj (haware.symm.trans hfirst))
      · exact hfirst.trans haware

namespace Tree

variable {registry : Registry} {lookup : String → Option Bool} {path : List String}
  {forced own : Option Bool} {t : Tree}

/-! ### Lists -/

theorem awarenessOfAll_eq (registry : Registry) (lookup : String → Option Bool) (path : List String)
    (forced : Option Bool) (ts : List Tree) : awarenessOfAll registry lookup path forced ts =
      ts.flatMap (awarenessBelow registry lookup path forced) := by
  induction ts with
  | nil => rfl
  | cons t rest ih => rw [awarenessOfAll, ih, List.flatMap_cons]

/-- The references of a call are those that it names itself, or those of its arguments. -/
theorem awarenessBelow_list (items : List Tree) :
    (list items).awarenessBelow registry lookup path forced =
      match headSymbol? items with
      | none => []
      | some symbol =>
        let forced := ((registry.find? symbol).bind Operator.forcedAwareness).or forced
        let path := path ++ [pathStep symbol path.length]
        match namedSeries? registry (list items) with
        | some names => namedAwareness names path forced lookup
        | none => items.tail.flatMap (awarenessBelow registry lookup path forced) := by
  cases items with
  | nil => rw [awarenessBelow]; rfl
  | cons head args =>
    rw [awarenessBelow, operator?, namedSeries?, Registry.operatorOf?, operator?]
    cases headSymbol? (head :: args) with
    | none => rfl
    | some symbol =>
      rw [Option.bind_some]
      dsimp only
      rw [awarenessOfAll_eq]
      rfl

/-! ### What is forced and what is not -/

/-- Whether all references of a formula whose awareness is known have a given one. -/
def Agrees (registry : Registry) (lookup : String → Option Bool) (own : Option Bool) (t : Tree) :
    Prop :=
  ∀ r ∈ t.awareness registry lookup, ∀ aware, r.aware = some aware → own = some aware

/-- The series that a formula refers to where no operator forces awareness. -/
def unforcedReferences (registry : Registry) (t : Tree) : List String :=
  ((t.awareness registry fun _ => none).filter (·.aware.isNone)).map (·.series)

theorem mem_unforcedReferences {name : String} : name ∈ t.unforcedReferences registry ↔
    ∃ r ∈ t.awareness registry fun _ => none, r.aware = none ∧ r.series = name := by
  simp only [unforcedReferences, List.mem_map, List.mem_filter, Option.isNone_iff_eq_none, and_assoc]

/-- Looking up awareness fills in what is not forced. -/
theorem awarenessBelow_eq_map (registry : Registry) (lookup : String → Option Bool)
    (path : List String) (forced : Option Bool) (t : Tree) :
    t.awarenessBelow registry lookup path forced =
      (t.awarenessBelow registry (fun _ => none) path forced).map fun r =>
        { r with aware := r.aware.or (lookup r.series) } := by
  induction t using inductionOn generalizing path forced with
  | atom l => rw [awarenessBelow, awarenessBelow]; rfl
  | list items ih =>
    rw [awarenessBelow_list, awarenessBelow_list]
    cases headSymbol? items with
    | none => rfl
    | some symbol =>
      dsimp only
      cases namedSeries? registry (list items) with
      | some names =>
        simp only [namedAwareness, List.map_map, Function.comp_def, Option.or_none]
      | none =>
        dsimp only
        rw [List.map_flatMap]
        exact List.flatMap_congr fun a ha => ih a (List.mem_of_mem_tail ha) _ _

/-- **A formula agrees with an awareness** just if what is forced does, and what is found of the series
that nothing is forced on. -/
theorem agrees_iff : t.Agrees registry lookup own ↔ t.Agrees registry (fun _ => none) own ∧
    ∀ name ∈ t.unforcedReferences registry, ∀ aware, lookup name = some aware →
      own = some aware := by
  have hlookup : t.Agrees registry lookup own ↔ ∀ r ∈ t.awareness registry fun _ => none,
      ∀ aware, r.aware.or (lookup r.series) = some aware → own = some aware := by
    rw [Agrees, awareness, awarenessBelow_eq_map, List.forall_mem_map]
    rfl
  rw [hlookup]
  constructor
  · intro h
    constructor
    · intro r hr aware haware
      exact h r hr aware (by rw [haware, Option.some_or])
    · intro name hname aware haware
      obtain ⟨r, hr, hnone, rfl⟩ := mem_unforcedReferences.1 hname
      exact h r hr aware (by rw [hnone, Option.none_or, haware])
  · rintro ⟨hforced, hunforced⟩ r hr aware haware
    rcases Option.or_eq_some_iff.1 haware with haware | ⟨hnone, haware⟩
    · exact hforced r hr aware haware
    · exact hunforced r.series (mem_unforcedReferences.2 ⟨r, hr, hnone, rfl⟩) aware haware

/-- Only the series that nothing is forced on are looked up. -/
theorem Agrees.congr {other : String → Option Bool} (h : t.Agrees registry lookup own)
    (heq : ∀ name ∈ t.unforcedReferences registry, other name = lookup name) :
    t.Agrees registry other own := by
  obtain ⟨hforced, hunforced⟩ := agrees_iff.1 h
  refine agrees_iff.2 ⟨hforced, fun name hname aware haware => hunforced name hname aware ?_⟩
  rwa [← heq name hname]

/-- A series that nothing is forced on is referred to. -/
theorem mem_seriesReferences_of_unforced (ht : t.Everywhere fun u => u.isHeadedNode = true)
    {name : String} (h : name ∈ t.unforcedReferences registry) :
    name ∈ t.seriesReferences registry := by
  obtain ⟨r, hr, -, rfl⟩ := mem_unforcedReferences.1 h
  rw [seriesReferences, mem_sortedSet, ← series_awarenessBelow ht [] none]
  exact List.mem_map_of_mem hr

/-! ### Writing and reading -/

/-- **What is written in another way has the same awareness.** -/
theorem awareness_canonical (hregistry : registry.NamesByLeaves) (ht : t.Everywhere IsReadableNode)
    (lookup : String → Option Bool) :
    t.canonical.awareness registry lookup = t.awareness registry lookup := by
  suffices h : ∀ path forced, t.canonical.awarenessBelow registry lookup path forced =
      t.awarenessBelow registry lookup path forced from h [] none
  induction t using inductionOn with
  | atom l =>
    intro path forced
    rw [canonical_atom, awarenessBelow, awarenessBelow]
  | list items ih =>
    intro path forced
    obtain ⟨hheaded, hitems⟩ := everywhere_list.1 ht
    rw [canonical_list, awarenessBelow_list, awarenessBelow_list, hregistry.namedSeries?_list,
      hregistry.namedSeries?_list, leafName?_map_canonical hheaded, headSymbol?_map_canonical hheaded,
      ← List.map_tail]
    cases headSymbol? items with
    | none => rfl
    | some symbol =>
      cases leafName? items with
      | some name => rfl
      | none =>
        dsimp only [Option.map_none]
        rw [List.flatMap_map]
        exact List.flatMap_congr fun a ha =>
          ih a (List.mem_of_mem_tail ha) (hitems a (List.mem_of_mem_tail ha)) _ _

/-! ### Renaming -/

variable {old new : String}

/-- An item has the awareness that it would have on its own. -/
theorem awarenessBelow_renameItem (named : Bool) (t : Tree) :
    (renameItem old new named t).awarenessBelow registry lookup path forced =
      (t.renameSeries old new).awarenessBelow registry lookup path forced := by
  cases t with
  | list items => rw [renameItem_list]
  | atom l =>
    obtain ⟨m, hm⟩ := alike_atom (alike_renameItem_atom old new named l)
    rw [hm, renameSeries, awarenessBelow, awarenessBelow]

/-- **After a renaming a formula has the awareness of the series before**, if its calls are followed. -/
theorem awareness_renameSeries (ht : t.Everywhere (IsFollowed registry old new))
    (lookup : String → Option Bool) :
    (t.renameSeries old new).awareness registry lookup =
      (t.awareness registry fun name => lookup (renamed old new name)).map fun r =>
        { r with series := renamed old new r.series } := by
  suffices h : ∀ path forced, (t.renameSeries old new).awarenessBelow registry lookup path forced =
      (t.awarenessBelow registry (fun name => lookup (renamed old new name)) path forced).map fun r =>
        { r with series := renamed old new r.series } from h [] none
  induction t using inductionOn with
  | atom l =>
    intro path forced
    rw [renameSeries, awarenessBelow, awarenessBelow]
    rfl
  | list items ih =>
    intro path forced
    obtain ⟨hfollowed, hitems⟩ := everywhere_list.1 ht
    -- Whether an item is a name depends on the one before, so the items are taken from the left.
    have hall (path : List String) (forced : Option Bool) : ∀ others ⊆ items, ∀ named,
        (renameItems old new named others).flatMap (awarenessBelow registry lookup path forced) =
          (others.flatMap (awarenessBelow registry (fun name => lookup (renamed old new name))
            path forced)).map fun r => { r with series := renamed old new r.series } := by
      intro others
      induction others with
      | nil => exact fun _ _ => rfl
      | cons t rest ihrest =>
        intro hsub named
        have ht : t ∈ items := hsub List.mem_cons_self
        rw [renameItems, List.flatMap_cons, List.flatMap_cons, List.map_append,
          awarenessBelow_renameItem, ih t ht (hitems t ht),
          ihrest fun u hu => hsub (List.mem_cons_of_mem _ hu)]
    have htail : (renameItems old new false items).tail =
        renameItems old new (items.head?.any isSeriesSymbol) items.tail := by
      cases items <;> rfl
    unfold IsFollowed at hfollowed
    rw [renameSeries] at hfollowed ⊢
    rw [awarenessBelow_list, awarenessBelow_list, headSymbol?_renameItems, hfollowed, htail]
    cases headSymbol? items with
    | none => rfl
    | some symbol =>
      dsimp only
      cases namedSeries? registry (list items) with
      | some names => simp only [Option.map_some, namedAwareness, List.map_map, Function.comp_def]
      | none => exact hall _ _ items.tail (List.tail_subset items) _

/-- A formula after a renaming agrees with what it did before. -/
theorem agrees_renameSeries (ht : t.Everywhere (IsFollowed registry old new)) :
    (t.renameSeries old new).Agrees registry lookup own ↔
      t.Agrees registry (fun name => lookup (renamed old new name)) own := by
  rw [Agrees, awareness_renameSeries ht, List.forall_mem_map]
  rfl

end Tree

end SeriesAlgebra
