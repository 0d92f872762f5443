import SeriesAlgebra.Proofs.Evaluation.Carrying
import SeriesAlgebra.Proofs.Series.Windows

/-!
# Windows on the way down a formula

A formula asks its leaves for another window than it is asked for wherever it slices or
changes clocks. Whatever becomes of two windows on the way down, what comes up from leaves
that are cut alike is cut alike again, at each operator for the windows it is asked for itself
(`Builtin.yields_cutAlike`). So the value of a formula is cut alike for any two windows
(`Comparison.holds_cutAlike`), unless it looks beyond the window: a running sum and a constant
series begin where the window does, and to fill or to prune is to look at other points
(`Tree.IsCuttable`).
-/

namespace SeriesAlgebra

open Evaluation Value Series Reduction Application

/-! ### Operators -/

section Operators

variable {v w : Window}

/-- A combination row by row keeps that series agree: a row without values makes no point. -/
theorem keptByCombination_agrees {combine : String → List Series → Except FrameError Series}
    {point : List Float → List Float → Option Float} (hcombine : IsRowwise combine point) :
    KeptByCombination (Agrees v w) combine := by
  intro name inputs others h
  refine hcombine.yields h (fun _ _ hst => hst.alike) name fun u u' halike hne hne' hu hu' =>
    ⟨⟨halike.left.sorted, halike.right.sorted, fun t ht => ?_, fun t ht => ?_, fun t hv hw => ?_⟩,
      halike⟩
  -- Outside of a window all inputs miss their values, and such a row makes no point.
  · refine (hu t).trans (point_eq_none hcombine hne (fun s hs => ?_) _)
    obtain ⟨r, -, hst⟩ := Result.exists_of_mem_left h hs
    rw [valueOn, hst.leftInside t ht, Option.getD_none]
  · refine (hu' t).trans (point_eq_none hcombine hne' (fun r hr => ?_) _)
    obtain ⟨s, -, hst⟩ := Result.exists_of_mem_right h hr
    rw [valueOn, hst.rightInside t ht, Option.getD_none]
  · rw [hu, hu', rowAt_congr (h.imp fun s r hst => by rw [valueOn, valueOn, hst.same t hv hw])]

/-- **Combining keeps that series agree.** -/
theorem keptByCombining_agrees : KeptByCombining (Agrees v w) where
  combine op hs ht := hs.yields_combine ht op
  withScalar _ _ _ hs := hs.mapValues _
  mapValues _ hs := hs.mapValues _
  sum := keptByCombination_agrees isRowwise_sum
  priority := keptByCombination_agrees isRowwise_priority
  least := keptByCombination_agrees isRowwise_least
  greatest := keptByCombination_agrees isRowwise_greatest
  mean := keptByCombination_agrees isRowwise_mean

end Operators

namespace Tree

/-- **Whether a node can be cut**: it is neither a running sum nor a constant series, and it neither
fills nor prunes. -/
def IsCuttable : Tree → Prop
  | atom _ => True
  | list items => ¬ Calls items .cumsum ∧ ¬ Calls items .constant ∧ IsPlainCall items

instance : DecidablePred IsCuttable
  | atom _ => .isTrue trivial
  | list items => inferInstanceAs (Decidable (¬ headSymbol? items = some Builtin.cumsum.name ∧
      ¬ headSymbol? items = some Builtin.constant.name ∧
      "fill" ∉ keywordNames items.tail ∧ "prune" ∉ keywordNames items.tail))

end Tree

/-- Whether values are equal, or series that agree in the windows of two queries. -/
abbrev AgreeInWindows (q q' : Query) : Value → Value → Prop := Related (Agrees q.window q'.window)

/-- **An operator keeps that series agree**: if what its arguments give agrees in the windows that
it asks them for, its result agrees in those that it is asked for. -/
theorem Builtin.yields_cutAlike {b : Builtin} (happlied : isApplied b = true) {items : List Tree}
    (hb : Tree.Calls items b) (hstands : (Tree.list items).Stands)
    (hcut : (Tree.list items).IsCuttable) {m m' : OrderedMap String Value}
    (hnames : ∀ name, m.contains name = true → name ∈ Tree.keywordNames items.tail) {q q' : Query}
    (hm : RelatedMaps (AgreeInWindows q q') m m') (hq : q.revision = q'.revision) :
    Yields (fun c c' => c.revision = c'.revision ∧ ∀ vs ws,
        List.Forall₂ (AgreeInWindows c c') vs ws →
        Yields (AgreeInWindows q q') (b.apply ⟨vs, m⟩ q) (b.apply ⟨ws, m'⟩ q'))
      (b.childQuery m q) (b.childQuery m' q') := by
  cases b with
  | series => cases happlied
  | group => cases happlied
  | constant => cases happlied
  | groupAdd => exact absurd rfl (hstands _ hb)
  | cumsum => exact absurd hb hcut.1
  | options =>
    refine Yields.ok ⟨hq, fun vs ws hvs => ?_⟩
    refine yields_options ⟨hvs, hm⟩ q q' (fun hs => hs.alike.options) fun o hs ho => ?_
    obtain ⟨hfill, hprune⟩ := plain_of_update (hcut.2.2.find? hnames) ho
    exact hs.toCutAlike.withOptions (hfill.trans hs.alike.left.fill)
      (hprune.trans hs.alike.left.prune)
  -- Both windows are cut to the slice, which depends on the keywords only.
  | slice =>
    refine Yields.bind_of_eq (sliceWindow_congr hm) fun w hw => Yields.ok ⟨hq, fun vs ws hvs => ?_⟩
    refine yields_slice hvs hm q q' fun w' hw' s t hs => ?_
    obtain rfl := Except.ok.inj (hw.symm.trans hw')
    exact ⟨hs.toCutAlike.window, hs.alike.window _⟩
  -- Both windows are widened, and what is read in them is cut by the clocks again.
  | naive =>
    refine Yields.ok ⟨hq, fun vs ws hvs => ?_⟩
    refine yields_naive hvs m m' q q' fun s t name z hz hs => ?_
    obtain ⟨u, u', hu, hu', halike, hcut⟩ := CutAlike.toClocks hz hs.toCutAlike
    rw [hu, hu']
    exact Yields.ok ⟨hcut, halike⟩
  | _ =>
    rw [childQuery_of_combines rfl, childQuery_of_combines rfl]
    exact Yields.ok ⟨hq, fun vs ws hvs =>
      yields_combining keptByCombining_agrees rfl ⟨hvs, hm⟩ q q'⟩

/-! ### Formulas -/

variable {σ τ ι : Type}

/-- **The value of a formula is cut alike for two windows**, at one revision, if what its leaves
read is. -/
theorem Comparison.holds_cutAlike (C : Comparison σ τ ι) {A : Resolver σ} {B : ι → Resolver τ}
    {u : Tree} (hu : u.Everywhere Tree.IsFormulaNode) (hcut : u.Everywhere Tree.IsCuttable)
    (hleaf : ∀ items name q q', .list items ∈ u.nodes → Tree.leafName? items = some name →
      q.revision = q'.revision → C.Holds (CutAlike q.window q'.window) (A.series name q)
        fun i => (B i).series name q') {q q' : Query} (hq : q.revision = q'.revision) :
    C.Holds (AgreeInWindows q q') (evaluate .builtin A u q)
      fun i => evaluate .builtin (B i) u q' := by
  let L (items : List Tree) (v : Tree) : Prop :=
    v = .list items ∧ .list items ∈ u.nodes ∧ Tree.IsLeaf items ∧ ∀ a ∈ items.tail, a.IsScalar
  have hself : u.Corresponds L (fun v => v.Stands ∧ v.IsCuttable) u := by
    refine Tree.corresponds_self hu (fun v hv => ⟨(hu v hv).stands, hcut v hv⟩) ?_
    exact fun items hmem hleaf hscalar => ⟨rfl, hmem, hleaf, hscalar⟩
  have hcompares : ComparesByQuery C A B AgreeInWindows (fun q q' => q.revision = q'.revision) L
      fun v => v.Stands ∧ v.IsCuttable := by
    refine ⟨fun _ => related_ofLiteral _ _, fun {items v q q'} hv hq => ?_,
      fun happlied hb hN hnames hm hq => ?_⟩
    · obtain ⟨rfl, hmem, hcalls, hscalar⟩ := hv
      rcases hcalls with hseries | hconstant
      · cases hname : Tree.leafName? items with
        | none => exact C.holds_nameless hseries hname _
        | some name =>
          refine C.holds_series hseries hscalar hname hseries hscalar hname rfl
            (C.mono (hleaf items name q q' hmem hname hq) fun s s' hs o ho => .series ?_)
          obtain ⟨hfill, hprune⟩ := plain_of_leafOptions (hcut _ hmem).2.2 ho
          exact hs.withOptions hfill hprune
      · exact absurd hconstant (hcut _ hmem).2.1
    · exact C.mono (C.settle (Builtin.yields_cutAlike happlied hb hN.1 hN.2 hnames hm hq))
        fun c c' hc => ⟨hc.1, fun vs ws hvs => C.settle (hc.2 vs ws hvs)⟩
  exact hcompares.evaluate hself hq

end SeriesAlgebra
