import SeriesAlgebra.Proofs.Evaluation.Carrying
import SeriesAlgebra.Proofs.Series.Combining
import SeriesAlgebra.Proofs.Series.Rows

/-!
# Formulas at one stamp

Two series may say the same at one stamp and differ everywhere else (`Series.Meets`). A
pointwise operator then makes series of them that say the same at that stamp
(`Builtin.yields_pointwise`), and it makes nothing out of nothing: where its series
miss their values the result misses its own. So what a pointwise formula says at a stamp
depends only on what its leaves say there (`Compares.pointwise`).
-/

namespace SeriesAlgebra

open Reduction

namespace Series

variable {s r : Series}

/-- **Whether two series meet at a stamp**: they say the same there, nothing if it is `quiet`, and
are combined alike. -/
structure Meets (t : Stamp) (quiet : Prop) (s r : Series) : Prop extends CombineAlike s r where
  value : s.valueOn t = r.valueOn t
  nothing : quiet → s.valueOn t = missing

variable {t : Stamp} {quiet : Prop} {s' r' : Series}

namespace Meets

/-- A map that leaves missing values as they are. -/
theorem mapValues (h : Meets t quiet s r) {f : Float → Float} (hf : f missing = missing) :
    Meets t quiet (s.mapValues f) (r.mapValues f) := by
  refine ⟨h.toCombineAlike.mapValues f, ?_, fun hquiet => ?_⟩
  · rw [valueOn_mapValues hf, valueOn_mapValues hf, h.value]
  · rw [valueOn_mapValues hf, h.nothing hquiet, hf]

theorem window (h : Meets t quiet s r) (w : Window) :
    Meets t quiet (s.window w) (r.window w) := by
  refine ⟨h.toCombineAlike.window w, ?_, fun hquiet => ?_⟩
  · rw [valueOn_window h.left.sorted, valueOn_window h.right.sorted, h.value]
  · rw [valueOn_window h.left.sorted, h.nothing hquiet, ite_self]

theorem withOptions (h : Meets t quiet s r) {o : SeriesOptions} (hfill : o.fill = none)
    (hprune : o.prune = none) : Meets t quiet (s.withOptions o) (r.withOptions o) :=
  ⟨combineAlike_withOptions h.left.sorted h.right.sorted hfill hprune, h.value, h.nothing⟩

/-- Arithmetic with a scalar. -/
theorem withScalar (h : Meets t quiet s r) (op : Arithmetic) (x : Float) (first : Bool) :
    Meets t quiet (s.withScalar op x first) (r.withScalar op x first) :=
  h.mapValues (withScalar_missing op x first)

/-- Arithmetic of two series. -/
theorem yields_combine (h : Meets t quiet s r) (h' : Meets t quiet s' r') (op : Arithmetic) :
    Yields (Meets t quiet) (s.combine s' op) (r.combine r' op) := by
  refine h.toCombineAlike.yields_combine h'.toCombineAlike op fun u v halike hu hv =>
    ⟨halike, ?_, fun hquiet => ?_⟩
  · rw [valueOn_of_pointOfBoth (hu t), valueOn_of_pointOfBoth (hv t), h.value, h'.value]
  · rw [valueOn_of_pointOfBoth (hu t), h.nothing hquiet, apply_missing_left]

end Meets

end Series

open Application Value Series

/-! ### Operators -/

variable {t : Stamp} {quiet : Prop} {args args' : Args}

/-- **A combination row by row** keeps that series meet. -/
theorem keptByCombination_meets {combine : String → List Series → Except FrameError Series}
    {point : List Float → List Float → Option Float} (hcombine : IsRowwise combine point) :
    KeptByCombination (Meets t quiet) combine := by
  intro name inputs others h
  refine hcombine.yields h (fun _ _ hst => hst.toCombineAlike) name fun u v halike hne _ hu hv =>
    ⟨halike, ?_, fun hquiet => ?_⟩
  · rw [valueOn, hu, valueOn, hv, rowAt_congr (h.imp fun _ _ hst => hst.value)]
  · rw [valueOn, hu, point_eq_none hcombine hne, Option.getD_none]
    intro s hs
    obtain ⟨r, -, hst⟩ := Result.exists_of_mem_left h hs
    exact hst.nothing hquiet

theorem keptByCombining_meets : KeptByCombining (Meets t quiet) where
  combine op hs ht := hs.yields_combine ht op
  withScalar op x first hs := hs.withScalar op x first
  mapValues hf hs := hs.mapValues hf
  sum := keptByCombination_meets isRowwise_sum
  priority := keptByCombination_meets isRowwise_priority
  least := keptByCombination_meets isRowwise_least
  greatest := keptByCombination_meets isRowwise_greatest
  mean := keptByCombination_meets isRowwise_mean

/-- **Pointwise operators** make series that meet of series that meet. -/
theorem Builtin.yields_pointwise {b : Builtin} (happlied : Evaluation.isApplied b = true)
    (hpointwise : b.isPointwise = true)
    (hplain : b = .options → args.keywords.find? "fill" = none ∧ args.keywords.find? "prune" = none)
    (h : RelatedArgs (Related (Meets t quiet)) args args') (q q' : Query) :
    Yields (Related (Meets t quiet)) (b.apply args q) (b.apply args' q') := by
  cases b with
  | series => cases happlied
  | group => cases happlied
  | constant => cases happlied
  | groupAdd => cases hpointwise
  | cumsum => cases hpointwise
  | naive => cases hpointwise
  | options =>
    refine yields_options h q q' (fun hs => hs.options) fun o hs ho => ?_
    obtain ⟨hfill, hprune⟩ := plain_of_update (hplain rfl) ho
    exact hs.withOptions (hfill.trans hs.left.fill) (hprune.trans hs.left.prune)
  | slice => exact yields_slice h.positional h.keywords q q' fun w _ _ _ hs => hs.window w
  | _ => exact yields_combining keptByCombining_meets rfl h q q'

/-! ### Formulas -/

open Evaluation

namespace Tree

variable {items : List Tree} {b : Builtin}

theorem isPointwise_of_node (hb : Calls items b)
    (h : isPointwiseNode .builtin (list items) = true) : b.isPointwise = true := by
  unfold isPointwiseNode at h
  rw [show (list items).operator? = some b.name from hb] at h
  dsimp only at h
  rw [Registry.find?_name, Bool.and_eq_true] at h
  exact h.1

/-- A leaf or wrapper of a pointwise formula neither fills nor prunes. -/
theorem isPlainCall_of_node (hb : Calls items b) (hkind : b = .series ∨ b = .options)
    (h : isPointwiseNode .builtin (list items) = true) :
    IsPlainCall items := by
  have hoperator : (list items).operator? = some b.name := hb
  have hreads : (list items).readsNeighbours = false := by
    unfold isPointwiseNode at h
    rw [hoperator] at h
    exact Bool.not_eq_true' _ ▸ (Bool.and_eq_true _ _ ▸ h).2
  have hname : some b.name = some seriesOperator ∨ some b.name = some optionsOperator :=
    hkind.imp (congrArg fun b => some (Builtin.name b)) (congrArg fun b => some (Builtin.name b))
  unfold readsNeighbours at hreads
  rw [hoperator, if_pos hname] at hreads
  cases hcall : (list items).callArgs with
  | error e =>
    rw [hcall] at hreads
    cases hreads
  | ok c =>
    rw [hcall] at hreads
    dsimp only at hreads
    rw [Bool.or_eq_false_iff, Option.isSome_eq_false_iff, Option.isSome_eq_false_iff,
      Option.isNone_iff_eq_none, Option.isNone_iff_eq_none] at hreads
    have hnames : c.keywords.map (·.1) = keywordNames items.tail := names_of_ofList hcall
    have hnot {name : String} (h : c.keyword? name = none) : name ∉ keywordNames items.tail := by
      rw [← hnames]
      intro hmem
      obtain ⟨entry, hentry, rfl⟩ := List.mem_map.1 hmem
      have hsome := List.lookup_isSome_iff.2 ⟨entry, hentry, beq_self_eq_true _⟩
      rw [show c.keywords.lookup entry.1 = none from h] at hsome
      cases hsome
    exact ⟨hnot hreads.1, hnot hreads.2⟩

end Tree

/-- Whether two queries ask for the same window, each at its own revision. -/
def AskAlike (r r' : Option InsertionDate) (q q' : Query) : Prop :=
  ∃ w : Window, q = ⟨r, w⟩ ∧ q' = ⟨r', w⟩

variable {σ τ ι : Type} {L : List Tree → Tree → Prop} {r r' : Option InsertionDate}

/-- **Pointwise formulas compare at a stamp**, if their leaves do. -/
theorem Compares.pointwise {C : Comparison σ τ ι} {A : Resolver σ} {B : ι → Resolver τ}
    (hleaf : ∀ {items : List Tree} {u : Tree} (w : Window), L items u →
      C.Holds (Related (Meets t quiet)) (Evaluation.evaluate .builtin A (.list items) ⟨r, w⟩)
        fun i => Evaluation.evaluate .builtin (B i) u ⟨r', w⟩) :
    Compares C A B (Related (Meets t quiet)) (AskAlike r r') L
      fun u => u.isPointwiseNode .builtin = true where
  literal _ := related_ofLiteral (Meets t quiet) _
  leaf hL := by
    rintro ⟨w, rfl, rfl⟩
    exact hleaf w hL
  childQuery {b _ m _ _ _} _ _ _ hm := by
    rintro ⟨w, rfl, rfl⟩
    refine C.settle ?_
    rw [← childQuery_congr hm]
    cases b with
    | slice =>
      refine Yields.bind_of_eq rfl fun v _ => Yields.ok ?_
      exact ⟨w.intersect v, rfl, rfl⟩
    | naive => exact Yields.ok ⟨w.widen (.days 1), rfl, rfl⟩
    | _ => exact Yields.ok ⟨w, rfl, rfl⟩
  apply {b items args _ q q'} happlied hb hN hnames hargs _ := by
    refine C.settle (Builtin.yields_pointwise happlied (Tree.isPointwise_of_node hb hN) ?_ hargs q q')
    rintro rfl
    exact (Tree.isPlainCall_of_node hb (Or.inr rfl) hN).find? hnames

/-- Whether two series meet at a stamp once a leaf sets their options. -/
def MeetAsLeaves (t : Stamp) (quiet : Prop) (s s' : Series) : Prop :=
  ∀ o : SeriesOptions, o.fill = none → o.prune = none →
    Meets t quiet (s.withOptions o) (s'.withOptions o)

theorem meetAsLeaves {s s' : Series} (hs : s.IsSorted) (hs' : s'.IsSorted)
    (hvalue : s.valueOn t = s'.valueOn t) (hquiet : quiet → s.valueOn t = missing) :
    MeetAsLeaves t quiet s s' :=
  fun _ hfill hprune => ⟨combineAlike_withOptions hs hs' hfill hprune, hvalue, hquiet⟩

/-- **What a pointwise formula says at a stamp**, two readers agree on if they agree on the series
that it names. -/
theorem Comparison.holds_pointwise (C : Comparison σ τ ι) {A : Resolver σ} {B : ι → Resolver τ}
    {u : Tree} (hu : u.Everywhere Tree.IsFormulaNode) (hpointwise : u.isPointwise .builtin = true)
    (hleaf : ∀ items name w, .list items ∈ u.nodes → Tree.leafName? items = some name →
      C.Holds (MeetAsLeaves t quiet) (A.series name ⟨r, w⟩) fun i => (B i).series name ⟨r', w⟩)
    (w : Window) : C.Holds (Related (Meets t quiet)) (Evaluation.evaluate .builtin A u ⟨r, w⟩)
      fun i => Evaluation.evaluate .builtin (B i) u ⟨r', w⟩ := by
  have hnodes : u.Everywhere fun v => v.isPointwiseNode .builtin = true :=
    List.all_eq_true.1 hpointwise
  let L (items : List Tree) (v : Tree) : Prop :=
    v = .list items ∧ .list items ∈ u.nodes ∧ Tree.IsLeaf items ∧ ∀ a ∈ items.tail, a.IsScalar
  have hself : u.Corresponds L (fun v => v.isPointwiseNode .builtin = true) u :=
    Tree.corresponds_self hu hnodes fun items hmem hleaf hscalar => ⟨rfl, hmem, hleaf, hscalar⟩
  refine (Compares.pointwise (L := L) fun {items v} w hv => ?_).evaluate hself _ _ ⟨w, rfl, rfl⟩
  obtain ⟨rfl, hmem, hcalls, hscalar⟩ := hv
  have hnode := hnodes _ hmem
  rcases hcalls with hseries | hconstant
  · cases hname : Tree.leafName? items with
    | none => exact C.holds_nameless hseries hname _
    | some name =>
      refine C.holds_series hseries hscalar hname hseries hscalar hname rfl
        (C.mono (hleaf items name w hmem hname) fun s s' hs o ho => .series ?_)
      obtain ⟨hfill, hprune⟩ := plain_of_leafOptions (Tree.isPlainCall_of_node hseries (Or.inl rfl) hnode) ho
      exact hs o hfill hprune
  · exact absurd (Tree.isPointwise_of_node hconstant hnode) Bool.false_ne_true

/-- What two readings of a pointwise formula give meets at a stamp, if what they read does. -/
theorem meets_of_gives (t : Stamp) (quiet : Prop) {A : Resolver σ} {B : Resolver τ} {u : Tree}
    (hu : u.Everywhere Tree.IsFormulaNode) (hpointwise : u.isPointwise .builtin = true)
    (hleaf : ∀ items name w, .list items ∈ u.nodes → Tree.leafName? items = some name →
      ∀ m s m' k s' k', Reading.Gives (A.series name ⟨r, w⟩) m s m' →
        Reading.Gives (B.series name ⟨r', w⟩) k s' k' → MeetAsLeaves t quiet s s')
    {w : Window} {v v' : Value} {m m' : σ} {k k' : τ}
    (hv : Reading.Gives (evaluate .builtin A u ⟨r, w⟩) m v m')
    (hv' : Reading.Gives (evaluate .builtin B u ⟨r', w⟩) k v' k') : Related (Meets t quiet) v v' :=
  (Comparison.agree σ τ).holds_pointwise (B := fun _ => B) hu hpointwise hleaf w m v m' k v' k' hv hv'

end SeriesAlgebra
