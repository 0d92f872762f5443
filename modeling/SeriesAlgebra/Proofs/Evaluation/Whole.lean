import SeriesAlgebra.Proofs.Calendar.Whole
import SeriesAlgebra.Proofs.Evaluation.Leaves
import SeriesAlgebra.Proofs.Operator.Constant

/-!
# Formulas of whole microseconds

If no text of a formula stands for a leap second (`Tree.StandsWhole`), then no value in
it does, a window of whole microseconds stays one on the way to the leaves
(`Compares.whole`), and the constant series of the formula have grids of whole
microseconds (`Tree.hasGrid_of_constantOf`).
-/

namespace SeriesAlgebra

open Evaluation Value Application

namespace Value

/-- Whether a value, if it stands for a stamp, stands for one of whole microseconds. -/
def IsWhole (v : Value) : Prop := ∀ operator t, v.asStamp operator = .ok t → t.IsWhole

theorem isWhole_int (n : Int64) : (int n).IsWhole := nofun

theorem isWhole_number (x : Float) : (number x).IsWhole := nofun

theorem isWhole_series (s : Series) : (series s).IsWhole := nofun

theorem isWhole_table (f : Frame) : (table f).IsWhole := nofun

theorem isWhole_timestamp {t : Stamp} (h : t.IsWhole) : (timestamp t).IsWhole :=
  fun _ _ ht => Except.ok.inj ht ▸ h

/-- Arithmetic makes no stamps. -/
theorem isWhole_combine {op : Arithmetic} {v w u : Value} (h : combine op v w = .ok u) :
    u.IsWhole := by
  have hnumbers {v w : Value} (h : combineNumbers op v w = .ok u) : u.IsWhole := by
    obtain ⟨x, -, h⟩ := Result.bind_ok h
    obtain ⟨y, -, h⟩ := Result.bind_ok h
    obtain rfl := Except.ok.inj h
    exact isWhole_number _
  have hseries {ε : Type} {x : Except ε Series} {f : ε → EngineError}
      (h : (x.map series).mapError f = .ok u) : u.IsWhole := by
    obtain ⟨s, -, rfl⟩ := Result.map_ok (Result.mapError_ok h)
    exact isWhole_series s
  have htable {ε : Type} {x : Except ε Frame} {f : ε → EngineError}
      (h : (x.map table).mapError f = .ok u) : u.IsWhole := by
    obtain ⟨t, -, rfl⟩ := Result.map_ok (Result.mapError_ok h)
    exact isWhole_table t
  have hscalar {x : Except EngineError Float} {f : Float → Value} (hf : ∀ y, (f y).IsWhole)
      (h : x.map f = .ok u) : u.IsWhole := by
    obtain ⟨y, -, rfl⟩ := Result.map_ok h
    exact hf y
  unfold combine at h
  split at h
  · split at h
    · obtain rfl := Except.ok.inj h
      exact isWhole_int _
    · exact hnumbers h
  · exact hseries h
  · exact htable h
  · exact htable h
  · exact htable h
  · exact hscalar (fun _ => isWhole_series _) h
  · exact hscalar (fun _ => isWhole_series _) h
  · exact hscalar (fun _ => isWhole_table _) h
  · exact hscalar (fun _ => isWhole_table _) h
  · exact hnumbers h

/-- A literal that is no leap second is whole. -/
theorem isWhole_ofText {text : String} (h : ∀ t, Stamp.parse text = .ok t → t.isLeapSecond = false) :
    (str text).IsWhole := by
  intro operator t ht
  have hparse := Result.mapError_ok ht
  exact Stamp.isWhole_of_parse hparse (h t hparse)

end Value

/-! ### Operators -/

theorem isWhole_get {args : Args} (h : ∀ v ∈ args.positional, v.IsWhole) {position : Nat}
    {operator : String} {v : Value} (hv : args.get position operator = .ok v) : v.IsWhole := by
  unfold Args.get at hv
  split at hv
  · rename_i w hw
    obtain rfl := Except.ok.inj hv
    exact h _ (List.mem_of_getElem? hw)
  · cases hv

/-- A stamp of a whole text, by whatever clocks, is whole. -/
theorem isWhole_dateOf {text : String} (h : (str text).IsWhole) {zoneName : Option String}
    {t : Stamp} (ht : dateOf text zoneName = .ok t) : t.IsWhole := by
  obtain ⟨clock, hclock, ht⟩ := Result.bind_ok ht
  have hwhole : clock.IsWhole := h Builtin.date.name clock hclock
  cases zoneName with
  | none => exact Except.ok.inj ht ▸ hwhole
  | some name =>
    obtain ⟨z, -, ht⟩ := Result.bind_ok ht
    cases hearliest : z.earliest? clock with
    | none =>
      rw [hearliest] at ht
      cases ht
    | some s =>
      rw [hearliest] at ht
      obtain rfl := Except.ok.inj ht
      exact Zone.isWhole_of_earliest? hearliest hwhole

/-- **Operators make whole values of whole ones.** -/
theorem Builtin.isWhole_apply {b : Builtin} {args : Args}
    (h : ∀ v ∈ args.positional, v.IsWhole) {q : Query} {v : Value} (hv : b.apply args q = .ok v) :
    v.IsWhole := by
  have harithmetic {op : Arithmetic} (hv : arithmetic op args = .ok v) : v.IsWhole := by
    obtain ⟨right, -, hv⟩ := Result.bind_ok hv
    obtain ⟨left, -, hv⟩ := Result.bind_ok hv
    exact isWhole_combine hv
  have hreduction {reduce : String → List Series → Except FrameError Series}
      (hv : reduction b args reduce = .ok v) : v.IsWhole := by
    obtain ⟨inputs, -, hv⟩ := Result.bind_ok hv
    obtain ⟨s, -, rfl⟩ := Result.map_ok (Result.mapError_ok hv)
    exact isWhole_series s
  have hmap {f : Series → Series} {operator : String}
      (hv : (do return Value.series (f (← firstSeries args operator))) = Except.ok v) :
      v.IsWhole := by
    obtain ⟨s, -, hv⟩ := Result.bind_ok hv
    obtain rfl := Except.ok.inj hv
    exact isWhole_series _
  cases b with
  | series => cases hv
  | group => cases hv
  | plus => exact harithmetic hv
  | times => exact harithmetic hv
  | divide => exact harithmetic hv
  | add => exact hreduction hv
  | priority => exact hreduction hv
  | min => exact hreduction hv
  | max => exact hreduction hv
  | rowMean => exact hreduction hv
  | abs => exact hmap hv
  | cumsum => exact hmap hv
  | options =>
    obtain ⟨s, -, hv⟩ := Result.bind_ok hv
    obtain ⟨o, -, hv⟩ := Result.bind_ok hv
    obtain rfl := Except.ok.inj hv
    exact isWhole_series _
  | round =>
    obtain ⟨decimals, -, hv⟩ := Result.bind_ok hv
    exact hmap hv
  | clip =>
    obtain ⟨lower, -, hv⟩ := Result.bind_ok hv
    obtain ⟨upper, -, hv⟩ := Result.bind_ok hv
    exact hmap hv
  | slice =>
    obtain ⟨w, -, hv⟩ := Result.bind_ok hv
    exact hmap hv
  | naive =>
    obtain ⟨_, -, hv⟩ := Result.bind_ok hv
    obtain ⟨_, -, hv⟩ := Result.bind_ok hv
    obtain ⟨_, -, hv⟩ := Result.bind_ok hv
    obtain ⟨_, -, hv⟩ := Result.bind_ok hv
    obtain ⟨s, -, rfl⟩ := Result.map_ok (Result.mapError_ok hv)
    exact isWhole_series s
  | date =>
    obtain ⟨zoneName, -, hv⟩ := Result.bind_ok hv
    obtain ⟨w, hw, hv⟩ := Result.bind_ok hv
    obtain ⟨text, htext, hv⟩ := Result.bind_ok hv
    obtain ⟨t, ht, hv⟩ := Result.bind_ok hv
    obtain rfl := Except.ok.inj hv
    have hwhole := isWhole_get h hw
    cases w with
    | str text' =>
      obtain rfl := Except.ok.inj htext
      exact isWhole_timestamp (isWhole_dateOf hwhole ht)
    | _ => cases htext
  | constant =>
    obtain ⟨c, -, hv⟩ := Result.bind_ok hv
    obtain ⟨s, -, hv⟩ := Result.bind_ok hv
    obtain rfl := Except.ok.inj hv
    exact isWhole_series s
  | groupAdd =>
    obtain ⟨f, -, hv⟩ := Result.bind_ok hv
    obtain rfl := Except.ok.inj hv
    exact isWhole_table f

theorem isWhole_optional {keywords : OrderedMap String Value}
    (h : ∀ name v, keywords.find? name = some v → v.IsWhole) {name operator : String}
    {t : Option Stamp} (ht : Application.optional keywords name (·.asStamp operator) = .ok t) :
    ∀ s ∈ t, s.IsWhole := by
  unfold Application.optional SeriesOptions.convert at ht
  cases hfind : keywords.find? name with
  | none =>
    rw [hfind] at ht
    obtain rfl := Except.ok.inj ht
    exact nofun
  | some v =>
    rw [hfind] at ht
    obtain ⟨s, hs, rfl⟩ := Result.map_ok ht
    intro s' hs'
    obtain rfl := Option.some.inj hs'
    exact h name v hfind operator s hs

/-- Operators ask their arguments for whole windows at the same revision date. -/
theorem Builtin.isWhole_childQuery {b : Builtin} {keywords : OrderedMap String Value}
    (h : ∀ name v, keywords.find? name = some v → v.IsWhole) {q q' : Query}
    (hq : q.window.IsWhole) (hq' : b.childQuery keywords q = .ok q') :
    q'.window.IsWhole ∧ q'.revision = q.revision := by
  cases b with
  | slice =>
    obtain ⟨w, hw, hq'⟩ := Result.bind_ok hq'
    obtain rfl := Except.ok.inj hq'
    obtain ⟨lower, hlower, hw⟩ := Result.bind_ok hw
    obtain ⟨upper, hupper, hw⟩ := Result.bind_ok hw
    obtain rfl := Except.ok.inj hw
    exact ⟨hq.intersect ⟨isWhole_optional h hlower, isWhole_optional h hupper⟩, rfl⟩
  | naive =>
    obtain rfl := Except.ok.inj hq'
    exact ⟨hq.widen _, rfl⟩
  | _ =>
    obtain rfl := Except.ok.inj hq'
    exact ⟨hq, rfl⟩

/-! ### Formulas -/

namespace Tree

/-- What may stand in a formula that gives a series and mentions no leap second. -/
def StandsWhole (t : Tree) : Prop := Stands t ∧ ∀ l, t = atom l → (ofLiteral l).IsWhole

/-- Whether no text of a formula stands for a leap second. -/
def HasNoLeapSecond (t : Tree) : Prop :=
  ∀ text, (atom (.str text) ∈ t.nodes ∨ atom (.symbol text) ∈ t.nodes) →
    ∀ s, Stamp.parse text = .ok s → s.isLeapSecond = false

/-- Whether the text of a literal, if it has one, stands for no leap second. -/
def mentionsNoLeapSecond (t : Tree) : Bool :=
  match t with
  | atom (.str text) | atom (.symbol text) =>
    match Stamp.parse text with
    | .ok s => !s.isLeapSecond
    | .error _ => true
  | _ => true

theorem hasNoLeapSecond_iff {t : Tree} :
    (t.nodes.all mentionsNoLeapSecond) = true ↔ t.HasNoLeapSecond := by
  rw [List.all_eq_true]
  constructor
  · rintro h text (hmem | hmem) s hs
    all_goals
      have hnode := h _ hmem
      simpa only [mentionsNoLeapSecond, hs, Bool.not_eq_true'] using hnode
  · intro h u hu
    unfold mentionsNoLeapSecond
    split
    · rename_i text
      split
      · rename_i s hs
        simpa using h text (Or.inl hu) s hs
      · rfl
    · rename_i text
      split
      · rename_i s hs
        simpa using h text (Or.inr hu) s hs
      · rfl
    · rfl

instance (t : Tree) : Decidable t.HasNoLeapSecond := decidable_of_iff _ hasNoLeapSecond_iff

theorem HasNoLeapSecond.everywhere {t : Tree} (h : t.HasNoLeapSecond)
    (ht : t.Everywhere IsFormulaNode) : t.Everywhere StandsWhole := by
  intro u hu
  refine ⟨(ht u hu).stands, fun l heq => ?_⟩
  subst heq
  cases l with
  | str text => exact isWhole_ofText fun s hs => h text (Or.inl hu) s hs
  | symbol text => exact isWhole_ofText fun s hs => h text (Or.inr hu) s hs
  | int n => exact isWhole_int n
  | float x => exact isWhole_number x

end Tree

/-- Related values that are whole. -/
def RelatedWhole (v w : Value) : Prop := Related Series.Similar v w ∧ v.IsWhole

/-- Equal queries for a whole window at a revision date. -/
structure AskWhole (revision : Option InsertionDate) (q q' : Query) : Prop where
  eq : q = q'
  window : q.window.IsWhole
  revision : q.revision = revision

theorem RelatedMaps.isWhole {m m' : OrderedMap String Value} (h : RelatedMaps RelatedWhole m m')
    (name : String) (v : Value) (hv : m.find? name = some v) : v.IsWhole := by
  have hname := h name
  rw [hv] at hname
  generalize m'.find? name = w at hname
  cases hname with
  | some hvw => exact hvw.2

theorem RelatedMaps.similar {m m' : OrderedMap String Value} (h : RelatedMaps RelatedWhole m m') :
    RelatedMaps (Related Series.Similar) m m' := by
  intro name
  have hname := h name
  generalize m.find? name = v at hname ⊢
  generalize m'.find? name = w at hname ⊢
  cases hname with
  | none => exact .none
  | some hvw => exact .some hvw.1

theorem RelatedArgs.isWhole {args args' : Args} (h : RelatedArgs RelatedWhole args args') :
    ∀ v ∈ args.positional, v.IsWhole := by
  intro v hv
  obtain ⟨position, hposition⟩ := List.mem_iff_getElem?.1 hv
  obtain ⟨hlength, hall⟩ := List.forall₂_iff_get.1 h.positional
  obtain ⟨hbound, rfl⟩ := List.getElem?_eq_some_iff.1 hposition
  exact (hall position hbound (hlength ▸ hbound)).2

/-- **Formulas without leap seconds compare**, if their leaves do for whole windows. -/
theorem Compares.whole {σ τ ι : Type} {C : Comparison σ τ ι} {A : Resolver σ} {B : ι → Resolver τ}
    {L : List Tree → Tree → Prop} {revision : Option InsertionDate}
    (hleaf : ∀ {items : List Tree} {u : Tree} {q : Query}, L items u → q.window.IsWhole →
      q.revision = revision → C.Holds RelatedWhole (Evaluation.evaluate .builtin A (.list items) q)
        fun i => Evaluation.evaluate .builtin (B i) u q) :
    Compares C A B RelatedWhole (AskWhole revision) L Tree.StandsWhole where
  literal hN := ⟨related_ofLiteral Series.Similar _, hN.2 _ rfl⟩
  leaf hL hq := by
    obtain ⟨rfl, hwindow, hrevision⟩ := hq
    exact hleaf hL hwindow hrevision
  childQuery {b _ _ _ q _} _ _ _ hm hq := by
    obtain ⟨rfl, hwindow, hrevision⟩ := hq
    rw [childQuery_congr hm.similar]
    refine C.settle fun q' hq' => ⟨q', hq', ?_⟩
    rw [← childQuery_congr hm.similar] at hq'
    obtain ⟨hwindow', hrevision'⟩ := Builtin.isWhole_childQuery hm.isWhole hwindow hq'
    exact ⟨rfl, hwindow', hrevision'.trans hrevision⟩
  apply {b _ _ _ q _} happlied hb hN _ hargs hq := by
    obtain ⟨rfl, hwindow, hrevision⟩ := hq
    have hsimilar : RelatedArgs (Related Series.Similar) _ _ :=
      ⟨hargs.positional.imp fun _ _ h => h.1, hargs.keywords.similar⟩
    refine C.settle fun v hv => ?_
    obtain ⟨w, hw, hvw⟩ := Builtin.yields_apply keptByOperators_similar happlied (hN.1 b hb) hsimilar q v hv
    exact ⟨w, hw, hvw, Builtin.isWhole_apply hargs.isWhole hv⟩

/-! ### Constant series -/

namespace Tree

/-- Scalars that mention no leap second have whole values. -/
theorem isWhole_of_scalarPositional {args : List Tree} (hscalar : ∀ t ∈ args, t.IsScalar)
    (hformula : ∀ t ∈ args, t.Everywhere IsFormulaNode)
    (hstands : ∀ t ∈ args, t.Everywhere StandsWhole) {vs : List Value}
    (h : scalarPositional args = .ok vs) : ∀ v ∈ vs, v.IsWhole := by
  have hcompares : Compares (Comparison.agree Unit Unit) silent (fun _ => silent) RelatedWhole
      (AskWhole none) (fun _ _ => False) StandsWhole := Compares.whole fun hL => hL.elim
  have hself : List.Forall₂ (fun t u => u.keywordName? = t.keywordName? ∧
      (Comparison.agree Unit Unit).Holds RelatedWhole (evaluate .builtin silent t .latest)
        fun _ => evaluate .builtin silent u .latest) args args := by
    refine List.forall₂_same.2 fun t ht => ⟨rfl, hcompares.evaluate ?_ _ _
      ⟨rfl, Window.isWhole_unbounded, rfl⟩⟩
    refine corresponds_self (hformula t ht) (hstands t ht) fun items hitems hleaf _ => ?_
    obtain ⟨b, hb, hkind⟩ := hscalar t ht _ hitems
    rcases hleaf with hleaf | hleaf
    · obtain rfl := hb.unique hleaf
      cases hkind
    · obtain rfl := hb.unique hleaf
      cases hkind
  have hgives : Reading.Gives (evaluatePositional .builtin silent args .latest) () vs () := by
    rw [evaluatePositional_scalar silent hscalar, h]
    exact gives_settle.2 ⟨rfl, rfl⟩
  have hrelated := Compares.positional (B := fun _ => silent) hself () vs () () vs () hgives hgives
  have hargs : RelatedArgs RelatedWhole ⟨vs, .empty⟩ ⟨vs, .empty⟩ := ⟨hrelated, fun _ => .none⟩
  exact hargs.isWhole

/-- **The constant series of a formula without leap seconds** have grids of whole microseconds. -/
theorem hasGrid_of_constantOf {items : List Tree}
    (hformula : (list items).Everywhere IsFormulaNode)
    (hstands : (list items).Everywhere StandsWhole) (hscalar : ∀ t ∈ items.tail, t.IsScalar)
    {c : Constant} (h : constantOf items = .ok c) : c.HasGrid := by
  have hitem {t : Tree} (ht : t ∈ items.tail) : t ∈ items := List.mem_of_mem_tail ht
  obtain ⟨_, -, h⟩ := Result.bind_ok h
  obtain ⟨_, -, h⟩ := Result.bind_ok h
  obtain ⟨vs, hvs, h⟩ := Result.bind_ok h
  have hwhole := isWhole_of_scalarPositional hscalar (fun t ht => hformula.item (hitem ht))
    (fun t ht => hstands.item (hitem ht)) hvs
  have hget {position : Nat} {v : Value} {operator : String}
      (hv : Args.get ⟨vs, .empty⟩ position operator = .ok v) : v.IsWhole := isWhole_get hwhole hv
  obtain ⟨_, -, h⟩ := Result.bind_ok h
  obtain ⟨_, -, h⟩ := Result.bind_ok h
  obtain ⟨firstValue, hfirstValue, h⟩ := Result.bind_ok h
  obtain ⟨first, hfirst, h⟩ := Result.bind_ok h
  obtain ⟨lastValue, hlastValue, h⟩ := Result.bind_ok h
  obtain ⟨last, hlast, h⟩ := Result.bind_ok h
  obtain ⟨_, -, h⟩ := Result.bind_ok h
  obtain ⟨text, -, h⟩ := Result.bind_ok h
  obtain ⟨step, hstep, h⟩ := Result.bind_ok h
  obtain ⟨_, -, h⟩ := Result.bind_ok h
  obtain ⟨_, -, h⟩ := Result.bind_ok h
  obtain rfl := Except.ok.inj h
  refine ⟨hget hfirstValue _ _ hfirst, hget hlastValue _ _ hlast, ?_⟩
  unfold Constant.stepOf at hstep
  split at hstep
  · rename_i hparse
    obtain rfl := Except.ok.inj hstep
    exact Frequency.parse?_pos hparse
  · cases hstep

end Tree

end SeriesAlgebra
