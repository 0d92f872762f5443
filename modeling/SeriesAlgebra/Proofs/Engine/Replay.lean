import SeriesAlgebra.Proofs.Engine.Backfill
import SeriesAlgebra.Proofs.Evaluation.Whole
import SeriesAlgebra.Proofs.Formula.HistoryLeaves

/-!
# Histories that are replayed

The history of a formula has a version for every date at which something in the
expanded formula changes (`Engine.HasVersionAt`), and the version is what the expanded
formula is at that date – provided that it mentions no leap second and is asked for in a
window of whole microseconds (`Engine.history_eq_evaluate`). A constant series counts
leap seconds from where it is asked for, so its points in a window need not be its
points (`Engine.history_ne_evaluate`).
-/

namespace SeriesAlgebra

open Evaluation Reading Series

namespace Engine

open SeriesAlgebra.Tree

variable {e : Engine} {u : Tree} {q : HistoryQuery} {d : InsertionDate}

/-- **Whether something in a formula changes at a date**: a stored leaf has a version, or a constant
call its revision date. -/
def HasVersionAt (e : Engine) (u : Tree) (d : InsertionDate) : Prop :=
  (∃ items name stored, list items ∈ u.nodes ∧ leafName? items = some name ∧
    e.store.series.find? name = some stored ∧ d ∈ stored.versions.keys) ∨
  ∃ items args c, list items ∈ u.nodes ∧ Calls items .constant ∧
    answerOf (evaluateArgs e.registry e.reader (list items) .latest) = .ok args ∧
    Constant.ofArgs args = .ok c ∧ c.revised = d

/-! ### The leaves of an expanded formula -/

/-- What is known of an expanded formula. -/
structure IsExpanded (e : Engine) (u : Tree) : Prop where
  nodes : u.Everywhere (IsExpandedNode e.formulaTree? fun items => (list items).IsReadBack)

/-- The tree of a formula with everything inlined. -/
theorem expandedTree_ok {name : String} (hu : e.expandedTree name = .ok u) :
    ∃ t, e.formulaTree? name = .ok (some t) ∧ e.expand [] t = .ok u := by
  obtain ⟨t?, ht, hu⟩ := Result.bind_ok hu
  have ht := Result.mapError_ok ht
  cases t? with
  | none => cases hu
  | some t => exact ⟨t, ht, hu⟩

theorem AreKept.isExpanded (h : AreKept e.formulas) {name : String} (hu : e.expandedTree name = .ok u) :
    e.IsExpanded u := by
  obtain ⟨t, ht, hu⟩ := expandedTree_ok hu
  have hconstants {name : String} {t : Tree} (ht : e.formulaTree? name = .ok (some t)) :
      t.Constants fun items => (list items).IsReadBack :=
    fun _ hitems _ => (h.isReadBack ht).node hitems
  exact ⟨everywhere_expandBelow (fun _ _ ht => (h.isKept ht).formula) (fun _ _ => hconstants)
    (h.isKept ht).formula.nodes (hconstants ht) (Result.mapError_ok hu)⟩

theorem isExpanded (he : e.Consistent) {name : String} (hu : e.expandedTree name = .ok u) :
    e.IsExpanded u := he.formulas.isExpanded hu

theorem IsExpanded.isFormula (hu : e.IsExpanded u) : u.Everywhere IsFormulaNode :=
  hu.nodes.mono fun _ h => h.formula

/-- A constant call of an expanded formula. -/
structure IsConstantCall (u : Tree) (items : List Tree) : Prop where
  mem : list items ∈ u.nodes
  calls : Calls items .constant
  scalar : ∀ t ∈ items.tail, t.IsScalar
  readBack : (list items).IsReadBack

theorem IsExpanded.isConstantCall (hu : e.IsExpanded u) {items : List Tree}
    (hmem : list items ∈ u.nodes) (hcalls : Calls items .constant) : IsConstantCall u items := by
  refine ⟨hmem, hcalls, ?_, (hu.nodes _ hmem).constant items rfl hcalls⟩
  obtain ⟨b, hb, -, -, hscalar, -⟩ := (hu.nodes _ hmem).formula
  obtain rfl := hb.unique hcalls
  exact hscalar (Or.inr (Or.inl rfl))

/-- The constant of a call, by its arguments. -/
theorem constantOf_iff (he : e.Consistent) {items : List Tree}
    (hscalar : ∀ t ∈ items.tail, t.IsScalar) {c : Constant} : constantOf items = .ok c ↔
      ∃ args, answerOf (evaluateArgs e.registry e.reader (list items) .latest) = .ok args ∧
        Constant.ofArgs args = .ok c := by
  have hanswer {α : Type} (x : Except EngineError α) : answerOf (settle x) = x := by
    cases x <;> rfl
  rw [he.registry, evaluateArgs_scalar _ hscalar, hanswer, constantOf]
  constructor
  · intro h
    obtain ⟨_, hchecked, h⟩ := Result.bind_ok h
    obtain ⟨keywords, hkeywords, h⟩ := Result.bind_ok h
    obtain ⟨positional, hpositional, h⟩ := Result.bind_ok h
    rw [hchecked, hkeywords, hpositional]
    exact ⟨_, rfl, h⟩
  · rintro ⟨args, hargs, h⟩
    obtain ⟨_, hchecked, hargs⟩ := Result.bind_ok hargs
    obtain ⟨keywords, hkeywords, hargs⟩ := Result.bind_ok hargs
    obtain ⟨positional, hpositional, hargs⟩ := Result.bind_ok hargs
    obtain rfl := Except.ok.inj hargs
    rw [hchecked, hkeywords, hpositional]
    exact h

/-! ### Steps of a replay -/

/-- The history of a leaf, with its name. -/
def leafEntry (leafHistory : String → Except EngineError (Option History)) (leaf : String) :
    Except EngineError (String × History) := do
  (← leafHistory leaf).elim (.error (.unknownName leaf)) fun h => .ok (leaf, h)

/-- The histories of constant calls, with their texts. -/
def callEntries (e : Engine) (q : HistoryQuery) (calls : List Tree) :
    Reading Memo (List (String × (Tree × History))) :=
  calls.mapM fun call => do return (call.text, call, ← e.callHistory q.absolute call)

/-- The versions of a formula, from what is known of its leaves. -/
def replayKnown (e : Engine) (name : String) (t : Tree) (q : HistoryQuery) (known : Replayed) :
    Reading Memo History := do
  let filled ← e.backfill name q.absolute (datesOf known) known
  return .ofList (← (datesOf known).mapM (e.replayAt name t q filled))

/-- A replay collects histories and then evaluates the formula. -/
theorem replay_eq (leafHistory : String → HistoryQuery → Except EngineError (Option History))
    (name : String) (t : Tree) (q : HistoryQuery) : e.replay leafHistory name t q = (do
      let series ← (t.historyLeaves e.registry).series.mapM
        (leafEntry fun leaf => leafHistory leaf q.absolute)
      answerOf (do
        let calls ← e.callEntries q (t.historyLeaves e.registry).autotrophic
        e.replayKnown name t q ⟨.ofList series, .ofList calls⟩)) := by
  unfold replay
  dsimp only
  congr 1
  congr 1
  funext leaf
  unfold leafEntry
  congr 1
  funext found
  cases found <;> rfl

/-! ### Collected histories -/

/-- What is collected of a stored series. -/
def CollectsSeries (e : Engine) (q : HistoryQuery) (leaf : String × History) : Prop :=
  ∃ stored, e.store.series.find? leaf.1 = some stored ∧ leaf.2 = insertedIn stored q.inserted

/-- What is collected of a constant call. -/
def CollectsCall (u : Tree) (q : HistoryQuery) (leaf : String × (Tree × History)) : Prop :=
  ∃ items c, IsConstantCall u items ∧ leaf.1 = (list items).text ∧ leaf.2.1 = list items ∧
    constantOf items = .ok c ∧ c.history q.absolute = .ok leaf.2.2

theorem collectsSeries_of_historyWithin (he : e.Consistent) {levels : Nat} {name : String}
    (hname : e.formulaTree? name = .ok none) {h : History}
    (hh : e.historyWithin levels name q.absolute = .ok (some h)) :
    e.CollectsSeries q (name, h) := by
  cases levels with
  | zero => cases hh
  | succ levels =>
    rw [historyWithin, not_contains hname, if_neg Bool.false_ne_true, Store.history?] at hh
    cases hstored : e.store.series.find? name with
    | none =>
      rw [hstored] at hh
      unfold sourceOf? at hh
      rw [he.sources] at hh
      cases hh
    | some stored =>
      rw [hstored] at hh
      refine ⟨stored, hstored, ?_⟩
      obtain rfl := Option.some.inj (Except.ok.inj hh)
      change OrderedMap.mapValues (fun _ version => version.window .unbounded)
        (insertedIn stored q.inserted) = insertedIn stored q.inserted
      unfold OrderedMap.mapValues
      simp only [window_unbounded, Prod.mk.eta, List.map_id']

theorem collectsCall_of_callHistory (he : e.Consistent) {items : List Tree}
    (hitems : IsConstantCall u items) {h : History} {m m' : Memo}
    (hh : Gives (e.callHistory q.absolute (list items)) m h m') :
    CollectsCall u q ((list items).text, list items, h) := by
  unfold callHistory at hh
  obtain ⟨args, _, hargs, hh⟩ := gives_bind.1 hh
  rw [he.registry, hitems.calls.operatorOf?] at hh
  obtain ⟨hh, -⟩ := gives_settle.1 hh
  obtain ⟨c, hc, hh⟩ := Result.bind_ok hh
  refine ⟨items, c, hitems, rfl, rfl, (constantOf_iff he hitems.scalar).2 ⟨args, ?_, hc⟩, hh⟩
  rw [he.registry, evaluateArgs_scalar _ hitems.scalar] at hargs ⊢
  obtain ⟨hargs, -⟩ := gives_settle.1 hargs
  rw [hargs]
  rfl

/-- **What a replay works with** before anything is filled in. -/
structure Collected (e : Engine) (u : Tree) (q : HistoryQuery) (known : Replayed) : Prop where
  ofSeries : ∀ leaf ∈ known.series.entries, e.CollectsSeries q leaf ∧
    ∃ items, list items ∈ u.nodes ∧ leafName? items = some leaf.1
  series : ∀ items name, list items ∈ u.nodes → leafName? items = some name →
    ∃ h, known.series.find? name = some h
  ofCalls : ∀ leaf ∈ known.calls.entries, CollectsCall u q leaf
  calls : ∀ items, IsConstantCall u items →
    ∃ leaf, known.calls.find? (list items).text = some leaf

/-- A constant call is found under its text. -/
theorem Collected.find?_call {known : Replayed} (h : e.Collected u q known) {items : List Tree}
    (hitems : IsConstantCall u items) : ∃ c history, constantOf items = .ok c ∧
      c.history q.absolute = .ok history ∧
      known.calls.find? (list items).text = some (list items, history) := by
  obtain ⟨⟨call, history⟩, hfind⟩ := h.calls items hitems
  obtain ⟨others, c, hothers, htext, rfl, hc, hhistory⟩ :=
    h.ofCalls _ (OrderedMap.mem_of_find? hfind)
  obtain rfl := list.inj (hitems.readBack.text_inj hothers.readBack htext)
  exact ⟨c, history, hc, hhistory, hfind⟩

theorem leafEntry_ok {leafHistory : String → Except EngineError (Option History)} {name : String}
    {leaf : String × History} (h : leafEntry leafHistory name = .ok leaf) :
    leaf.1 = name ∧ leafHistory name = .ok (some leaf.2) := by
  obtain ⟨found, hfound, h⟩ := Result.bind_ok h
  cases found with
  | none => cases h
  | some history =>
    obtain rfl := Except.ok.inj h
    exact ⟨rfl, hfound⟩

theorem collected_of_mapM (he : e.Consistent) (hu : e.IsExpanded u) {levels : Nat}
    {series : List (String × History)} {calls : List (String × (Tree × History))} {m m' : Memo}
    (hseries : (u.historyLeaves e.registry).series.mapM
      (leafEntry fun leaf => e.historyWithin levels leaf q.absolute) = .ok series)
    (hcalls : Gives (e.callEntries q (u.historyLeaves e.registry).autotrophic) m calls m') :
    e.Collected u q ⟨.ofList series, .ofList calls⟩ := by
  rw [he.registry] at hseries hcalls
  have hleaves := Result.forall₂_of_mapM hseries
  have hcallLeaves := forall₂_of_gives_mapM hcalls
  have hcall {call : Tree} {leaf : String × (Tree × History)}
      (h : ∃ m m', Gives (do return (call.text, call, ← e.callHistory q.absolute call)) m leaf m') :
      leaf.1 = call.text ∧ leaf.2.1 = call ∧ ∃ m m', Gives (e.callHistory q.absolute call) m leaf.2.2 m' := by
    obtain ⟨m, m', h⟩ := h
    obtain ⟨history, _, hh, h⟩ := gives_bind.1 h
    obtain ⟨rfl, -⟩ := gives_pure.1 h
    exact ⟨rfl, rfl, m, _, hh⟩
  refine ⟨fun leaf hmem => ?_, fun items name hitems hname => ?_, fun leaf hmem => ?_,
    fun items hitems => ?_⟩
  · obtain ⟨name, hname, h⟩ := Result.exists_of_mem_right hleaves (OrderedMap.mem_ofList hmem)
    obtain ⟨rfl, hh⟩ := leafEntry_ok h
    obtain ⟨items, hitems, hleafName⟩ := (mem_series_historyLeaves hu.isFormula).1 hname
    have hnone := (hu.nodes _ hitems).leaf items _ rfl hleafName
    exact ⟨collectsSeries_of_historyWithin he hnone hh, items, hitems, hleafName⟩
  · have hmem := (mem_series_historyLeaves hu.isFormula).2 ⟨items, hitems, hname⟩
    obtain ⟨leaf, hmem', h⟩ := Result.exists_of_mem_left hleaves hmem
    obtain ⟨rfl, -⟩ := leafEntry_ok h
    exact OrderedMap.exists_find?_ofList (List.mem_map_of_mem hmem')
  · obtain ⟨call, hcall', h⟩ := Result.exists_of_mem_right hcallLeaves (OrderedMap.mem_ofList hmem)
    obtain ⟨htext, rfl, m, m', hh⟩ := hcall h
    obtain ⟨items, hitems, hconstant, heq⟩ := (mem_autotrophic_historyLeaves hu.isFormula).1 hcall'
    have hconstant := hu.isConstantCall hitems hconstant
    obtain ⟨text, call, history⟩ := leaf
    dsimp only at heq htext hh
    subst heq htext
    exact collectsCall_of_callHistory he hconstant hh
  · have hmem := (mem_autotrophic_historyLeaves hu.isFormula).2
      ⟨items, hitems.mem, hitems.calls, rfl⟩
    obtain ⟨leaf, hmem', h⟩ := Result.exists_of_mem_left hcallLeaves hmem
    obtain ⟨htext, -⟩ := hcall h
    exact OrderedMap.exists_find?_ofList (List.mem_map.2 ⟨leaf, hmem', htext⟩)

/-! ### Dates -/

/-- **The dates of a replay** are those in the window at which something changes. -/
theorem Collected.mem_datesOf (he : e.Consistent) (hu : e.IsExpanded u) {known : Replayed}
    (h : e.Collected u q known) :
    d ∈ datesOf known ↔ q.inserted.contains d = true ∧ e.HasVersionAt u d := by
  unfold datesOf
  rw [mem_sortedSet, List.mem_append, List.mem_flatMap, List.mem_flatMap]
  constructor
  · rintro (⟨history, hhistory, hd⟩ | ⟨⟨call, history⟩, hhistory, hd⟩)
    · obtain ⟨leaf, hleaf, rfl⟩ := List.mem_map.1 hhistory
      obtain ⟨⟨stored, hstored, heq⟩, items, hitems, hname⟩ := h.ofSeries leaf hleaf
      rw [heq] at hd
      obtain ⟨hd, hin⟩ := History.mem_keys_filter.1 hd
      exact ⟨hin, Or.inl ⟨items, leaf.1, stored, hitems, hname, hstored, hd⟩⟩
    · obtain ⟨leaf, hleaf, heq⟩ := List.mem_map.1 hhistory
      obtain ⟨items, c, hitems, -, -, hc, hh⟩ := h.ofCalls leaf hleaf
      rw [heq] at hh
      rcases history_constant hh with ⟨hin, s, -, rfl⟩ | ⟨-, rfl⟩
      · obtain rfl := List.mem_singleton.1 hd
        obtain ⟨args, hargs, hc⟩ := (constantOf_iff he hitems.scalar).1 hc
        exact ⟨hin, Or.inr ⟨items, args, c, hitems.mem, hitems.calls, hargs, hc, rfl⟩⟩
      · cases hd
  · rintro ⟨hin, ⟨items, name, stored, hitems, hname, hstored, hd⟩ |
      ⟨items, args, c, hitems, hcalls, hargs, hc, rfl⟩⟩
    · obtain ⟨history, hfind⟩ := h.series items name hitems hname
      have hmem := OrderedMap.mem_of_find? hfind
      obtain ⟨⟨stored', hstored', heq⟩, -⟩ := h.ofSeries _ hmem
      obtain rfl := Option.some.inj (hstored.symm.trans hstored')
      refine Or.inl ⟨history, List.mem_map.2 ⟨_, hmem, rfl⟩, ?_⟩
      rw [show history = insertedIn stored q.inserted from heq]
      exact History.mem_keys_filter.2 ⟨hd, hin⟩
    · have hconstant := hu.isConstantCall hitems hcalls
      obtain ⟨c', history, hc', hhistory, hfind⟩ := h.find?_call hconstant
      obtain rfl := Except.ok.inj
        (hc'.symm.trans ((constantOf_iff he hconstant.scalar).2 ⟨args, hargs, hc⟩))
      refine Or.inr ⟨(list items, history),
        List.mem_map.2 ⟨_, OrderedMap.mem_of_find? hfind, rfl⟩, ?_⟩
      rcases history_constant hhistory with ⟨-, s, -, rfl⟩ | ⟨hout, -⟩
      · exact List.mem_singleton.2 rfl
      · rw [hin] at hout
        cases hout

/-! ### What is known at a date -/

/-- **Whether a replay knows the leaves of a formula at a date.** -/
structure IsKnown (e : Engine) (u : Tree) (d : InsertionDate) (known : Replayed) : Prop where
  series : ∀ items name, list items ∈ u.nodes → leafName? items = some name →
    ∃ stored h, e.store.series.find? name = some stored ∧ known.series.find? name = some h ∧
      SaysSame (History.asOf? h d) (History.asOf? stored.versions d)
  calls : ∀ items, IsConstantCall u items →
    ∃ c h, constantOf items = .ok c ∧ known.calls.find? (list items).text = some (list items, h) ∧
      SaysSame (History.asOf? h d) (constantVersion c d) ∧
      (¬ d < c.revised → ∃ s, c.series .unbounded = .ok s)

theorem backfillSeries_name {first : InsertionDate} {leaf leaf' : String × History}
    (h : e.backfillSeries q first leaf = .ok leaf') : leaf'.1 = leaf.1 := by
  unfold backfillSeries at h
  split at h
  · obtain ⟨version, -, h⟩ := Result.bind_ok h
    cases version <;> obtain rfl := Except.ok.inj h <;> rfl
  · obtain rfl := Except.ok.inj h
    rfl

theorem backfillCall_text {name : String} {first : InsertionDate}
    {leaf leaf' : String × (Tree × History)} {m m' : Memo}
    (h : Gives (e.backfillCall name q first leaf) m leaf' m') : leaf'.1 = leaf.1 := by
  unfold backfillCall at h
  dsimp only at h
  split at h
  · obtain ⟨_, _, -, h⟩ := gives_bind.1 h
    obtain ⟨_, _, -, h⟩ := gives_bind.1 h
    obtain ⟨rfl, -⟩ := gives_pure.1 h
    rfl
  · obtain ⟨rfl, -⟩ := gives_pure.1 h
    rfl

/-- With the beginnings filled in, the leaves are known at all dates of a replay. -/
theorem Collected.isKnown (he : e.Consistent) (hu : e.IsExpanded u) {known filled : Replayed}
    (h : e.Collected u q known) (hd : d ∈ datesOf known) {name : String} {m m' : Memo}
    (hfilled : Gives (e.backfill name q.absolute (datesOf known) known) m filled m') :
    e.IsKnown u d filled := by
  have hin {d : InsertionDate} (hd : d ∈ datesOf known) : q.inserted.contains d = true :=
    ((h.mem_datesOf he hu).1 hd).1
  have hsorted : (datesOf known).Pairwise (· < ·) :=
    pairwise_sortedSet IsStrictOrder.trans IsStrictOrder.compare _
  generalize hdates : datesOf known = dates at hfilled
  rw [hdates] at hd hin hsorted
  cases dates with
  | nil => cases hd
  | cons first rest =>
    have hfirst := hin List.mem_cons_self
    have hle : first ≤ d := by
      rcases List.mem_cons.1 hd with rfl | hd
      · exact Stamp.le_refl _
      · exact Stamp.le_iff_lt_or_eq.2 (Or.inl ((List.pairwise_cons.1 hsorted).1 d hd))
    obtain ⟨series, _, hseries, hfilled⟩ := gives_bind.1 hfilled
    obtain ⟨calls, _, hcalls, hfilled⟩ := gives_bind.1 hfilled
    obtain ⟨rfl, -⟩ := gives_pure.1 hfilled
    have hseries := Result.forall₂_of_mapM (gives_settle.1 hseries).1
    have hcalls := forall₂_of_gives_mapM hcalls
    refine ⟨fun items leaf hitems hleaf => ?_, fun items hitems => ?_⟩
    · obtain ⟨history, hfind⟩ := h.series items leaf hitems hleaf
      obtain ⟨⟨stored, hstored, heq⟩, -⟩ := h.ofSeries _ (OrderedMap.mem_of_find? hfind)
      dsimp only at hstored heq
      subst heq
      have hnone := (hu.nodes _ hitems).leaf items leaf rfl hleaf
      obtain ⟨history', hfind', hback⟩ :=
        OrderedMap.exists_lookup (fun _ _ => backfillSeries_name) hseries hfind
      exact ⟨stored, history', hstored, hfind',
        (saysSame_backfillSeries he hnone hstored hfirst (hin hd) hle hback).2⟩
    · obtain ⟨c, history, hc, hhistory, hfind⟩ := h.find?_call hitems
      obtain ⟨⟨call, history'⟩, hfind', _, _, hback⟩ :=
        OrderedMap.exists_lookup (fun _ _ ⟨_, _, h⟩ => backfillCall_text h) hcalls hfind
      obtain ⟨-, hcall, hsame, hwhole⟩ := saysSame_backfillCall he hitems.calls hitems.scalar hc
        hhistory hfirst (hin hd) hle hback
      dsimp only at hcall hsame
      subst hcall
      exact ⟨c, history', hc, hfind', hsame, hwhole⟩

/-! ### Evaluation of a replay -/

/-- A constant series as it is in effect. -/
theorem similar_constant {c : Constant} (hgrid : c.HasGrid) {w : Window} (hw : w.IsWhole)
    (hwhole : ¬ d < c.revised → ∃ s, c.series .unbounded = .ok s) {s : Series}
    (hs : c.read ⟨some d, w⟩ = .ok s) (name : String) :
    (shown (constantVersion c d) name w).Similar s := by
  unfold Constant.read at hs
  change (if decide (d < c.revised) = true then _ else c.series w) = .ok s at hs
  unfold constantVersion
  by_cases hbefore : d < c.revised
  · rw [if_pos (decide_eq_true hbefore)] at hs
    obtain rfl := Except.ok.inj hs
    rw [if_pos hbefore]
    exact ⟨rfl, rfl⟩
  · obtain ⟨whole, hseries⟩ := hwhole hbefore
    rw [if_neg (by simpa using hbefore)] at hs
    rw [if_neg hbefore, hseries]
    exact ⟨(hgrid.points_series hw hs hseries).symm,
      (options_window w).trans ((Constant.unset_of_series hseries).trans (Constant.unset_of_series hs).symm)⟩

/-- **A replay evaluates a formula as it is at the date**, if it mentions no leap second. -/
theorem agree_replaying (hu : e.IsExpanded u) (hleap : u.HasNoLeapSecond)
    {known : Replayed} (hknown : e.IsKnown u d known) (n : Nat) {w : Window} (hw : w.IsWhole) :
    (Comparison.agree Memo Unit).Holds (Value.Related Similar)
      (evaluate .builtin (replaying e.reader known) u ⟨some d, w⟩)
      fun _ => evaluate .builtin (e.plainReader n) u ⟨some d, w⟩ := by
  have hstands := hleap.everywhere hu.isFormula
  let L (items : List Tree) (v : Tree) : Prop :=
    v = list items ∧ list items ∈ u.nodes ∧ IsLeaf items ∧ ∀ t ∈ items.tail, t.IsScalar
  have hself : u.Corresponds L StandsWhole u := corresponds_self hu.isFormula hstands
    fun items hmem hleaf hscalar => ⟨rfl, hmem, hleaf, hscalar⟩
  have hask : AskWhole (some d) ⟨some d, w⟩ ⟨some d, w⟩ := ⟨rfl, hw, rfl⟩
  refine Comparison.mono _ ((Compares.whole (L := L)
    fun {items v q'} hv hw' hrevision => ?_).evaluate hself ⟨some d, w⟩ ⟨some d, w⟩ hask)
    fun _ _ h => h.1
  obtain ⟨rfl, hmem, hleaf, hscalar⟩ := hv
  obtain ⟨revision, w'⟩ := q'
  obtain rfl : revision = some d := hrevision
  rcases hleaf with hseries | hconstant
  · cases hname : leafName? items with
    | none => exact Comparison.holds_nameless _ hseries hname _
    | some name =>
      obtain ⟨stored, history, hstored, hfind, hsame⟩ := hknown.series items name hmem hname
      have hnone := (hu.nodes _ hmem).leaf items name rfl hname
      refine Comparison.holds_series _ hseries hscalar hname hseries hscalar hname rfl ?_
      rw [plainReader_primary hnone, readPrimary, read?_stored hstored]
      simp only [replaying, hfind, versionFor_eq]
      refine Comparison.pure _ fun o _ => ⟨.series ?_, Value.isWhole_series _⟩
      exact ((hsame.similar name name w').withName name _).withOptions o
  · have hcall := hu.isConstantCall hmem hconstant
    obtain ⟨c, history, hc, hfind, hsame, hwhole⟩ := hknown.calls items hcall
    have hgrid := hasGrid_of_constantOf (hu.isFormula.node hmem) (hstands.node hmem) hcall.scalar hc
    intro m v m' n' v' n'' hv hv'
    rw [evaluate_constant _ hconstant hscalar] at hv hv'
    simp only [replaying, hfind, versionFor_eq] at hv
    rw [plainReader_autotrophic] at hv'
    obtain ⟨_, _, hanswer, hv⟩ := gives_bind.1 hv
    obtain ⟨rfl, -⟩ := gives_pure.1 hanswer
    obtain ⟨rfl, -⟩ := gives_pure.1 hv
    obtain ⟨_, _, hanswer, hv'⟩ := gives_bind.1 hv'
    obtain ⟨rfl, -⟩ := gives_pure.1 hanswer
    obtain ⟨c', hc', hv'⟩ := Result.bind_ok (gives_settle.1 hv').1
    obtain rfl := Except.ok.inj (hc.symm.trans hc')
    obtain ⟨s, hs, hv'⟩ := Result.bind_ok hv'
    obtain rfl := Except.ok.inj hv'
    exact ⟨.series ((hsame.similar _ _ w').trans (similar_constant hgrid hw' hwhole hs
      (list items).text)), Value.isWhole_series _⟩

/-! ### Histories -/

/-- What is replayed at a date. -/
theorem gives_replayAt {name : String} {known : Replayed} {date : InsertionDate}
    {entry : InsertionDate × Series} {m m' : Memo}
    (h : Gives (e.replayAt name u q known date) m entry m') : entry.1 = date ∧
      ∃ m₁ r, entry.2 = Series.withName r name ∧ Gives (evaluate e.registry
        (replaying e.reader known) u (q.asOf date)) m (.series r) m₁ := by
  obtain ⟨v, _, hv, h⟩ := gives_bind.1 h
  obtain ⟨r, _, hr, h⟩ := gives_bind.1 h
  obtain ⟨rfl, -⟩ := gives_pure.1 h
  cases v with
  | series r' =>
    obtain ⟨hr, -⟩ := gives_settle.1 hr
    obtain rfl := Except.ok.inj hr
    exact ⟨rfl, _, r', rfl, hv⟩
  | _ => cases (gives_settle.1 hr).1

/-- **There is a version for every date** of what a replay works with. -/
theorem mem_keys_replayKnown {name : String} {known : Replayed} {h : History} {m m' : Memo}
    (hh : Gives (e.replayKnown name u q known) m h m') : d ∈ h.keys ↔ d ∈ datesOf known := by
  obtain ⟨filled, _, -, hh⟩ := gives_bind.1 hh
  obtain ⟨versions, _, hversions, hh⟩ := gives_bind.1 hh
  obtain ⟨rfl, -⟩ := gives_pure.1 hh
  have hversions := forall₂_of_gives_mapM hversions
  rw [OrderedMap.mem_keys_ofList]
  constructor
  · intro hd
    obtain ⟨entry, hentry, rfl⟩ := List.mem_map.1 hd
    obtain ⟨date, hdate, _, _, h⟩ := Result.exists_of_mem_right hversions hentry
    exact (gives_replayAt h).1 ▸ hdate
  · intro hd
    obtain ⟨entry, hentry, _, _, h⟩ := Result.exists_of_mem_left hversions hd
    exact List.mem_map.2 ⟨entry, hentry, (gives_replayAt h).1⟩

/-- What a replay collects before it evaluates the formula. -/
theorem replay_collects {leafHistory : String → HistoryQuery → Except EngineError (Option History)}
    {name : String} {h : History} (hh : e.replay leafHistory name u q = .ok h) :
    ∃ series calls m m', (u.historyLeaves e.registry).series.mapM
        (leafEntry fun leaf => leafHistory leaf q.absolute) = .ok series ∧
      Gives (e.callEntries q (u.historyLeaves e.registry).autotrophic) [] calls m ∧
      Gives (e.replayKnown name u q ⟨.ofList series, .ofList calls⟩) m h m' := by
  rw [replay_eq] at hh
  obtain ⟨series, hseries, hh⟩ := Result.bind_ok hh
  obtain ⟨m', hh⟩ := gives_of_answerOf hh
  obtain ⟨calls, m, hcalls, hh⟩ := gives_bind.1 hh
  exact ⟨series, calls, m, m', hseries, hcalls, hh⟩

/-- What a replay goes through. -/
theorem replay_ok (he : e.Consistent) (hu : e.IsExpanded u) {levels : Nat} {name : String}
    {h : History} (hh : e.replay (e.historyWithin levels) name u q = .ok h) :
    ∃ known filled, e.Collected u q known ∧ (∀ d ∈ datesOf known, e.IsKnown u d filled) ∧
      (∀ d, d ∈ h.keys ↔ d ∈ datesOf known) ∧
      ∀ d s, h.find? d = some s → ∃ m m' r, s = Series.withName r name ∧ Gives (evaluate e.registry
        (replaying e.reader filled) u (q.asOf d)) m (.series r) m' := by
  obtain ⟨series, calls, _, _, hseries, hcalls, hh⟩ := replay_collects hh
  have hkeys (d : InsertionDate) := mem_keys_replayKnown (d := d) hh
  obtain ⟨filled, _, hfilled, hh⟩ := gives_bind.1 hh
  obtain ⟨versions, _, hversions, hh⟩ := gives_bind.1 hh
  obtain ⟨rfl, -⟩ := gives_pure.1 hh
  have hcollected := collected_of_mapM he hu hseries hcalls
  refine ⟨_, filled, hcollected, fun d hd => hcollected.isKnown he hu hd hfilled, hkeys,
    fun d s hs => ?_⟩
  obtain ⟨date, -, m, _, h⟩ := Result.exists_of_mem_right (forall₂_of_gives_mapM hversions)
    (OrderedMap.mem_ofList (OrderedMap.mem_of_find? hs))
  obtain ⟨rfl, m₁, r, hr, hv⟩ := gives_replayAt h
  exact ⟨m, m₁, r, hr, hv⟩

/-- What is replayed is in the order of its dates. -/
theorem isSorted_replay {leafHistory : String → HistoryQuery → Except EngineError (Option History)}
    {name : String} {t : Tree} {h : History} (hh : e.replay leafHistory name t q = .ok h) :
    h.IsSorted := by
  obtain ⟨_, _, _, _, -, -, hh⟩ := replay_collects hh
  obtain ⟨_, _, -, hh⟩ := gives_bind.1 hh
  obtain ⟨versions, _, -, hh⟩ := gives_bind.1 hh
  obtain ⟨rfl, -⟩ := gives_pure.1 hh
  exact OrderedMap.isSorted_ofList versions

/-- The history of a formula, as it was replayed. -/
theorem history_ok {name : String} (hu : e.expandedTree name = .ok u) (hdiff : q.asDiff = false)
    {h : History} (hh : e.history name q = .ok (some h)) :
    ∃ levels, e.replay (e.historyWithin levels) name u q = .ok h := by
  obtain ⟨t, ht, -⟩ := expandedTree_ok hu
  unfold history replayLevels at hh
  rw [historyWithin, contains_of_formulaTree? ht, if_pos rfl] at hh
  obtain ⟨u', hu', hh⟩ := Result.bind_ok hh
  obtain rfl := Except.ok.inj (hu.symm.trans hu')
  obtain ⟨h', hreplay, hh⟩ := Result.bind_ok hh
  refine ⟨e.formulas.size, ?_⟩
  unfold asAsked at hh
  rw [hdiff] at hh
  obtain rfl := Option.some.inj (Except.ok.inj hh)
  exact hreplay

/-- **The history of a formula** has a version for every date in the window at which something in
the expanded formula changes, and each is what the expanded formula is at the date, if it mentions
no leap second and the window counts whole microseconds. -/
theorem history_eq_evaluate (he : e.Reachable) {name : String} (hu : e.expandedTree name = .ok u)
    (hdiff : q.asDiff = false) {h : History} (hh : e.history name q = .ok (some h)) :
    (∀ d, d ∈ h.keys ↔ q.inserted.contains d = true ∧ e.HasVersionAt u d) ∧
    (u.HasNoLeapSecond → q.window.IsWhole → ∀ d s v, h.find? d = some s →
      answerOf (evaluate e.registry e.reader u (q.asOf d)) = .ok v →
      ∃ r, v = .series r ∧ s.samePoints r = true) := by
  have he := he.consistent
  have hexpanded := isExpanded he hu
  obtain ⟨levels, hreplay⟩ := history_ok hu hdiff hh
  obtain ⟨known, filled, hcollected, hknown, hkeys, hfind⟩ := replay_ok he hexpanded hreplay
  refine ⟨fun d => (hkeys d).trans (hcollected.mem_datesOf he hexpanded),
    fun hleap hwindow d s v hs hv => ?_⟩
  have hd : d ∈ datesOf known := (hkeys d).1 (List.mem_map_of_mem (OrderedMap.mem_of_find? hs))
  obtain ⟨m, m', r, rfl, hr⟩ := hfind d s hs
  obtain ⟨v', hvv', n, hv'⟩ := means_of_evaluate he hexpanded.isFormula hv
  rw [he.registry] at hr
  have hrelated := agree_replaying hexpanded hleap (hknown d hd) n hwindow _ _ _ _ _ _ hr
    (hv' n le_rfl)
  cases hrelated with
  | @series _ r' hr' =>
    cases hvv' with
    | @series s' _ hs' =>
      exact ⟨s', rfl, samePoints_of_eq (hr'.points.trans hs'.points.symm)⟩

/-- An engine with a stored series of two versions, and a formula. -/
def revising (formula : String) : Engine :=
  let e := overNothing .initial
  let e := (e.updateSeries "a" (.ofPoints "a" [(dayOf2024 0, 1.0), (dayOf2024 1, 2.0)])
    (dayOf2024 0) false).engine
  let e := (e.updateSeries "a" (.ofPoints "a" [(dayOf2024 1, 3.0)]) (dayOf2024 2) false).engine
  (e.registerFormula "f" formula ⟨none, false⟩).engine

theorem reachable_revising (formula : String) : (revising formula).Reachable :=
  .registerFormula (.updateSeries (.updateSeries (reachable_overNothing rfl) _ _ _ _) _ _ _ _) _ _ _

/-- The sum of a stored series and of a constant one. -/
def sumWithConstant : String :=
  "(add (series \"a\") (constant 1 \"2024-01-01\" \"2024-01-03\" \"D\" \"2024-01-02\"))"

/-- The history from the second day on has the constant call and the later version of the series,
and the earlier version is filled in. -/
theorem history_revising_eq_evaluate : ∃ u h,
    (revising sumWithConstant).expandedTree "f" = .ok u ∧ u.HasNoLeapSecond ∧
    (revising sumWithConstant).history "f" ⟨⟨some (dayOf2024 1), none⟩, .unbounded, false⟩ =
      .ok (some h) ∧ h.keys = [dayOf2024 1, dayOf2024 2] ∧
    (∀ d ∈ h.keys, (revising sumWithConstant).HasVersionAt u d) ∧
    ∀ d s v, h.find? d = some s → answerOf (evaluate (revising sumWithConstant).registry
      (revising sumWithConstant).reader u ⟨some d, .unbounded⟩) = .ok v →
      ∃ r, v = .series r ∧ s.samePoints r = true := by
  obtain ⟨u, hu⟩ := Result.exists_ok (x := (revising sumWithConstant).expandedTree "f")
    (by decide +kernel)
  obtain ⟨h, hh⟩ := Result.exists_ok_some (x := (revising sumWithConstant).history "f"
    ⟨⟨some (dayOf2024 1), none⟩, .unbounded, false⟩) (by decide +kernel)
  have hleap : u.HasNoLeapSecond := by
    have hall : ((revising sumWithConstant).expandedTree "f").toOption.all
        (fun u => decide u.HasNoLeapSecond) = true := by decide +kernel
    rw [hu] at hall
    exact of_decide_eq_true hall
  have hkeys : h.keys = [dayOf2024 1, dayOf2024 2] := by
    have hall : ((revising sumWithConstant).history "f"
        ⟨⟨some (dayOf2024 1), none⟩, .unbounded, false⟩).toOption.join.map OrderedMap.keys =
          some [dayOf2024 1, dayOf2024 2] := by decide +kernel
    rw [hh] at hall
    exact Option.some.inj hall
  obtain ⟨hdates, hversions⟩ := history_eq_evaluate (reachable_revising _) hu rfl hh
  exact ⟨u, h, hu, hleap, hh, hkeys, fun d hd => ((hdates d).1 hd).2,
    hversions hleap Window.isWhole_unbounded⟩

/-- A constant series from a leap second on. -/
def fromLeapSecond : String :=
  "(constant 1 \"2024-01-01 23:59:60\" \"2024-01-02 00:00:30\" \"10S\" \"2024-01-01\")"

/-- The times from ten seconds after midnight on. -/
def tenSecondsOn : Window := ⟨some (.within 1704153610 0), none⟩

/-- **A version of a history need not be what the formula is at its date**: the constant series is
counted once from the leap second and once from midnight. -/
theorem history_ne_evaluate : ¬ ∀ e : Engine, e.Reachable → ∀ name u q h d s v,
    e.expandedTree name = .ok u → q.asDiff = false → e.history name q = .ok (some h) →
    h.find? d = some s → answerOf (evaluate e.registry e.reader u (q.asOf d)) = .ok v →
    ∃ r, v = .series r ∧ s.samePoints r = true := by
  intro hall
  have hdiffer : (do
      let u ← (revising fromLeapSecond).expandedTree "f"
      let h ← (revising fromLeapSecond).history "f" ⟨.unbounded, tenSecondsOn, false⟩
      return agreeWherever (.ok (h.bind (·.find? (dayOf2024 0))))
        (answerOf (evaluate (revising fromLeapSecond).registry (revising fromLeapSecond).reader
          u ⟨some (dayOf2024 0), tenSecondsOn⟩))) = .ok false :=
    Result.ok_of_toOption (by decide +kernel)
  obtain ⟨u, hu, hdiffer⟩ := Result.bind_ok hdiffer
  obtain ⟨h, hh, hdiffer⟩ := Result.bind_ok hdiffer
  have hfalse := Except.ok.inj hdiffer
  cases hs : h.bind (·.find? (dayOf2024 0)) with
  | none =>
    rw [hs] at hfalse
    cases hfalse
  | some s =>
    rw [hs] at hfalse
    cases hv : answerOf (evaluate (revising fromLeapSecond).registry
        (revising fromLeapSecond).reader u ⟨some (dayOf2024 0), tenSecondsOn⟩) with
    | error cause =>
      rw [hv] at hfalse
      cases hfalse
    | ok v =>
      obtain ⟨h, rfl, hfind⟩ := Option.bind_eq_some_iff.1 hs
      obtain ⟨r, rfl, hsame⟩ := hall _ (reachable_revising _) "f" u _ h _ s v hu rfl hh hfind hv
      rw [hv] at hfalse
      exact Bool.false_ne_true (hfalse.symm.trans hsame)

end Engine

end SeriesAlgebra
