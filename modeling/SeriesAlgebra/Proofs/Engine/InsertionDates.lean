import SeriesAlgebra.Proofs.Engine.Deltas
import SeriesAlgebra.Proofs.Engine.Remembering
import SeriesAlgebra.Proofs.Engine.Replay
import SeriesAlgebra.Proofs.Formula.Written

/-!
# The dates of a history

The insertion dates of a series or formula are collected without its history, and are the
dates of that history all the same (`Engine.insertionDates_eq_keys`) – with every registry
whose autotrophic operators tell the dates of their own histories
(`Registry.DatesAgree`), as the built-in operators do (`Registry.datesAgree_builtin`).

Both collections go through the same leaves and calls. A replay keeps the histories of
calls by their texts, so calls with one text must have one history: they are one call,
since formulas that are kept are written as they are, and a call has the same arguments
wherever it is evaluated, since the reader is stable.
-/

namespace SeriesAlgebra

open Evaluation Reading

/-- **Whether autotrophic operators tell the dates of their histories**, whatever the arguments. -/
def Registry.DatesAgree (r : Registry) : Prop :=
  ∀ symbol op, r.find? symbol = some op → op.isAutotrophic = true →
    ∀ args inserted h dates, op.history args ⟨inserted, .unbounded, false⟩ = .ok h →
      op.insertionDates args inserted = .ok dates → ∀ d, d ∈ dates ↔ d ∈ h.keys

theorem Constant.mem_insertionDates {c : Constant} {q : HistoryQuery} {h : History}
    (hh : c.history q = .ok h) (d : InsertionDate) : d ∈ c.insertionDates q.inserted ↔ d ∈ h.keys := by
  unfold history at hh
  unfold insertionDates
  split at hh
  · rename_i hin
    obtain ⟨s, -, rfl⟩ := Result.map_ok hh
    rw [if_pos hin]
    rfl
  · rename_i hout
    obtain rfl := Except.ok.inj hh
    rw [if_neg hout]
    rfl

/-- The built-in operators do. -/
theorem Registry.datesAgree_builtin : Registry.builtin.DatesAgree := by
  intro symbol op hop hauto args inserted h dates hh hdates d
  obtain ⟨b, rfl⟩ : ∃ b, op = .builtin b := by
    obtain ⟨b, -, heq⟩ := List.mem_map.1 (OrderedMap.mem_ofList (OrderedMap.mem_of_find? hop))
    exact ⟨b, (Prod.mk.inj heq).2.symm⟩
  cases b with
  | constant =>
    obtain ⟨c, hc, hh⟩ := Result.bind_ok hh
    obtain ⟨c', hc', hdates⟩ := Result.bind_ok hdates
    obtain rfl := Except.ok.inj (hc.symm.trans hc')
    obtain rfl := Except.ok.inj hdates
    exact Constant.mem_insertionDates hh d
  | _ => cases hauto

namespace Tree

variable {registry : Registry}

/-- An autotrophic call among the leaves of a history is a part of the formula. -/
theorem mem_nodes_of_autotrophic {t call : Tree}
    (h : call ∈ (t.historyLeaves registry).autotrophic) :
    call ∈ t.nodes ∧ ∃ op, registry.operatorOf? call = some op ∧ op.isAutotrophic = true := by
  obtain ⟨leaf, hleaf, heq⟩ := List.mem_filterMap.1 h
  cases leaf with
  | series name => cases heq
  | autotrophic call' =>
    obtain rfl := Option.some.inj heq
    clear h heq
    induction t using inductionOn with
    | atom l =>
      rw [leavesOfHistory] at hleaf
      cases hleaf
    | list items ih =>
      cases items with
      | nil =>
        rw [leavesOfHistory] at hleaf
        cases hleaf
      | cons head args =>
        rw [leavesOfHistory] at hleaf
        cases hop : registry.operatorOf? (list (head :: args)) with
        | none =>
          rw [hop] at hleaf
          cases hleaf
        | some op =>
          simp only [hop] at hleaf
          split at hleaf
          · rename_i hauto
            cases List.mem_singleton.1 hleaf
            exact ⟨self_mem_nodes _, op, hop, hauto⟩
          · split at hleaf
            · obtain ⟨name, -, heq⟩ := List.mem_map.1 hleaf
              cases heq
            · obtain ⟨t, ht, hleaf⟩ := mem_leavesOfHistoryOfAll.1 hleaf
              obtain ⟨hcall, hop'⟩ := ih t (List.mem_cons_of_mem _ ht) hleaf
              exact ⟨mem_nodes_list.2 (Or.inr ⟨t, List.mem_cons_of_mem _ ht, hcall⟩), hop'⟩

end Tree

namespace Engine

open SeriesAlgebra.Tree

variable {e : Engine} {u : Tree} {q : HistoryQuery} {d : InsertionDate}

/-! ### What is assumed of an engine -/

/-- **What the dates of histories rest on.** -/
structure TellsDates (e : Engine) : Prop where
  registry : e.registry.DatesAgree
  sources : e.sources = []
  store : e.store.Consistent
  formulas : AllKept (fun t => t.canonical = t) e.formulas

theorem tellsDates_of_reaches {store : Store} (hstore : store.Reachable) {config : Config}
    {registry : Registry} {first : Engine} (hfirst : create store config registry = .ok first)
    (h : Reaches (fun _ _ => True) first e) (hsources : e.sources = [])
    (hregistry : registry.DatesAgree) : e.TellsDates := by
  have hinvariant : e.registry = registry ∧ e.store.Consistent ∧
      AllKept (fun t => t.canonical = t) e.formulas := by
    refine Reaches.invariant (I := fun e => e.registry = registry ∧ e.store.Consistent ∧
      AllKept (fun t => t.canonical = t) e.formulas) (fun _ _ h => h) (fun _ _ h => h)
      (fun e c e' _ heffect he => ?_) h ?_
    · obtain ⟨hregistry, hstore, hformulas⟩ := he
      exact ⟨heffect.registry.trans hregistry, consistent_store hstore heffect,
        hformulas.effect canBeKept_canonical (fun _ _ => canonical_canonical _) heffect⟩
    · obtain ⟨c, -, hfirst⟩ := Result.bind_ok hfirst
      obtain rfl := Except.ok.inj hfirst
      exact ⟨rfl, hstore.consistent, areKept_empty⟩
  obtain ⟨rfl, hstore, hformulas⟩ := hinvariant
  exact ⟨hregistry, hsources, hstore, hformulas⟩

/-- Expanded formulas are written as they are. -/
theorem TellsDates.isWritten (he : e.TellsDates) {name : String}
    (hu : e.expandedTree name = .ok u) : u.IsWritten := by
  have hformula (name : String) (t : Tree) (ht : e.formulaTree? name = .ok (some t)) :
      t.IsWritten := by
    obtain ⟨record, -, hparse⟩ := formulaTree?_some ht
    exact isWritten_of_canonical (isReadable_of_parse hparse).nodes (he.formulas.of_treeOf? ht)
  obtain ⟨t, ht, hu⟩ := expandedTree_ok hu
  exact (hformula name t ht).expandBelow hformula (Result.mapError_ok hu)

/-! ### Autotrophic calls -/

/-- Whether the operator of an autotrophic call has a property. -/
def Operates (e : Engine) (call : Tree) (P : Operator → Prop) : Prop :=
  ∃ op, e.registry.operatorOf? call = some op ∧ op.isAutotrophic = true ∧ P op

/-- The arguments of an autotrophic call. -/
def callArgs (e : Engine) (call : Tree) : Reading Memo Args :=
  evaluateArgs e.registry e.reader call .latest

theorem isStable_callArgs (e : Engine) (call : Tree) : (e.callArgs call).IsStable :=
  isStable_evaluateArgs e call _

/-- What a replay collects of an autotrophic call. -/
def EntryOf (e : Engine) (q : HistoryQuery) (call : Tree) (args : Args)
    (entry : String × (Tree × History)) : Prop :=
  ∃ history, entry = (call.text, call, history) ∧
    e.Operates call fun op => op.history args q.absolute = .ok history

/-- What is collected of an autotrophic call without its history. -/
def DatesOf (e : Engine) (inserted : Window) (call : Tree) (args : Args)
    (dates : List InsertionDate) : Prop :=
  e.Operates call fun op => op.insertionDates args inserted = .ok dates

section

variable {call : Tree} (hcall : e.Operates call fun _ => True) {m m' : Memo}

include hcall

theorem exists_entryOf {entry : String × (Tree × History)}
    (h : Gives (do return (call.text, call, ← e.callHistory q.absolute call)) m entry m') :
    ∃ args, Gives (e.callArgs call) m args m' ∧ e.EntryOf q call args entry := by
  obtain ⟨op, hop, hauto, -⟩ := hcall
  obtain ⟨history, _, hhistory, h⟩ := gives_bind.1 h
  obtain ⟨rfl, rfl⟩ := gives_pure.1 h
  obtain ⟨args, _, hargs, hhistory⟩ := gives_bind.1 hhistory
  simp only [hop] at hhistory
  obtain ⟨hsettled, rfl⟩ := gives_settle.1 hhistory
  exact ⟨args, hargs, history, rfl, op, hop, hauto, hsettled⟩

theorem exists_datesOf {inserted : Window} {dates : List InsertionDate}
    (h : Gives (e.callDates inserted call) m dates m') :
    ∃ args, Gives (e.callArgs call) m args m' ∧ e.DatesOf inserted call args dates := by
  obtain ⟨op, hop, hauto, -⟩ := hcall
  unfold callDates at h
  simp only [hop] at h
  obtain ⟨args, _, hargs, h⟩ := gives_bind.1 h
  obtain ⟨hsettled, rfl⟩ := gives_settle.1 h
  exact ⟨args, hargs, op, hop, hauto, hsettled⟩

end

/-- A call tells the dates of its history. -/
theorem TellsDates.mem_iff (he : e.TellsDates) {call : Tree} {args : Args}
    {entry : String × (Tree × History)} {dates : List InsertionDate}
    (hentry : e.EntryOf q call args entry) (hdates : e.DatesOf q.inserted call args dates) :
    d ∈ entry.2.2.keys ↔ d ∈ dates := by
  obtain ⟨history, rfl, op, hop, hauto, hh⟩ := hentry
  obtain ⟨op', hop', -, hd⟩ := hdates
  obtain rfl := Option.some.inj (hop.symm.trans hop')
  obtain ⟨symbol, -, hfind⟩ := Option.bind_eq_some_iff.1 hop
  exact (he.registry symbol op hfind hauto args q.inserted _ dates hh hd d).symm

/-- A call with its arguments has one history. -/
theorem EntryOf.unique {call : Tree} {args : Args} {entry entry' : String × (Tree × History)}
    (h : e.EntryOf q call args entry) (h' : e.EntryOf q call args entry') : entry = entry' := by
  obtain ⟨history, rfl, op, hop, -, hh⟩ := h
  obtain ⟨history', rfl, op', hop', -, hh'⟩ := h'
  obtain rfl := Option.some.inj (hop.symm.trans hop')
  obtain rfl := Except.ok.inj (hh.symm.trans hh')
  rfl

/-- **Autotrophic calls tell the dates of their histories.** -/
theorem mem_callEntries_iff (he : e.TellsDates) (hu : u.IsWritten)
    {entries : List (String × (Tree × History))} {dates : List (List InsertionDate)} {m m' : Memo}
    (hentries : Gives (e.callEntries q (u.historyLeaves e.registry).autotrophic) [] entries m)
    (hdates : Gives ((u.historyLeaves e.registry).autotrophic.mapM (e.callDates q.inserted)) []
      dates m') :
    (∃ entry ∈ (OrderedMap.ofList entries).entries, d ∈ entry.2.2.keys) ↔
      ∃ ds ∈ dates, d ∈ ds := by
  have hcalls (call : Tree) (hcall : call ∈ (u.historyLeaves e.registry).autotrophic) :
      call.IsWritten ∧ e.Operates call fun _ => True := by
    obtain ⟨hnode, op, hop, hauto⟩ := mem_nodes_of_autotrophic hcall
    exact ⟨Everywhere.node hu hnode, op, hop, hauto, trivial⟩
  obtain ⟨⟨args, hargs⟩, hentries⟩ := IsStable.forall₂_of_gives_mapM
    (R := e.EntryOf q) (fun call _ => isStable_callArgs e call)
    (fun call hcall _ _ _ h => exists_entryOf (hcalls call hcall).2 h) hentries
  obtain ⟨⟨args', hargs'⟩, hdates⟩ := IsStable.forall₂_of_gives_mapM
    (R := e.DatesOf q.inserted) (fun call _ => isStable_callArgs e call)
    (fun call hcall _ _ _ h => exists_datesOf (hcalls call hcall).2 h) hdates
  obtain ⟨-, rfl⟩ := hargs.unique hargs'
  have hone : ∀ entry ∈ entries, ∀ entry' ∈ entries, entry.1 = entry'.1 → entry = entry' := by
    intro entry hentry entry' hentry' htext
    obtain ⟨call, hcall, a, ha, h⟩ := Result.exists_of_mem_right hentries hentry
    obtain ⟨call', hcall', a', ha', h'⟩ := Result.exists_of_mem_right hentries hentry'
    have hcalls : call = call' := by
      obtain ⟨_, rfl, -⟩ := h
      obtain ⟨_, rfl, -⟩ := h'
      exact (hcalls call hcall).1.text_inj (hcalls call' hcall').1 htext
    subst hcalls
    obtain ⟨rfl, -⟩ := ha.unique ha'
    exact h.unique h'
  simp only [OrderedMap.mem_entries_ofList hone]
  refine Result.exists_iff_of_forall₂ hentries hdates ?_
  rintro call entry ds ⟨a, ha, hentry⟩ ⟨a', ha', hds⟩
  obtain ⟨rfl, -⟩ := ha.unique ha'
  exact he.mem_iff hentry hds

/-! ### Series and formulas -/

theorem keys_asAsked {name : String} {h h' : History} (hh : e.asAsked name q h = .ok h') :
    h'.keys = h.keys := by
  unfold asAsked at hh
  split at hh
  · rw [Except.ok.inj hh]
  · dsimp only at hh
    split at hh
    all_goals
      obtain ⟨before, -, hh⟩ := Result.bind_ok hh
      rw [← Except.ok.inj hh, Series.keys_diffs]

theorem keys_stored {name : String} {h : History}
    (hh : e.store.history? name q.inserted q.window = some h) :
    e.store.insertionDates name q.inserted = h.keys := by
  obtain ⟨stored, hstored, rfl⟩ := Option.map_eq_some_iff.1 hh
  rw [Store.insertionDates, hstored, OrderedMap.keys_mapValues]
  change stored.versions.keys.filter _ = ((stored.versions.entries.filter _).map (·.1))
  rw [OrderedMap.keys, List.filter_map]
  rfl

/-- What the dates of a replay and of its parts are. -/
theorem mem_datesOf_iff {series : List (String × History)}
    {calls : OrderedMap String (Tree × History)}
    (hone : ∀ leaf ∈ series, ∀ leaf' ∈ series, leaf.1 = leaf'.1 → leaf = leaf') :
    d ∈ datesOf ⟨.ofList series, calls⟩ ↔
      (∃ leaf ∈ series, d ∈ leaf.2.keys) ∨ ∃ entry ∈ calls.entries, d ∈ entry.2.2.keys := by
  unfold datesOf OrderedMap.values
  simp only [mem_sortedSet, List.mem_append, List.mem_flatMap, List.mem_map,
    exists_exists_and_eq_and, OrderedMap.mem_entries_ofList hone]

/-- **The dates of a formula are those of its history**, if those of its series are. The induction
goes down the levels. -/
theorem insertionDatesWithin_eq_keys (he : e.TellsDates) {levels : Nat} {name : String}
    {h : History} {dates : List InsertionDate} (hh : e.historyWithin levels name q = .ok (some h))
    (hd : e.insertionDatesWithin levels name q.inserted = .ok dates) :
    dates = h.keys ∧ dates.Pairwise (· < ·) := by
  induction levels generalizing name q h dates with
  | zero => cases hh
  | succ levels ih =>
    rw [historyWithin] at hh
    rw [insertionDatesWithin] at hd
    cases hformula : e.formulas.contains name with
    | true =>
      rw [hformula, if_pos rfl] at hh hd
      obtain ⟨u, hu, hh⟩ := Result.bind_ok hh
      obtain ⟨h₀, hreplay, hh⟩ := Result.bind_ok hh
      obtain ⟨h₁, hasked, hh⟩ := Result.bind_ok hh
      obtain rfl := Option.some.inj (Except.ok.inj hh)
      obtain ⟨u', hu', hd⟩ := Result.bind_ok hd
      obtain rfl := Except.ok.inj (hu.symm.trans hu')
      obtain ⟨ofSeries, hofSeries, hd⟩ := Result.bind_ok hd
      obtain ⟨ofCalls, hofCalls, hd⟩ := Result.bind_ok hd
      obtain rfl := Except.ok.inj hd
      obtain ⟨m', hofCalls⟩ := gives_of_answerOf hofCalls
      have hsorted := pairwise_sortedSet IsStrictOrder.trans IsStrictOrder.compare
        (ofSeries.flatten ++ ofCalls.flatten)
      refine ⟨?_, hsorted⟩
      rw [keys_asAsked hasked]
      refine IsStrictOrder.eq_of_mem_iff hsorted (isSorted_replay hreplay) fun d => ?_
      obtain ⟨series, calls, m, _, hseries, hcalls, hreplayed⟩ := replay_collects hreplay
      have hseries := Result.forall₂_of_mapM hseries
      have hone : ∀ leaf ∈ series, ∀ leaf' ∈ series, leaf.1 = leaf'.1 → leaf = leaf' := by
        intro leaf hleaf leaf' hleaf' hname
        obtain ⟨_, -, hleaf⟩ := Result.exists_of_mem_right hseries hleaf
        obtain ⟨_, -, hleaf'⟩ := Result.exists_of_mem_right hseries hleaf'
        obtain ⟨rfl, -⟩ := leafEntry_ok hleaf
        obtain ⟨rfl, -⟩ := leafEntry_ok hleaf'
        rw [hname] at hleaf
        exact Except.ok.inj (hleaf.symm.trans hleaf')
      rw [mem_keys_replayKnown hreplayed, mem_datesOf_iff hone, mem_sortedSet, List.mem_append,
        List.mem_flatten, List.mem_flatten,
        mem_callEntries_iff he (he.isWritten hu) hcalls hofCalls]
      refine or_congr_left (Result.exists_iff_of_forall₂ (Result.forall₂_of_mapM hofSeries) hseries ?_)
      intro leaf dates entry hdates hentry
      obtain ⟨rfl, hhistory⟩ := leafEntry_ok hentry
      rw [(ih (q := q.absolute) hhistory hdates).1]
    | false =>
      rw [hformula, if_neg Bool.false_ne_true] at hh hd
      have hnone : e.sourceOf? name = none := by
        unfold sourceOf?
        rw [he.sources]
        rfl
      cases hhistory : e.store.history? name q.inserted q.window with
      | none =>
        simp only [hhistory, hnone] at hh
        cases hh
      | some h₀ =>
        simp only [hhistory] at hh
        obtain ⟨h₁, hasked, hh⟩ := Result.bind_ok hh
        obtain rfl := Option.some.inj (Except.ok.inj hh)
        obtain ⟨stored, hstored, -⟩ := Option.map_eq_some_iff.1 hhistory
        have hcontains : e.store.contains name = true := by
          rw [Store.contains, OrderedMap.contains, hstored]
          rfl
        rw [hcontains, if_pos rfl] at hd
        obtain rfl := Except.ok.inj hd
        refine ⟨(keys_stored hhistory).trans (keys_asAsked hasked).symm, ?_⟩
        rw [Store.insertionDates, hstored]
        exact (he.store.stored name stored hstored).sorted.filter _

/-- **Insertion dates are the dates of the history**: with any registry whose autotrophic operators
tell the dates of their histories, in every engine that is reached and has no source, the insertion
dates of a series or formula in a window are those of the versions inserted in it, in order, whenever
both are told. -/
theorem insertionDates_eq_keys {store : Store} (hstore : store.Reachable) {config : Config}
    {registry : Registry} (hregistry : registry.DatesAgree) {first : Engine}
    (hfirst : create store config registry = .ok first) (h : Reaches (fun _ _ => True) first e)
    (hsources : e.sources = []) {name : String} {history : History} {dates : List InsertionDate}
    (hh : e.history name q = .ok (some history))
    (hd : e.insertionDates name q.inserted = .ok dates) :
    dates = history.keys ∧ dates.Pairwise (· < ·) :=
  insertionDatesWithin_eq_keys (tellsDates_of_reaches hstore hfirst h hsources hregistry) hh hd

/-- The sum of a series of which a value changes and of a constant one has three versions. -/
theorem insertionDates_revising : ∃ h dates,
    (revising sumWithConstant).history "f" allVersions = .ok (some h) ∧
    (revising sumWithConstant).insertionDates "f" .unbounded = .ok dates ∧
    dates = [dayOf2024 0, dayOf2024 1, dayOf2024 2] ∧
    dates = h.keys ∧ dates.Pairwise (· < ·) := by
  have hanswers : (do
      let h ← (revising sumWithConstant).history "f" allVersions
      let dates ← (revising sumWithConstant).insertionDates "f" .unbounded
      return (h.isSome, dates)) = .ok (true, [dayOf2024 0, dayOf2024 1, dayOf2024 2]) :=
    Result.ok_of_toOption (by decide +kernel)
  obtain ⟨h, hh, hanswers⟩ := Result.bind_ok hanswers
  obtain ⟨dates, hd, hanswers⟩ := Result.bind_ok hanswers
  obtain ⟨hsome, hdates⟩ := Prod.mk.inj (Except.ok.inj hanswers)
  obtain ⟨h, rfl⟩ := Option.isSome_iff_exists.1 hsome
  exact ⟨h, dates, hh, hd, hdates, insertionDates_eq_keys .empty Registry.datesAgree_builtin
    (create_overNothing rfl) (reaches_revising _) (reachable_revising _).consistent.sources hh hd⟩

end Engine

end SeriesAlgebra
