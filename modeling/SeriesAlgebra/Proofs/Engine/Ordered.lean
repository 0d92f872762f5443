import SeriesAlgebra.Proofs.Engine.Replay
import SeriesAlgebra.Proofs.Evaluation.Ordered

/-!
# Answers in order

An engine whose sources answer with series in order does so itself (`Engine.IsOrdered`): all
it remembers while it reads is in order, and so is what it reads (`Engine.isSorted_of_read`),
and all versions of a history are (`Engine.isOrdered_of_history`).
-/

namespace SeriesAlgebra

open Evaluation Reading Series

/-- Whether all versions of a history are in order. -/
def History.IsOrdered (h : History) : Prop := ∀ entry ∈ h.entries, entry.2.IsSorted

/-- **Whether what a source answers is in order.** -/
structure Source.IsOrdered (source : Source) : Prop where
  read : ∀ {name q s}, source.read? name q = .ok (some s) → s.IsSorted
  history : ∀ {name q h}, source.history? name q = .ok (some h) → History.IsOrdered h

/-- Whether all series that are remembered are in order. -/
def Memo.IsOrdered (memo : Memo) : Prop := ∀ key s, memo.lookup key = some s → s.IsSorted

/-! ### Histories -/

namespace History

theorem isOrdered_empty : IsOrdered .empty := fun _ h => by cases h

theorem IsOrdered.insert {h : History} (hh : h.IsOrdered) (date : InsertionDate) {s : Series}
    (hs : s.IsSorted) : History.IsOrdered (OrderedMap.insert h date s) := by
  rintro ⟨k, r⟩ hr
  rcases OrderedMap.mem_insertEntry hr with ⟨-, rfl⟩ | hr
  · exact hs
  · exact hh _ hr

theorem IsOrdered.isSorted_of_asOf? {h : History} (hh : h.IsOrdered) {date : InsertionDate}
    {s : Series} (hs : asOf? h date = some s) : s.IsSorted := by
  obtain ⟨entry, hentry, rfl⟩ := Option.map_eq_some_iff.1 hs
  exact hh entry (List.mem_filter.1 (List.mem_of_getLast? hentry)).1

/-- What a history shows of a version is in order. -/
theorem IsOrdered.isSorted_versionFor {h : History} (hh : h.IsOrdered) (name : String) (q : Query) :
    (Engine.versionFor h name q).IsSorted := by
  unfold Engine.versionFor
  cases hversion : q.revision.bind (asOf? h) with
  | none => exact .nil
  | some s =>
    obtain ⟨date, -, hs⟩ := Option.bind_eq_some_iff.1 hversion
    exact isSorted_window (hh.isSorted_of_asOf? hs) _

end History

/-- A value that is in order if it is a series. -/
theorem isSorted_of_asSeries {v : Value} (hv : ∀ s, v = .series s → s.IsSorted) {operator : String}
    {s : Series} (h : v.asSeries operator = .ok s) : s.IsSorted := by
  cases v with
  | series r =>
    obtain rfl := Except.ok.inj h
    exact hv r rfl
  | _ => cases h

/-! ### Stored series -/

namespace Store

variable {s : Store} {name : String}

theorem Consistent.isSorted_of_read? (h : s.Consistent) {q : Query} {r : Series}
    (hr : s.read? name q = some r) : r.IsSorted := by
  obtain ⟨stored, hstored, rfl⟩ := Option.map_eq_some_iff.1 hr
  split
  · rename_i version hversion
    exact isSorted_window (isStored_of_version? (h.stored name stored hstored) _ hversion).sorted _
  · exact .nil

theorem Consistent.isOrdered_of_history? (h : s.Consistent) {inserted window : Window} {r : History}
    (hr : s.history? name inserted window = some r) : r.IsOrdered := by
  obtain ⟨stored, hstored, rfl⟩ := Option.map_eq_some_iff.1 hr
  have hconsistent := h.stored name stored hstored
  intro entry hentry
  obtain ⟨⟨date, version⟩, hmem, rfl⟩ := List.mem_map.1 hentry
  have hversion := (OrderedMap.mem_entries_iff hconsistent.sorted).1 (List.mem_filter.1 hmem).1
  exact isSorted_window (hconsistent.versions date version hversion).sorted _

end Store

/-! ### Engines -/

namespace Engine

open SeriesAlgebra.Tree

/-- **What it takes that an engine answers in order**: a store and formulas as they are when they
are reached, and sources that do so. -/
structure IsOrdered (e : Engine) : Prop where
  registry : e.registry = .builtin
  store : e.store.Consistent
  formulas : AreKept e.formulas
  sources : ∀ source ∈ e.sources, source.IsOrdered

/-- Every engine that is reached answers in order, if its sources do. -/
theorem isOrdered_of_reaches {store : Store} (hstore : store.Reachable) {config : Config}
    {first e : Engine} (hfirst : create store config .builtin = .ok first)
    {P : Engine → Call → Prop} (h : Reaches P first e)
    (hsources : ∀ source ∈ e.sources, source.IsOrdered) : e.IsOrdered := by
  have hinvariant : e.registry = .builtin ∧ e.store.Consistent ∧ AreKept e.formulas := by
    refine Reaches.invariant (I := fun e => e.registry = .builtin ∧ e.store.Consistent ∧
      AreKept e.formulas) (fun _ _ h => h) (fun _ _ h => h) (fun e c e' _ heffect he => ?_) h ?_
    · obtain ⟨hregistry, hstore, hformulas⟩ := he
      exact ⟨heffect.registry.trans hregistry, consistent_store hstore heffect,
        hformulas.effect hregistry heffect⟩
    · have hconsistent := consistent_create hstore.consistent hfirst
      exact ⟨hconsistent.registry, hconsistent.store, hconsistent.formulas⟩
  exact ⟨hinvariant.1, hinvariant.2.1, hinvariant.2.2, hsources⟩

variable {e : Engine} (he : e.IsOrdered)

include he

/-! ### Readers -/

theorem isOrdered_of_sourceOf? {name : String} {source : Source}
    (h : e.sourceOf? name = some source) : source.IsOrdered :=
  he.sources source (List.mem_of_find?_eq_some h)

theorem isSorted_of_readPrimary {name : String} {q : Query} {s : Series}
    (h : e.readPrimary name q = .ok s) : s.IsSorted := by
  unfold readPrimary at h
  split at h
  · rename_i r hr
    obtain rfl := Except.ok.inj h
    exact he.store.isSorted_of_read? hr
  · split at h
    · cases h
    · rename_i source hsource
      obtain ⟨answer, hanswer, h⟩ := Result.bind_ok h
      cases answer with
      | none => cases h
      | some r =>
        obtain rfl := Except.ok.inj h
        exact (isOrdered_of_sourceOf? he hsource).read hanswer

/-- What is read is in order if the readers that are entered answer in order. -/
theorem isSorted_of_readSeries {enter : String → Except EngineError (Resolver Memo)}
    (henter : ∀ label below, enter label = .ok below → below.IsOrdered Memo.IsOrdered)
    {name : String} {q : Query} {m m' : Memo} {s : Series} (hm : m.IsOrdered)
    (hs : Gives (e.readSeries enter name q) m s m') : s.IsSorted ∧ m'.IsOrdered := by
  cases hname : e.formulaTree? name with
  | error cause => exact absurd hs (not_gives_readSeries hname)
  | ok tree =>
    cases tree with
    | none =>
      rw [readSeries_primary hname] at hs
      obtain ⟨hprimary, rfl⟩ := gives_settle.1 hs
      exact ⟨isSorted_of_readPrimary he hprimary, hm⟩
    | some t =>
      obtain ⟨below, v, r, hbelow, hv, rfl, rfl⟩ := (gives_readSeries_formula hname).1 hs
      rw [he.registry] at hv
      obtain ⟨hsorted, hm'⟩ := (henter name below hbelow).isSorted_of_gives
        (he.formulas.isKept hname).formula.nodes hm hv
      exact ⟨hsorted r rfl, hm'⟩

/-- A reader answers in order if those that it enters do. -/
theorem isOrdered_readerEntering {enter : String → Except EngineError (Resolver Memo)}
    (henter : ∀ label below, enter label = .ok below → below.IsOrdered Memo.IsOrdered) :
    (e.readerEntering enter).IsOrdered Memo.IsOrdered := by
  refine ⟨fun {name q m s m'} hm hs => ?_, fun hm h => ?_⟩
  · rcases gives_remember.1 hs with ⟨hlookup, rfl⟩ | ⟨-, m'', hcompute, rfl⟩
    · exact ⟨hm _ s hlookup, hm⟩
    · obtain ⟨hsorted, hm''⟩ := isSorted_of_readSeries he henter hm hcompute
      refine ⟨hsorted, fun key r hr => ?_⟩
      rw [List.lookup_cons] at hr
      split at hr
      · obtain rfl := Option.some.inj hr
        exact hsorted
      · exact hm'' key r hr
  · obtain ⟨rfl, rfl⟩ := gives_pure.1 h
    exact ⟨nofun, hm⟩

theorem isOrdered_readerBelow (levels : Nat) (path : List String) :
    (e.readerBelow levels path).IsOrdered Memo.IsOrdered := by
  induction levels generalizing path with
  | zero =>
    refine isOrdered_readerEntering he fun label below hbelow => ?_
    split at hbelow <;> cases hbelow
  | succ levels ih =>
    refine isOrdered_readerEntering he fun label below hbelow => ?_
    split at hbelow
    · cases hbelow
    · obtain rfl := Except.ok.inj hbelow
      exact ih _

/-- **What an engine reads is in order.** -/
theorem isSorted_of_read {name : String} {q : Query} {s : Series}
    (h : e.read name q = .ok (some s)) : s.IsSorted := by
  unfold read at h
  split at h
  · obtain ⟨r, hr, heq⟩ := Result.map_ok h
    obtain rfl := Option.some.inj heq
    obtain ⟨m, hm⟩ := gives_of_answerOf hr
    exact ((isOrdered_readerBelow he _ _).series (fun _ _ h => by cases h) hm).1
  · split at h
    · rename_i r hr
      obtain rfl := Option.some.inj (Except.ok.inj h)
      exact he.store.isSorted_of_read? hr
    · split at h
      · rename_i source hsource
        exact (isOrdered_of_sourceOf? he hsource).read h
      · cases h

theorem isOrdered_reader : e.reader.IsOrdered Memo.IsOrdered := isOrdered_readerBelow he _ _

/-! ### Replays -/

omit he in
theorem isOrdered_nil : Memo.IsOrdered [] := fun _ _ h => by cases h

/-- Whether all histories that a replay works with are in order. -/
structure Replayed.IsOrdered (known : Replayed) : Prop where
  series : ∀ leaf ∈ known.series.entries, leaf.2.IsOrdered
  calls : ∀ leaf ∈ known.calls.entries, leaf.2.2.IsOrdered

omit he in
theorem isOrdered_replaying {σ : Type} {J : σ → Prop} {reader : Resolver σ}
    (hreader : reader.IsOrdered J) {known : Replayed} (hknown : known.IsOrdered) :
    (replaying reader known).IsOrdered J := by
  refine ⟨fun {name q m s m'} hm hs => ?_, fun {call q m answer m'} hm h => ?_⟩
  · simp only [replaying] at hs
    split at hs
    · rename_i h hfind
      obtain ⟨rfl, rfl⟩ := gives_pure.1 hs
      exact ⟨(hknown.series _ (OrderedMap.mem_of_find? hfind)).isSorted_versionFor _ _, hm⟩
    · exact hreader.series hm hs
  · simp only [replaying] at h
    split at h
    · rename_i h' hfind
      obtain ⟨rfl, rfl⟩ := gives_pure.1 h
      refine ⟨fun v hv => ⟨_, (Option.some.inj hv).symm, ?_⟩, hm⟩
      exact (hknown.calls _ (OrderedMap.mem_of_find? hfind)).isSorted_versionFor _ _
    · obtain ⟨rfl, rfl⟩ := gives_pure.1 h
      exact ⟨fun _ hv => (Option.some_ne_none _ hv.symm).elim, hm⟩

theorem isOrdered_of_callHistory {u : Tree} {items : List Tree} (hitems : IsConstantCall u items)
    {q : HistoryQuery} {m m' : Memo} {h : History} (hm : m.IsOrdered)
    (hh : Gives (e.callHistory q (.list items)) m h m') : h.IsOrdered ∧ m'.IsOrdered := by
  unfold callHistory at hh
  obtain ⟨args, m'', hargs, hh⟩ := gives_bind.1 hh
  rw [he.registry, evaluateArgs_scalar _ hitems.scalar] at hargs
  obtain ⟨-, rfl⟩ := gives_settle.1 hargs
  rw [he.registry, hitems.calls.operatorOf?] at hh
  obtain ⟨hhistory, rfl⟩ := gives_settle.1 hh
  obtain ⟨c, -, hhistory⟩ := Result.bind_ok hhistory
  unfold Constant.history at hhistory
  split at hhistory
  · obtain ⟨s, hs, rfl⟩ := Result.map_ok hhistory
    exact ⟨History.isOrdered_empty.insert _ (Constant.isSorted_of_series hs), hm⟩
  · obtain rfl := Except.ok.inj hhistory
    exact ⟨History.isOrdered_empty, hm⟩

omit he in
theorem isOrdered_startingWith {h : History} (hh : h.IsOrdered) (date : InsertionDate) {s : Series}
    (hs : s.IsSorted) : (startingWith h date s).IsOrdered := by
  unfold startingWith
  split
  · exact hh
  · exact hh.insert date hs

theorem isOrdered_of_backfillSeries {q : HistoryQuery} {first : InsertionDate}
    {leaf leaf' : String × History} (hleaf : leaf.2.IsOrdered)
    (h : e.backfillSeries q first leaf = .ok leaf') : leaf'.2.IsOrdered := by
  unfold backfillSeries at h
  split at h
  · obtain ⟨version, hversion, h⟩ := Result.bind_ok h
    cases version with
    | none =>
      obtain rfl := Except.ok.inj h
      exact hleaf
    | some s =>
      obtain rfl := Except.ok.inj h
      exact isOrdered_startingWith hleaf first (isSorted_of_read he hversion)
  · obtain rfl := Except.ok.inj h
    exact hleaf

theorem isOrdered_of_backfillCall {name : String} {q : HistoryQuery} {first : InsertionDate}
    {leaf leaf' : String × (Tree × History)} (hcall : leaf.2.1.Everywhere IsFormulaNode)
    (hleaf : leaf.2.2.IsOrdered) {m m' : Memo} (hm : m.IsOrdered)
    (h : Gives (e.backfillCall name q first leaf) m leaf' m') :
    leaf'.2.2.IsOrdered ∧ m'.IsOrdered := by
  unfold backfillCall at h
  dsimp only at h
  split at h
  · obtain ⟨v, m₁, hv, h⟩ := gives_bind.1 h
    obtain ⟨s, m₂, hs, h⟩ := gives_bind.1 h
    obtain ⟨rfl, rfl⟩ := gives_pure.1 h
    obtain ⟨hseries, rfl⟩ := gives_settle.1 hs
    rw [he.registry] at hv
    obtain ⟨hsorted, hm₁⟩ := (isOrdered_reader he).isSorted_of_gives hcall hm hv
    exact ⟨isOrdered_startingWith hleaf first (isSorted_of_asSeries hsorted hseries), hm₁⟩
  · obtain ⟨rfl, rfl⟩ := gives_pure.1 h
    exact ⟨hleaf, hm⟩

/-- The beginnings of histories in order are filled in with versions in order. -/
theorem isOrdered_of_backfill {name : String} {q : HistoryQuery} {dates : List InsertionDate}
    {known filled : Replayed} (hknown : known.IsOrdered)
    (hcalls : ∀ leaf ∈ known.calls.entries, leaf.2.1.Everywhere IsFormulaNode) {m m' : Memo}
    (hm : m.IsOrdered) (h : Gives (e.backfill name q dates known) m filled m') :
    filled.IsOrdered ∧ m'.IsOrdered := by
  cases dates with
  | nil =>
    obtain ⟨rfl, rfl⟩ := gives_pure.1 h
    exact ⟨hknown, hm⟩
  | cons first rest =>
    obtain ⟨series, m₁, hseries, h⟩ := gives_bind.1 h
    obtain ⟨calls, m₂, hbacks, h⟩ := gives_bind.1 h
    obtain ⟨rfl, rfl⟩ := gives_pure.1 h
    obtain ⟨hseries', rfl⟩ := gives_settle.1 hseries
    obtain ⟨hbacks, hm₂⟩ := forall₂_of_gives_mapM_of (P := fun _ leaf => leaf.2.2.IsOrdered)
      (fun leaf hleaf m leaf' m' hm h => isOrdered_of_backfillCall he (hcalls leaf hleaf)
        (hknown.calls leaf hleaf) hm h) hm hbacks
    refine ⟨⟨fun leaf hleaf => ?_, fun leaf hleaf => ?_⟩, hm₂⟩
    · obtain ⟨leaf', hleaf', hback⟩ :=
        Result.exists_of_mem_right (Result.forall₂_of_mapM hseries') hleaf
      exact isOrdered_of_backfillSeries he (hknown.series leaf' hleaf') hback
    · obtain ⟨leaf', -, hordered⟩ := Result.exists_of_mem_right hbacks hleaf
      exact hordered

/-- A version of a replay is in order. -/
theorem isSorted_of_replayAt {name : String} {u : Tree} (hu : u.Everywhere IsFormulaNode)
    {q : HistoryQuery} {known : Replayed} (hknown : known.IsOrdered) {date : InsertionDate}
    {m m' : Memo} {entry : InsertionDate × Series} (hm : m.IsOrdered)
    (h : Gives (e.replayAt name u q known date) m entry m') :
    entry.2.IsSorted ∧ m'.IsOrdered := by
  obtain ⟨v, m₁, hv, h⟩ := gives_bind.1 h
  obtain ⟨s, m₂, hsettled, h⟩ := gives_bind.1 h
  obtain ⟨rfl, rfl⟩ := gives_pure.1 h
  obtain ⟨hseries, rfl⟩ := gives_settle.1 hsettled
  rw [he.registry] at hv
  obtain ⟨hsorted, hm₁⟩ :=
    (isOrdered_replaying (isOrdered_reader he) hknown).isSorted_of_gives hu hm hv
  have hs : s.IsSorted := isSorted_of_asSeries hsorted hseries
  exact ⟨hs, hm₁⟩

/-- A replay is in order if the histories of the leaves are. -/
theorem isOrdered_of_replay {leafHistory : String → HistoryQuery → Except EngineError (Option History)}
    {q : HistoryQuery}
    (hleaves : ∀ name h, leafHistory name q.absolute = .ok (some h) → History.IsOrdered h)
    {name : String} {u : Tree} (hu : e.IsExpanded u) {h : History}
    (hh : e.replay leafHistory name u q = .ok h) : h.IsOrdered := by
  rw [replay_eq] at hh
  obtain ⟨series, hseries, hh⟩ := Result.bind_ok hh
  obtain ⟨m, hh⟩ := gives_of_answerOf hh
  obtain ⟨calls, m₁, hcalls, hh⟩ := gives_bind.1 hh
  obtain ⟨filled, m₂, hfilled, hh⟩ := gives_bind.1 hh
  obtain ⟨versions, m₃, hversions, hh⟩ := gives_bind.1 hh
  obtain ⟨rfl, rfl⟩ := gives_pure.1 hh
  have hcall (call : Tree) (hmem : call ∈ (u.historyLeaves e.registry).autotrophic) (m : Memo)
      (leaf : String × (Tree × History)) (m' : Memo) (hm : m.IsOrdered)
      (h : Gives (do return (call.text, call, ← e.callHistory q.absolute call)) m leaf m') :
      (leaf.2.1.Everywhere IsFormulaNode ∧ leaf.2.2.IsOrdered) ∧ m'.IsOrdered := by
    obtain ⟨history, m₁, hhistory, h⟩ := gives_bind.1 h
    obtain ⟨rfl, rfl⟩ := gives_pure.1 h
    rw [he.registry] at hmem
    obtain ⟨items, hitems, hconstant, rfl⟩ := (mem_autotrophic_historyLeaves hu.isFormula).1 hmem
    obtain ⟨hordered, hm₁⟩ :=
      isOrdered_of_callHistory he (hu.isConstantCall hitems hconstant) hm hhistory
    exact ⟨⟨hu.isFormula.node hitems, hordered⟩, hm₁⟩
  obtain ⟨hcalls, hm₁⟩ := forall₂_of_gives_mapM_of
    (P := fun _ leaf => leaf.2.1.Everywhere IsFormulaNode ∧ leaf.2.2.IsOrdered) hcall
    isOrdered_nil hcalls
  have hformula (leaf : String × (Tree × History)) (hleaf : leaf ∈ (OrderedMap.ofList calls).entries) :
      leaf.2.1.Everywhere IsFormulaNode ∧ leaf.2.2.IsOrdered := by
    obtain ⟨call, -, h⟩ := Result.exists_of_mem_right hcalls (OrderedMap.mem_ofList hleaf)
    exact h
  have hknown : Replayed.IsOrdered ⟨.ofList series, .ofList calls⟩ := by
    refine ⟨fun leaf hleaf => ?_, fun leaf hleaf => (hformula leaf hleaf).2⟩
    obtain ⟨name', -, h⟩ := Result.exists_of_mem_right (Result.forall₂_of_mapM hseries)
      (OrderedMap.mem_ofList hleaf)
    exact hleaves name' _ (leafEntry_ok h).2
  obtain ⟨hfilled, hm₂⟩ :=
    isOrdered_of_backfill he hknown (fun leaf hleaf => (hformula leaf hleaf).1) hm₁ hfilled
  obtain ⟨hversions, -⟩ := forall₂_of_gives_mapM_of (P := fun _ entry => entry.2.IsSorted)
    (fun date _ m entry m' hm h => isSorted_of_replayAt he hu.isFormula hfilled hm h) hm₂ hversions
  intro entry hentry
  obtain ⟨date, -, hsorted⟩ := Result.exists_of_mem_right hversions (OrderedMap.mem_ofList hentry)
  exact hsorted

/-! ### Histories -/

omit he in
theorem asAsked_full {name : String} {q : HistoryQuery} (hq : q.asDiff = false) (h : History) :
    e.asAsked name q h = .ok h := by
  unfold asAsked
  rw [hq]
  rfl

theorem isOrdered_of_historyWithin {levels : Nat} {name : String} {q : HistoryQuery}
    (hq : q.asDiff = false) {h : History} (hh : e.historyWithin levels name q = .ok (some h)) :
    h.IsOrdered := by
  induction levels generalizing name q h with
  | zero => cases hh
  | succ levels ih =>
    rw [historyWithin] at hh
    split at hh
    · obtain ⟨u, hu, hh⟩ := Result.bind_ok hh
      obtain ⟨replayed, hreplay, hh⟩ := Result.bind_ok hh
      rw [asAsked_full hq] at hh
      obtain rfl := Option.some.inj (Except.ok.inj hh)
      exact isOrdered_of_replay he (fun name h hh => ih rfl hh) (he.formulas.isExpanded hu) hreplay
    · split at hh
      · rename_i stored hstored
        rw [asAsked_full hq] at hh
        obtain rfl := Option.some.inj (Except.ok.inj hh)
        exact he.store.isOrdered_of_history? hstored
      · split at hh
        · rename_i source hsource
          exact (isOrdered_of_sourceOf? he hsource).history hh
        · cases hh

/-- **All versions of a history are in order**, if they are asked for in full. -/
theorem isOrdered_of_history {name : String} {q : HistoryQuery} (hq : q.asDiff = false)
    {h : History} (hh : e.history name q = .ok (some h)) : h.IsOrdered :=
  isOrdered_of_historyWithin he hq hh

end Engine

end SeriesAlgebra
