import SeriesAlgebra.Proofs.Engine.Names
import SeriesAlgebra.Proofs.Formula.Alike

/-!
# Engines that are reached

An engine is made over a store and changes by its calls, of which some fail and change
nothing but the ledger (`Engine.Reachable`; no source is added). Whatever the calls
are, the engine stays consistent (`Engine.Reachable.consistent`): its store is, no name
is that of a formula and of a stored series, and the text of every formula is read
back as a canonical formula that gives a series.
-/

namespace SeriesAlgebra

/-- **What is kept as a formula**: it is read back as it is, and gives a series. -/
structure Tree.IsKept (t : Tree) : Prop where
  canonical : t.canonical = t
  formula : t.IsFormula

/-- What is kept under a name: a formula of a kind. -/
structure FormulaRecord.Keeps (K : Tree → Prop) (record : FormulaRecord) (name : String) : Prop where
  name : record.name = name
  tree : ∃ t, Tree.parse record.text = .ok t ∧ K t

/-- **Kinds of formulas that can be kept**: they are read back as they are, and renaming series
makes formulas of the kind of them. -/
structure Tree.CanBeKept (K : Tree → Prop) : Prop where
  canonical : ∀ {t}, K t → t.canonical = t
  renameSeries : ∀ {t}, K t → ∀ old new, K (t.renameSeries old new)

theorem Tree.IsKept.renameSeries {t : Tree} (h : t.IsKept) (old new : String) :
    (t.renameSeries old new).IsKept :=
  ⟨canonical_renameSeries h.canonical old new, (alike_renameSeries old new t).isFormula h.formula⟩

theorem Tree.canBeKept : CanBeKept IsKept := ⟨IsKept.canonical, IsKept.renameSeries⟩

theorem Tree.canBeKept_canonical : CanBeKept fun t => t.canonical = t :=
  ⟨id, canonical_renameSeries⟩

/-- The text of what is kept is read back as it was. -/
theorem Tree.CanBeKept.parse_text {K : Tree → Prop} (hK : CanBeKept K) {t : Tree}
    (hreadable : t.IsReadable) (h : K t) : parse t.text = .ok t := by
  rw [Tree.parse_text hreadable, hK.canonical h]

namespace Engine

/-- **Engines that are reached** by the calls there are. -/
inductive Reachable : Engine → Prop
  | create {store : Store} (hstore : store.Reachable) (config : Config) {e : Engine}
      (he : create store config .builtin = .ok e) : Reachable e
  | perform {e : Engine} (h : e.Reachable) (c : Call) : Reachable (e.perform c).engine

theorem Reachable.updateSeries {e : Engine} (h : e.Reachable) (name : String) (update : Series)
    (date : InsertionDate) (aware : Bool) :
    (e.updateSeries name update date aware).engine.Reachable :=
  h.perform (.updateSeries name update date aware)

theorem Reachable.registerFormula {e : Engine} (h : e.Reachable) (name text : String)
    (options : RegisterOptions) : (e.registerFormula name text options).engine.Reachable :=
  h.perform (.registerFormula name text options)

theorem Reachable.performAll {e : Engine} (h : e.Reachable) (calls : List Call) :
    (e.performAll calls).Reachable := by
  induction calls generalizing e with
  | nil => exact h
  | cons c rest ih => exact ih (h.perform c)

/-- Whether a map holds formulas of a kind under their names. -/
structure AllKept (K : Tree → Prop) (formulas : OrderedMap String FormulaRecord) : Prop where
  sorted : formulas.IsSorted
  records : ∀ name record, formulas.find? name = some record → record.Keeps K name

/-- Whether a map holds formulas that give series under their names. -/
abbrev AreKept : OrderedMap String FormulaRecord → Prop := AllKept Tree.IsKept

/-- **The invariant of engines.** -/
structure Consistent (e : Engine) : Prop where
  registry : e.registry = .builtin
  sources : e.sources = []
  store : e.store.Consistent
  formulas : AreKept e.formulas
  names : e.NamesApart

/-! ### Formulas that are kept -/

variable {K : Tree → Prop}

theorem areKept_empty : AllKept K .empty := ⟨OrderedMap.isSorted_empty, fun _ _ h => by cases h⟩

theorem areKept_insert {formulas : OrderedMap String FormulaRecord} (h : AllKept K formulas)
    {name : String} {record : FormulaRecord} (hrecord : record.Keeps K name) :
    AllKept K (formulas.insert name record) := by
  refine ⟨OrderedMap.isSorted_insert h.sorted _ _, fun n r hr => ?_⟩
  rcases OrderedMap.find?_of_insert hr with ⟨rfl, rfl⟩ | hr
  · exact hrecord
  · exact h.records n r hr

theorem areKept_erase {formulas : OrderedMap String FormulaRecord} (h : AllKept K formulas)
    (name : String) : AllKept K (formulas.erase name) :=
  ⟨OrderedMap.isSorted_erase h.sorted _, fun n r hr =>
    h.records n r (OrderedMap.find?_of_erase hr)⟩

theorem areKept_modify {formulas : OrderedMap String FormulaRecord} (h : AllKept K formulas)
    {name : String} {t : Tree} (hparse : Tree.parse t.text = .ok t) (ht : K t) :
    AllKept K (formulas.modify name fun record => { record with text := t.text }) := by
  refine ⟨OrderedMap.isSorted_modify h.sorted _ _, fun n r hr => ?_⟩
  rw [OrderedMap.find?_modify] at hr
  obtain ⟨record, hrecord, rfl⟩ := Option.map_eq_some_iff.1 hr
  have hkept := h.records n record hrecord
  split
  · exact ⟨hkept.name, t, hparse, ht⟩
  · exact hkept

theorem areKept_moveRecord {formulas : OrderedMap String FormulaRecord} (h : AllKept K formulas)
    (old new : String) : AllKept K (moveRecord old new formulas) := by
  unfold moveRecord
  split
  · rename_i record hrecord
    exact areKept_insert (areKept_erase h old) ⟨rfl, (h.records old record hrecord).tree⟩
  · exact h

/-! ### The formulas of names -/

theorem treeOf?_some (record : FormulaRecord) :
    treeOf? (some record) = (Tree.parse record.text).map some := rfl

/-- The formula of a name after an erasure was there before. -/
theorem treeOf?_of_erase {records : OrderedMap String FormulaRecord} {name other : String} {t : Tree}
    (ht : treeOf? ((records.erase name).find? other) = .ok (some t)) :
    treeOf? (records.find? other) = .ok (some t) := by
  cases hrecord : (records.erase name).find? other with
  | none =>
    rw [hrecord] at ht
    cases ht
  | some record => rwa [OrderedMap.find?_of_erase hrecord, ← hrecord]

/-- A formula is read from the text of its record. -/
theorem formulaTree?_some {e : Engine} {name : String} {t : Tree} (ht : e.formulaTree? name = .ok (some t)) :
    ∃ record, e.formulas.find? name = some record ∧ Tree.parse record.text = .ok t := by
  unfold formulaTree? treeOf? at ht
  cases hfind : e.formulas.find? name with
  | none =>
    rw [hfind] at ht
    cases ht
  | some record =>
    rw [hfind] at ht
    obtain ⟨t', ht', heq⟩ := Result.map_ok ht
    obtain rfl := Option.some.inj heq
    exact ⟨record, rfl, ht'⟩

theorem contains_of_formulaTree? {e : Engine} {name : String} {t : Tree}
    (ht : e.formulaTree? name = .ok (some t)) : e.formulas.contains name = true := by
  obtain ⟨record, hfind, -⟩ := formulaTree?_some ht
  rw [OrderedMap.contains, hfind]
  rfl

theorem not_contains {e : Engine} {name : String} (hname : e.formulaTree? name = .ok none) :
    e.formulas.contains name = false := by
  unfold formulaTree? treeOf? at hname
  unfold OrderedMap.contains
  cases hfind : e.formulas.find? name with
  | none => rfl
  | some record =>
    rw [hfind] at hname
    obtain ⟨t, -, heq⟩ := Result.map_ok hname
    cases heq

/-- What is read back from a map of formulas is of the kind that is kept there. -/
theorem AllKept.of_treeOf? {records : OrderedMap String FormulaRecord} (h : AllKept K records)
    {name : String} {t : Tree} (ht : treeOf? (records.find? name) = .ok (some t)) : K t := by
  cases hfind : records.find? name with
  | none =>
    rw [hfind] at ht
    cases ht
  | some record =>
    obtain ⟨u, hu, hkept⟩ := (h.records name record hfind).tree
    rw [hfind, treeOf?_some, hu] at ht
    obtain rfl := Option.some.inj (Except.ok.inj ht)
    exact hkept

/-- What is kept can be read. -/
theorem AllKept.tree_of_record {records : OrderedMap String FormulaRecord} (h : AllKept K records)
    {name : String} {record : FormulaRecord} (hrecord : records.find? name = some record) :
    ∃ t, treeOf? (records.find? name) = .ok (some t) ∧ treeOf? (some record) = .ok (some t) := by
  obtain ⟨t, ht, -⟩ := (h.records name record hrecord).tree
  have htree : treeOf? (some record) = .ok (some t) := by
    rw [treeOf?_some, ht]
    rfl
  exact ⟨t, (congrArg treeOf? hrecord).trans htree, htree⟩

theorem AreKept.isKept {e : Engine} (h : AreKept e.formulas) {name : String} {t : Tree}
    (ht : e.formulaTree? name = .ok (some t)) : t.IsKept := h.of_treeOf? ht

theorem AreKept.formulaTree?_ne_error {e : Engine} (h : AreKept e.formulas) (name : String)
    (cause : TreeError) : e.formulaTree? name ≠ .error cause := by
  cases hrecord : e.formulas.find? name with
  | none =>
    unfold formulaTree?
    rw [hrecord]
    exact nofun
  | some record =>
    obtain ⟨t, ht, -⟩ := h.tree_of_record hrecord
    rw [formulaTree?, ht]
    exact nofun

/-! ### Formulas that are read -/

/-- What is read of a record. -/
structure ReadRecord.IsRead (r : ReadRecord) (registry : Registry) (record : FormulaRecord) :
    Prop where
  name : r.name = record.name
  tree : Tree.parse record.text = .ok r.tree
  references : r.references = r.tree.seriesReferences registry

theorem forall₂_readRecords {e : Engine} {records : OrderedMap String FormulaRecord}
    {read : List ReadRecord} (h : e.readRecords records = .ok read) :
    List.Forall₂ (fun record r => ReadRecord.IsRead r e.registry record) records.values read := by
  refine (Result.forall₂_of_mapM h).imp fun record r hr => ?_
  cases hparse : Tree.parse record.text with
  | error cause =>
    rw [hparse] at hr
    cases hr
  | ok t =>
    rw [hparse] at hr
    obtain rfl := Except.ok.inj hr
    exact ⟨rfl, hparse, rfl⟩

theorem isKept_of_mem_values {formulas : OrderedMap String FormulaRecord} (h : AllKept K formulas)
    {record : FormulaRecord} (hrecord : record ∈ formulas.values) : record.Keeps K record.name := by
  obtain ⟨⟨name, _⟩, hmem, rfl⟩ := List.mem_map.1 hrecord
  have hkept := h.records name _ ((OrderedMap.mem_entries_iff h.sorted).1 hmem)
  exact ⟨rfl, hkept.tree⟩

theorem isKept_of_readRecords {e : Engine} {formulas : OrderedMap String FormulaRecord}
    (h : AllKept K formulas) {read : List ReadRecord} (hread : e.readRecords formulas = .ok read)
    {r : ReadRecord} (hr : r ∈ read) : r.tree.IsReadable ∧ K r.tree := by
  obtain ⟨record, hrecord, hisRead⟩ := Result.exists_of_mem_right (forall₂_readRecords hread) hr
  obtain ⟨t, ht, hkept⟩ := (isKept_of_mem_values h hrecord).tree
  obtain rfl := Except.ok.inj (ht.symm.trans hisRead.tree)
  exact ⟨Tree.isReadable_of_parse ht, hkept⟩

theorem areKept_renameReferences (hK : Tree.CanBeKept K) {old new : String} {read : List ReadRecord}
    (hread : ∀ r ∈ read, r.tree.IsReadable ∧ K r.tree) :
    ∀ {formulas : OrderedMap String FormulaRecord}, AllKept K formulas →
      AllKept K (renameReferences old new read formulas) := by
  unfold renameReferences
  induction read with
  | nil => exact fun h => h
  | cons r rest ih =>
    intro formulas h
    rw [List.filter_cons]
    have hrest : ∀ s ∈ rest, s.tree.IsReadable ∧ K s.tree :=
      fun s hs => hread s (List.mem_cons_of_mem _ hs)
    split
    · obtain ⟨hreadable, hkept⟩ := hread r List.mem_cons_self
      have hrenamed := hK.renameSeries hkept old new
      exact ih hrest
        (areKept_modify h (hK.parse_text (hreadable.renameSeries old new) hrenamed) hrenamed)
    · exact ih hrest h

/-! ### Calls -/

theorem consistent_create {store : Store} (hstore : store.Consistent) {config : Config} {e : Engine}
    (he : create store config .builtin = .ok e) : e.Consistent := by
  have hnames := namesApart_create he
  obtain ⟨c, -, he⟩ := Result.bind_ok he
  obtain rfl := Except.ok.inj he
  exact ⟨rfl, rfl, hstore, areKept_empty, hnames⟩

/-- A formula whose checks succeed has the shape of one. -/
theorem isFormula_of_validate {e : Engine} (hregistry : e.registry = .builtin) {name : String}
    {t : Tree} (hreadable : t.IsReadable) {options : RegisterOptions} {aware : Option Bool}
    (h : (e.validate name t .series options).answer = .ok aware) : t.IsFormula := by
  obtain ⟨hoperators, ⟨type, htype⟩, -⟩ := checks_of_validate h
  rw [hregistry] at hoperators htype
  exact Tree.isFormula_of_check hreadable hoperators htype

/-- A formula that is registered is kept, if it is of the kind once it is written. -/
theorem AllKept.registered {formulas : OrderedMap String FormulaRecord} (h : AllKept K formulas)
    {name text : String} {t : Tree} (ht : Tree.parse text = .ok t) (hK : K t.canonical)
    (aware : Option Bool) :
    AllKept K (formulas.insert name (newRecord name t aware (formulas.find? name))) :=
  areKept_insert h ⟨rfl, t.canonical, Tree.parse_text_of_parse ht, hK⟩

theorem AllKept.renamed {e : Engine} (hK : Tree.CanBeKept K) (h : AllKept K e.formulas)
    {old new : String}
    {read readGroups : List ReadRecord} {store : Store} {moved : OrderedMap String FormulaRecord}
    (hr : e.Renames old new read readGroups store moved) :
    AllKept K (renameReferences old new read moved) := by
  have hread (r : ReadRecord) (hmem : r ∈ read) := isKept_of_readRecords h hr.reads hmem
  rcases moveSeries_cases hr.moves with ⟨-, -, rfl⟩ | ⟨-, -, rfl⟩
  · exact areKept_renameReferences hK hread h
  · exact areKept_renameReferences hK hread (areKept_moveRecord h old new)

/-- **Effects keep what is kept as formulas**, if formulas that are registered are of the kind once
they are written. -/
theorem AllKept.effect {e e' : Engine} {c : Call} (hK : Tree.CanBeKept K) (h : AllKept K e.formulas)
    (hregistered : ∀ {name text : String} {t : Tree} {options : RegisterOptions} {aware : Option Bool},
      Tree.parse text = .ok t → (e.validate name t .series options).answer = .ok aware → K t.canonical)
    (heffect : e.Effect c e') : AllKept K e'.formulas := by
  cases heffect with
  | updateMetadata hrecord _ =>
    have hkept := h.records _ _ hrecord
    exact areKept_insert h ⟨hkept.name, hkept.tree⟩
  | registerFormula ht _ hanswer => exact h.registered ht (hregistered ht hanswer) _
  | rename hr => exact h.renamed hK hr
  | deleteFormula _ => exact areKept_erase h _
  | _ => exact h

/-- **Effects keep what is kept as group formulas**, if group formulas that are registered are of
the kind once they are written. -/
theorem AllKept.effect_groups {e e' : Engine} {c : Call} (hK : Tree.CanBeKept K) (h : AllKept K e.groupFormulas)
    (hregistered : ∀ {name text : String} {t : Tree} {options : RegisterOptions}
      {aware : Option Bool}, Tree.parse text = .ok t →
        (e.validate name t .table options).answer = .ok aware → K t.canonical)
    (heffect : e.Effect c e') : AllKept K e'.groupFormulas := by
  cases heffect with
  | registerGroupFormula ht _ _ hanswer => exact h.registered ht (hregistered ht hanswer) _
  | rename hr =>
    exact areKept_renameReferences hK (fun r hmem => isKept_of_readRecords h hr.readsGroups hmem) h
  | deleteGroupFormula _ => exact areKept_erase h _
  | _ => exact h

theorem AreKept.effect {e e' : Engine} {c : Call} (h : AreKept e.formulas)
    (hregistry : e.registry = .builtin) (heffect : e.Effect c e') : AreKept e'.formulas := by
  refine AllKept.effect Tree.canBeKept h (fun {_ _ t _ _} ht hanswer => ?_) heffect
  have hformula := isFormula_of_validate hregistry (Tree.isReadable_of_parse ht) hanswer
  exact ⟨Tree.canonical_canonical t, (Tree.alike_canonical t).isFormula hformula⟩

theorem consistent_store {e e' : Engine} {c : Call} (h : e.store.Consistent)
    (heffect : e.Effect c e') : e'.store.Consistent := by
  cases heffect with
  | updateSeries _ hstore => exact Store.consistent_update h hstore
  | updateGroup _ _ hstore => exact h.of_series (Store.updateGroup_series hstore)
  | rename hr =>
    rcases moveSeries_cases hr.moves with ⟨-, hstore, -⟩ | ⟨-, rfl, -⟩
    · exact Store.consistent_rename h hstore
    · exact h
  | deleteSeries _ hstore =>
    rw [Store.delete_ok hstore]
    exact Store.consistent_without h _
  | deleteGroup hstore => exact h.of_series (Store.deleteGroup_series hstore)
  | _ => exact h

theorem Consistent.effect {e e' : Engine} {c : Call} (h : e.Consistent) (heffect : e.Effect c e') :
    e'.Consistent where
  registry := heffect.registry.trans h.registry
  sources := heffect.sources.trans h.sources
  store := consistent_store h.store heffect
  formulas := h.formulas.effect h.registry heffect
  names := h.names.effect heffect

theorem Consistent.noteAll {e : Engine} (h : e.Consistent) (records : List LedgerRecord) :
    (e.noteAll records).Consistent :=
  ⟨h.registry, h.sources, h.store, h.formulas, h.names.noteAll records⟩

/-- **Every engine that is reached is consistent.** -/
theorem Reachable.consistent {e : Engine} (h : e.Reachable) : e.Consistent := by
  induction h with
  | create hstore config he => exact consistent_create hstore.consistent he
  | @perform e _ c ih =>
    rcases e.ends_perform c with ⟨records, cause, heq, -⟩ | ⟨e', records, heq, heffect, -⟩
    · rw [heq]
      exact ih.noteAll records
    · rw [heq]
      exact (ih.effect heffect).noteAll records

/-! ### First engines -/

theorem reachable_overNothing {config : Config} (h : config.validate = .ok config) :
    (overNothing config).Reachable :=
  .create .empty config (create_overNothing h)

end Engine

end SeriesAlgebra
