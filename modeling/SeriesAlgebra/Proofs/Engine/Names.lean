import SeriesAlgebra.Proofs.Binding.WellFormed
import SeriesAlgebra.Proofs.Engine.Call
import SeriesAlgebra.Proofs.Store.Reachable

/-!
# Names

The names of an engine do not overlap (`Engine.NamesApart`): a series is stored or a
formula but not both, a group is stored, a group formula or a binding but not two of
these, a binding is of a formula that there is, and each record is kept under its own
name. Every call keeps this, over every registry and every store
(`Engine.namesApart_of_reaches`).
-/

namespace SeriesAlgebra

namespace Engine

/-- Whether records are kept under their own names. -/
def AreNamed (records : OrderedMap String FormulaRecord) : Prop :=
  ∀ name record, (name, record) ∈ records.entries → record.name = name

/-- **Whether names do not overlap.** -/
structure NamesApart (e : Engine) : Prop where
  series : ∀ name, e.formulas.contains name = true → e.store.contains name = false
  groupFormulas : ∀ name, e.groupFormulas.contains name = true → e.store.containsGroup name = false
  bindings : ∀ name, e.bindings.contains name = true →
    e.store.containsGroup name = false ∧ e.groupFormulas.contains name = false
  bound : ∀ group binding, (group, binding) ∈ e.bindings.entries →
    e.formulas.contains binding.formula = true
  formulasNamed : AreNamed e.formulas
  groupsNamed : AreNamed e.groupFormulas

/-! ### Records -/

theorem areNamed_empty : AreNamed .empty := fun _ _ h => by cases h

theorem areNamed_insert {records : OrderedMap String FormulaRecord} (h : AreNamed records)
    {name : String} {record : FormulaRecord} (hrecord : record.name = name) :
    AreNamed (records.insert name record) := by
  intro n r hr
  rcases OrderedMap.mem_insertEntry hr with ⟨rfl, rfl⟩ | hr
  · exact hrecord
  · exact h n r hr

theorem areNamed_erase {records : OrderedMap String FormulaRecord} (h : AreNamed records)
    (name : String) : AreNamed (records.erase name) :=
  fun n r hr => h n r (List.mem_filter.1 hr).1

theorem areNamed_moveRecord {records : OrderedMap String FormulaRecord} (h : AreNamed records)
    (old new : String) : AreNamed (moveRecord old new records) := by
  unfold moveRecord
  split
  · exact areNamed_insert (areNamed_erase h old) rfl
  · exact h

theorem areNamed_modify {records : OrderedMap String FormulaRecord} (h : AreNamed records)
    (name text : String) :
    AreNamed (records.modify name fun record => { record with text := text }) := by
  rintro n r hr
  obtain ⟨⟨n', r'⟩, hmem, heq⟩ := List.mem_map.1 hr
  have hname := h n' r' hmem
  dsimp only at heq
  split at heq <;> · obtain ⟨rfl, rfl⟩ := Prod.mk.inj heq; exact hname

theorem areNamed_renameReferences (old new : String) (read : List ReadRecord) :
    ∀ {records : OrderedMap String FormulaRecord}, AreNamed records →
      AreNamed (renameReferences old new read records) := by
  unfold renameReferences
  induction read.filter (·.references.contains old) with
  | nil => exact fun h => h
  | cons r rest ih => exact fun h => ih (areNamed_modify h r.name _)

/-! ### Names of records -/

theorem contains_renameReferences (old new : String) (read : List ReadRecord) (name : String) :
    ∀ (records : OrderedMap String FormulaRecord),
      (renameReferences old new read records).contains name = records.contains name := by
  unfold renameReferences
  induction read.filter (·.references.contains old) with
  | nil => exact fun _ => rfl
  | cons r rest ih =>
    intro records
    rw [List.foldl_cons, ih, OrderedMap.contains, OrderedMap.find?_modify, Option.isSome_map]
    rfl

theorem contains_insert {α : Type} {m : OrderedMap String α} {name n : String} {a : α} :
    (m.insert name a).contains n = true ↔ n = name ∨ m.contains n = true := by
  rw [OrderedMap.contains_iff, OrderedMap.mem_keys_insert, ← OrderedMap.contains_iff]

theorem contains_erase {α : Type} {m : OrderedMap String α} {name n : String} :
    (m.erase name).contains n = true ↔ n ≠ name ∧ m.contains n = true := by
  rw [OrderedMap.contains_iff, OrderedMap.keys_erase, List.mem_filter, ← OrderedMap.contains_iff,
    decide_eq_true_iff, and_comm]

theorem contains_of_mem {α : Type} {m : OrderedMap String α} {name : String} {a : α}
    (h : (name, a) ∈ m.entries) : m.contains name = true :=
  OrderedMap.contains_iff.2 (List.mem_map.2 ⟨_, h, rfl⟩)

theorem moveRecord_eq {old : String} {records : OrderedMap String FormulaRecord}
    {record : FormulaRecord} (h : records.find? old = some record) (new : String) :
    moveRecord old new records = (records.erase old).insert new { record with name := new } := by
  unfold moveRecord
  rw [h]

/-- The formulas after one was moved. -/
theorem contains_moveRecord {old new : String} {records : OrderedMap String FormulaRecord}
    (hold : records.contains old = true) {name : String} :
    (moveRecord old new records).contains name = true ↔
      name = new ∨ name ≠ old ∧ records.contains name = true := by
  obtain ⟨record, hrecord⟩ := Option.isSome_iff_exists.1 hold
  rw [moveRecord_eq hrecord, contains_insert, contains_erase]

/-- What moving a series makes of store and formulas. -/
theorem moveSeries_cases {e : Engine} {old new : String} {store : Store}
    {moved : OrderedMap String FormulaRecord} (h : e.moveSeries old new = .ok (store, moved)) :
    (e.store.contains old = true ∧ e.store.rename old new = .ok store ∧ moved = e.formulas) ∨
      (e.store.contains old = false ∧ store = e.store ∧ moved = moveRecord old new e.formulas) := by
  unfold moveSeries at h
  split at h
  · rename_i hold
    cases hrename : e.store.rename old new with
    | error cause =>
      rw [hrename] at h
      cases h
    | ok renamed =>
      rw [hrename] at h
      obtain ⟨rfl, rfl⟩ := Prod.mk.inj (Except.ok.inj h)
      exact Or.inl ⟨hold, rfl, rfl⟩
  · rename_i hold
    obtain ⟨rfl, rfl⟩ := Prod.mk.inj (Except.ok.inj h)
    exact Or.inr ⟨Bool.eq_false_iff.2 hold, rfl, rfl⟩

/-! ### Calls -/

/-- What a call binds is well formed. -/
theorem ok_of_builds {formula : String} {binding : Binding} {c : Call}
    (h : Builds formula binding c) : binding.formula = formula ∧ binding.IsWellFormed := by
  cases c with
  | registerBinding group f rows =>
    obtain ⟨rfl, h⟩ := h
    obtain ⟨rfl, hbinding⟩ := Binding.ofRows?_eq_ok_iff.1 h
    exact ⟨rfl, hbinding⟩
  | registerBindingRecords group f records =>
    obtain ⟨rfl, h⟩ := h
    exact Binding.isWellFormed_of_ofRecords? h
  | _ => cases h

theorem namesApart_create {store : Store} {config : Config} {registry : Registry} {e : Engine}
    (he : create store config registry = .ok e) : e.NamesApart := by
  obtain ⟨c, -, he⟩ := Result.bind_ok he
  obtain rfl := Except.ok.inj he
  exact ⟨fun _ h => Bool.noConfusion h, fun _ h => Bool.noConfusion h,
    fun _ h => Bool.noConfusion h, fun _ _ h => absurd h List.not_mem_nil, areNamed_empty,
    areNamed_empty⟩

namespace NamesApart

variable {e e' : Engine}

theorem noteAll (h : e.NamesApart) (records : List LedgerRecord) :
    (e.noteAll records).NamesApart :=
  ⟨h.series, h.groupFormulas, h.bindings, h.bound, h.formulasNamed, h.groupsNamed⟩

theorem addSource (h : e.NamesApart) (source : Source) : (e.addSource source).NamesApart :=
  ⟨h.series, h.groupFormulas, h.bindings, h.bound, h.formulasNamed, h.groupsNamed⟩

theorem updateSeries (h : e.NamesApart) {name : String} {update : Series} {date : InsertionDate}
    {aware : Bool} {effect : Option Series} {store : Store}
    (hname : e.formulas.contains name = false)
    (hstore : e.store.update name update date aware = .ok (effect, store)) :
    NamesApart { e with store := store } := by
  have hgroups : ∀ n, store.containsGroup n = e.store.containsGroup n := fun n =>
    congrArg (OrderedMap.contains · n) (Store.update_groups hstore)
  refine { h with
    series := fun n hn => ?_
    groupFormulas := fun n hn => (hgroups n).trans (h.groupFormulas n hn)
    bindings := fun n hn => ⟨(hgroups n).trans (h.bindings n hn).1, (h.bindings n hn).2⟩ }
  have hne : n ≠ name := by
    rintro rfl
    exact Bool.eq_false_iff.1 hname hn
  exact (Store.contains_update hstore hne).trans (h.series n hn)

/-- Names stay apart if fewer groups and series are stored. -/
theorem of_fewer (h : e.NamesApart) {store : Store}
    (hseries : ∀ n, store.contains n = true → e.store.contains n = true)
    (hgroups : ∀ n, store.containsGroup n = true → e.store.containsGroup n = true) :
    NamesApart { e with store := store } :=
  { h with
    series := fun n hn => Bool.eq_false_iff.2 fun hs =>
      Bool.eq_false_iff.1 (h.series n hn) (hseries n hs)
    groupFormulas := fun n hn => Bool.eq_false_iff.2 fun hs =>
      Bool.eq_false_iff.1 (h.groupFormulas n hn) (hgroups n hs)
    bindings := fun n hn => ⟨Bool.eq_false_iff.2 fun hs =>
      Bool.eq_false_iff.1 (h.bindings n hn).1 (hgroups n hs), (h.bindings n hn).2⟩ }

theorem updateGroup (h : e.NamesApart) {name : String} {table : Frame} {date : InsertionDate}
    {store : Store} (hformulas : e.groupFormulas.contains name = false)
    (hbindings : e.bindings.contains name = false)
    (hstore : e.store.updateGroup name table date = .ok store) :
    NamesApart { e with store := store } := by
  have hfree (n : String) (hn : n ≠ name) (hfree : e.store.containsGroup n = false) :
      store.containsGroup n = false := by
    refine Bool.eq_false_iff.2 fun hs => ?_
    rcases Store.containsGroup_updateGroup hstore hs with rfl | hs
    · exact hn rfl
    · exact Bool.eq_false_iff.1 hfree hs
  have hne {m : Bool} {n : String} (hm : m = true) (hname : n = name → m = false) : n ≠ name :=
    fun heq => Bool.eq_false_iff.1 (hname heq) hm
  refine { h with
    series := fun n hn => ?_
    groupFormulas := fun n hn => ?_
    bindings := fun n hn => ?_ }
  · change store.series.contains n = false
    rw [Store.updateGroup_series hstore]
    exact h.series n hn
  · exact hfree n (hne hn fun heq => heq ▸ hformulas) (h.groupFormulas n hn)
  · exact ⟨hfree n (hne hn fun heq => heq ▸ hbindings) (h.bindings n hn).1, (h.bindings n hn).2⟩

/-- A formula may be registered, or registered again, under a name that no series has. -/
theorem insertFormula (h : e.NamesApart) {name : String} {record : FormulaRecord}
    (hrecord : record.name = name)
    (hname : e.store.contains name = false ∨ e.formulas.contains name = true) :
    NamesApart { e with formulas := e.formulas.insert name record } :=
  { h with
    series := fun n hn => by
      rcases contains_insert.1 hn with rfl | hn
      · exact hname.elim id (h.series n)
      · exact h.series n hn
    bound := fun group binding hb => contains_insert.2 (Or.inr (h.bound group binding hb))
    formulasNamed := areNamed_insert h.formulasNamed hrecord }

theorem insertGroupFormula (h : e.NamesApart) {name : String} {record : FormulaRecord}
    (hrecord : record.name = name) (hstore : e.store.containsGroup name = false)
    (hbindings : e.bindings.contains name = false) :
    NamesApart { e with groupFormulas := e.groupFormulas.insert name record } :=
  { h with
    groupFormulas := fun n hn => by
      rcases contains_insert.1 hn with rfl | hn
      · exact hstore
      · exact h.groupFormulas n hn
    bindings := fun n hn => by
      refine ⟨(h.bindings n hn).1, Bool.eq_false_iff.2 fun hg => ?_⟩
      rcases contains_insert.1 hg with rfl | hg
      · exact Bool.eq_false_iff.1 hbindings hn
      · exact Bool.eq_false_iff.1 (h.bindings n hn).2 hg
    groupsNamed := areNamed_insert h.groupsNamed hrecord }

theorem insertBinding (h : e.NamesApart) {group : String} {binding : Binding}
    (hformula : e.formulas.contains binding.formula = true)
    (hstore : e.store.containsGroup group = false)
    (hformulas : e.groupFormulas.contains group = false) :
    NamesApart { e with bindings := e.bindings.insert group binding } :=
  { h with
    bindings := fun n hn => by
      rcases contains_insert.1 hn with rfl | hn
      · exact ⟨hstore, hformulas⟩
      · exact h.bindings n hn
    bound := fun n b hb => by
      rcases OrderedMap.mem_insertEntry hb with ⟨-, rfl⟩ | hb
      · exact hformula
      · exact h.bound n b hb }

section

variable {old new : String} {read readGroups : List ReadRecord} {store : Store}
  {moved : OrderedMap String FormulaRecord}

/-- Where the formulas are after a renaming. -/
theorem formulas_renamed (hr : e.Renames old new read readGroups store moved) :
    (e.store.contains old = true ∧ e.store.rename old new = .ok store ∧
        ∀ n, moved.contains n = true ↔ e.formulas.contains n = true) ∨
      (store = e.store ∧ ∀ n, moved.contains n = true ↔
        n = new ∨ n ≠ old ∧ e.formulas.contains n = true) := by
  rcases moveSeries_cases hr.moves with ⟨hold, hstore, rfl⟩ | ⟨hold, hstore, rfl⟩
  · exact Or.inl ⟨hold, hstore, fun _ => Iff.rfl⟩
  · have hformula := hr.known.resolve_left (Bool.eq_false_iff.1 hold)
    exact Or.inr ⟨hstore, fun _ => contains_moveRecord hformula⟩

theorem series_renamed (h : e.NamesApart) (hr : e.Renames old new read readGroups store moved)
    {n : String} (hn : moved.contains n = true) : store.contains n = false := by
  rcases formulas_renamed hr with ⟨-, hstore, hmoved⟩ | ⟨rfl, hmoved⟩
  · have hn := (hmoved n).1 hn
    rw [Bool.eq_false_iff, Ne, Store.contains_rename hstore]
    rintro (rfl | ⟨-, hs⟩)
    · exact Bool.eq_false_iff.1 hr.formulasFree hn
    · exact Bool.eq_false_iff.1 (h.series n hn) hs
  · rcases (hmoved n).1 hn with rfl | ⟨-, hn⟩
    · exact hr.storeFree
    · exact h.series n hn

theorem bound_renamed (h : e.NamesApart) (hr : e.Renames old new read readGroups store moved)
    {b : Binding} (hb : e.formulas.contains b.formula = true) :
    moved.contains (renameInBinding old new b).formula = true := by
  unfold renameInBinding
  dsimp only
  rcases formulas_renamed hr with ⟨hold, -, hmoved⟩ | ⟨-, hmoved⟩
  · rw [hmoved]
    split
    · rename_i heq
      subst heq
      exact absurd hold (Bool.eq_false_iff.1 (h.series _ hb))
    · exact hb
  · rw [hmoved]
    split
    · exact Or.inl rfl
    · rename_i hne
      exact Or.inr ⟨hne, hb⟩

theorem rename (h : e.NamesApart) (hr : e.Renames old new read readGroups store moved) :
    NamesApart { e with
      store := store
      formulas := renameReferences old new read moved
      groupFormulas := renameReferences old new readGroups e.groupFormulas
      bindings := e.bindings.mapValues fun _ => renameInBinding old new } := by
  have hgroups (n : String) : store.containsGroup n = e.store.containsGroup n := by
    rcases moveSeries_cases hr.moves with ⟨-, hstore, -⟩ | ⟨-, rfl, -⟩
    · exact congrArg (OrderedMap.contains · n) (Store.rename_groups hstore)
    · rfl
  refine ⟨fun n hn => ?_, fun n hn => ?_, fun n hn => ?_, fun group b hb => ?_, ?_,
    areNamed_renameReferences old new readGroups h.groupsNamed⟩
  · exact h.series_renamed hr ((contains_renameReferences old new read n moved).symm.trans hn)
  · dsimp only at hn
    rw [contains_renameReferences] at hn
    exact (hgroups n).trans (h.groupFormulas n hn)
  · rw [OrderedMap.contains_iff, OrderedMap.keys_mapValues, ← OrderedMap.contains_iff] at hn
    obtain ⟨hstore, hformulas⟩ := h.bindings n hn
    refine ⟨(hgroups n).trans hstore, ?_⟩
    dsimp only
    rw [contains_renameReferences]
    exact hformulas
  · obtain ⟨⟨group', binding⟩, hmem, heq⟩ := List.mem_map.1 hb
    obtain ⟨rfl, rfl⟩ := Prod.mk.inj heq
    dsimp only
    rw [contains_renameReferences]
    exact h.bound_renamed hr (h.bound group' binding hmem)
  · refine areNamed_renameReferences old new read ?_
    rcases moveSeries_cases hr.moves with ⟨-, -, rfl⟩ | ⟨-, -, rfl⟩
    · exact h.formulasNamed
    · exact areNamed_moveRecord h.formulasNamed old new

end

/-- Deleting a formula deletes its bindings. -/
theorem deleteFormula (h : e.NamesApart) (name : String) :
    NamesApart { e with
      formulas := e.formulas.erase name
      bindings := e.bindings.filter fun _ b => b.formula ≠ name } := by
  refine { h with
    series := fun n hn => h.series n (contains_erase.1 hn).2
    bindings := fun n hn => h.bindings n ?_
    bound := fun n b hb => ?_
    formulasNamed := areNamed_erase h.formulasNamed name }
  · rw [OrderedMap.contains_iff] at hn ⊢
    exact List.Sublist.subset (List.Sublist.map _ List.filter_sublist) hn
  · obtain ⟨hmem, hne⟩ := List.mem_filter.1 hb
    exact contains_erase.2 ⟨of_decide_eq_true hne, h.bound n b hmem⟩

theorem deleteBinding (h : e.NamesApart) (name : String) :
    NamesApart { e with bindings := e.bindings.erase name } :=
  { h with
    bindings := fun n hn => h.bindings n (contains_erase.1 hn).2
    bound := fun n b hb => h.bound n b (List.mem_filter.1 hb).1 }

theorem deleteGroupFormula (h : e.NamesApart) (name : String) :
    NamesApart { e with groupFormulas := e.groupFormulas.erase name } :=
  { h with
    groupFormulas := fun n hn => h.groupFormulas n (contains_erase.1 hn).2
    bindings := fun n hn => ⟨(h.bindings n hn).1, Bool.eq_false_iff.2 fun hg =>
      Bool.eq_false_iff.1 (h.bindings n hn).2 (contains_erase.1 hg).2⟩
    groupsNamed := areNamed_erase h.groupsNamed name }

/-- **Effects keep names apart.** -/
theorem effect (h : e.NamesApart) {c : Call} (heffect : e.Effect c e') : e'.NamesApart := by
  cases heffect with
  | updateSeries hname hstore => exact h.updateSeries hname hstore
  | updateGroup hformulas hbindings hstore => exact h.updateGroup hformulas hbindings hstore
  | updateMetadata hrecord _ =>
    have hmem := OrderedMap.mem_of_find? hrecord
    have hname := h.formulasNamed _ _ hmem
    exact h.insertFormula hname (Or.inr (contains_of_mem hmem))
  | registerFormula _ hstore _ => exact h.insertFormula rfl (Or.inl hstore)
  | registerGroupFormula _ hstore hbindings _ => exact h.insertGroupFormula rfl hstore hbindings
  | bind _ hbuilds hformula hstore hformulas =>
    exact h.insertBinding ((ok_of_builds hbuilds).1 ▸ hformula) hstore hformulas
  | renameSame => exact h
  | rename hr => exact h.rename hr
  | deleteFormula _ => exact h.deleteFormula _
  | deleteSeries _ hstore =>
    exact h.of_fewer (fun _ => Store.contains_delete hstore) fun n hn =>
      (congrArg (OrderedMap.contains · n) (Store.delete_groups hstore)).symm.trans hn
  | deleteBinding _ => exact h.deleteBinding _
  | deleteGroupFormula _ => exact h.deleteGroupFormula _
  | deleteGroup hstore =>
    exact h.of_fewer (fun n hn =>
      (congrArg (OrderedMap.contains · n) (Store.deleteGroup_series hstore)).symm.trans hn)
      fun _ => Store.containsGroup_deleteGroup hstore

end NamesApart

/-! ### Engines that are reached -/

/-- **Names never overlap**, whatever store an engine was made over and whatever was asked of it. -/
theorem namesApart_of_reaches {store : Store} {config : Config} {registry : Registry}
    {e e' : Engine} (he : create store config registry = .ok e)
    (h : Reaches (fun _ _ => True) e e') : e'.NamesApart :=
  h.invariant (fun _ records h => h.noteAll records) (fun _ source h => h.addSource source)
    (fun _ _ _ _ heffect h => h.effect heffect) (namesApart_create he)

/-! ### A bound formula -/

/-- The calls that store a series, register a formula of it and bind that by two rows, of which one
is for a series that nothing refers to. -/
def bindingCalls : List Call :=
  [.updateSeries "a" (.ofPoints "a" [(dayOf2024 0, 1.0)]) (dayOf2024 0) false,
    .registerFormula "f" "(series \"a\")" ⟨none, false⟩,
    .registerBinding "g" "f" [⟨"a", "low", "case"⟩, ⟨"z", "high", "case"⟩]]

/-- The engine after these calls. -/
def boundByTwo : Engine := (overNothing .initial).performAll bindingCalls

theorem namesApart_boundByTwo :
    Reaches (fun _ _ => True) (overNothing .initial) boundByTwo ∧ boundByTwo.NamesApart := by
  have hreaches : Reaches (fun _ _ => True) (overNothing .initial) boundByTwo :=
    Reaches.refl.performAll bindingCalls fun _ _ _ => trivial
  exact ⟨hreaches, namesApart_of_reaches (create_overNothing rfl) hreaches⟩

end Engine

end SeriesAlgebra
