import SeriesAlgebra.Proofs.Engine.StaleReferences
import SeriesAlgebra.Proofs.Formula.RoundTrip

/-!
# Texts that engines keep

The text of a record is one that was written for a formula: when the formula was registered, and
again whenever a series that it refers to was renamed, whatever the new name is. Both formulas are
read back as they are, so every text that is kept is read, and is written again as it is
(`Engine.keepsTexts_of_reaches`).

Hence a renaming finds all formulas that it has to rewrite (`Engine.KeepsTexts.rename_ne_tree`), and
an expansion that fails has closed a cycle or inlined too many formulas
(`Engine.KeepsTexts.failsOnly_expand`).
-/

namespace SeriesAlgebra

namespace Tree

/-- What is read is read back as it is once it is written. -/
theorem isReadBack_canonical {text : String} {t : Tree} (ht : parse text = .ok t) :
    t.canonical.IsReadBack :=
  ⟨(isReadable_of_parse ht).canonical, canonical_canonical t⟩

theorem IsReadBack.renameSeries {t : Tree} (h : t.IsReadBack) (old new : String) :
    (t.renameSeries old new).IsReadBack :=
  ⟨h.readable.renameSeries old new, canonical_renameSeries h.canonical old new⟩

/-- **What an expansion fails with** if all formulas can be found. -/
theorem expandBelow_error {resolve : String → Except TreeError (Option Tree)}
    (hresolve : ∀ name cause, resolve name ≠ .error cause) {stop : List String} {limit levels : Nat}
    {path : List String} {t : Tree} {cause : TreeError}
    (h : expandBelow resolve stop limit levels path t = .error cause) :
    (∃ closed, cause = .cycle closed) ∨ cause = .tooDeep limit := by
  -- A formula that is inlined is expanded one level below.
  induction levels using Nat.strong_induction_on generalizing path t with
  | _ levels ih =>
    rw [expandBelow_eq_mapLeaves] at h
    obtain ⟨name, items, -, hleaf⟩ := exists_hasLeaf_of_error h
    obtain ⟨-, ⟨-, rfl⟩ | ⟨-, ⟨-, rfl⟩ | ⟨below, rfl, hcause | ⟨s, -, hbody⟩⟩⟩⟩ :=
      expandLeafBelow_error hleaf
    · exact Or.inl ⟨_, rfl⟩
    · exact Or.inr rfl
    · exact absurd hcause (hresolve name cause)
    · exact ih below below.lt_succ_self hbody

end Tree

/-- **Whether a record has the text that is written for a formula which is read back as it is.** -/
def FormulaRecord.IsReadBack (record : FormulaRecord) : Prop :=
  ∃ t : Tree, t.IsReadBack ∧ record.text = t.text

/-- Such a text is read, and is written again as it is. -/
theorem FormulaRecord.IsReadBack.parse {record : FormulaRecord} (h : record.IsReadBack) :
    ∃ t, Tree.parse record.text = .ok t ∧ t.text = record.text := by
  obtain ⟨t, ht, htext⟩ := h
  exact ⟨t, htext ▸ ht.parse_text, htext.symm⟩

namespace Engine

open SeriesAlgebra.Tree

variable {e e' : Engine} {records : OrderedMap String FormulaRecord} {old new : String}

/-- Whether all records of a map have such texts. -/
def AreReadBack (records : OrderedMap String FormulaRecord) : Prop :=
  ∀ name record, records.find? name = some record → record.IsReadBack

namespace AreReadBack

theorem insert (h : AreReadBack records) {name : String} {record : FormulaRecord}
    (hrecord : record.IsReadBack) : AreReadBack (records.insert name record) := by
  intro n r hr
  rcases OrderedMap.find?_of_insert hr with ⟨-, rfl⟩ | hr
  · exact hrecord
  · exact h n r hr

theorem erase (h : AreReadBack records) (name : String) : AreReadBack (records.erase name) :=
  fun n r hr => h n r (OrderedMap.find?_of_erase hr)

/-- A formula that is registered is written as it is read. -/
theorem registered (h : AreReadBack records) {name text : String} {t : Tree}
    (ht : Tree.parse text = .ok t) (aware : Option Bool) (previous : Option FormulaRecord) :
    AreReadBack (records.insert name (newRecord name t aware previous)) :=
  h.insert ⟨t.canonical, isReadBack_canonical ht, (text_canonical t).symm⟩

theorem moveRecord (h : AreReadBack records) (old new : String) :
    AreReadBack (moveRecord old new records) := by
  unfold Engine.moveRecord
  split
  · rename_i record hrecord
    exact (h.erase old).insert (h old record hrecord)
  · exact h

/-- **A formula in which a series has another name is written as it is read**, whatever the name. -/
theorem renameReferences (h : AreReadBack records) {read : List ReadRecord}
    (hread : ∀ r ∈ read, r.tree.IsReadBack) :
    AreReadBack (renameReferences old new read records) := by
  intro name record' hrecord'
  obtain ⟨record, hrecord, ⟨r, hr, -, -, htext⟩ | ⟨htext, -⟩⟩ := find?_renameReferences hrecord'
  · exact ⟨_, (hread r hr).renameSeries old new, htext⟩
  · obtain ⟨t, ht, heq⟩ := h name record hrecord
    exact ⟨t, ht, htext.trans heq⟩

end AreReadBack

/-! ### Engines -/

/-- **Whether all that an engine keeps as text is read back as it is.** -/
structure KeepsTexts (e : Engine) : Prop where
  canonical : e.KeepsCanonical
  formulas : AreReadBack e.formulas
  groups : AreReadBack e.groupFormulas

namespace KeepsTexts

theorem effect (h : e.KeepsTexts) {c : Call} (heffect : e.Effect c e') : e'.KeepsTexts := by
  have hread {records : OrderedMap String FormulaRecord} {read : List ReadRecord}
      (hkept : AllKept (fun t => t.canonical = t) records) (hread : e.readRecords records = .ok read) :
      ∀ r ∈ read, r.tree.IsReadBack := fun r hr =>
    ⟨(isKept_of_readRecords hkept hread hr).1, (isKept_of_readRecords hkept hread hr).2⟩
  refine ⟨h.canonical.effect heffect, ?_, ?_⟩
  · cases heffect with
    | updateMetadata hrecord _ =>
      obtain ⟨t, ht, htext⟩ := h.formulas _ _ hrecord
      exact h.formulas.insert ⟨t, ht, htext⟩
    | registerFormula ht _ _ => exact h.formulas.registered ht _ _
    | rename hr =>
      have hread := hread h.canonical.formulas hr.reads
      rcases moveSeries_cases hr.moves with ⟨-, -, rfl⟩ | ⟨-, -, rfl⟩
      · exact h.formulas.renameReferences hread
      · exact (h.formulas.moveRecord _ _).renameReferences hread
    | deleteFormula _ => exact h.formulas.erase _
    | _ => exact h.formulas
  · cases heffect with
    | registerGroupFormula ht _ _ _ => exact h.groups.registered ht _ _
    | rename hr => exact h.groups.renameReferences (hread h.canonical.groups hr.readsGroups)
    | deleteGroupFormula _ => exact h.groups.erase _
    | _ => exact h.groups

end KeepsTexts

/-- **Engines keep texts that are read back**, over any registry, store and sources. -/
theorem keepsTexts_of_reaches {store : Store} {config : Config} {registry : Registry} {first : Engine}
    (hfirst : create store config registry = .ok first) (he : Reaches (fun _ _ => True) first e) :
    e.KeepsTexts := by
  have hcreated : first.KeepsTexts := by
    have hcanonical := keepsCanonical_create hfirst
    obtain ⟨c, -, hfirst⟩ := Result.bind_ok hfirst
    obtain rfl := Except.ok.inj hfirst
    exact ⟨hcanonical, nofun, nofun⟩
  refine he.invariant (fun e records h => ?_) (fun e source h => ?_)
    (fun _ _ _ _ heffect h => h.effect heffect) hcreated
  · exact ⟨⟨h.canonical.formulas, h.canonical.groups, h.canonical.names.noteAll records⟩, h.formulas,
      h.groups⟩
  · exact ⟨⟨h.canonical.formulas, h.canonical.groups, h.canonical.names.addSource source⟩, h.formulas,
      h.groups⟩

/-! ### Reading the texts -/

theorem AreReadBack.treeOf?_ne_error (h : AreReadBack records) (name : String) (f : TreeError) :
    treeOf? (records.find? name) ≠ .error f := by
  cases hrecord : records.find? name with
  | none => exact nofun
  | some record =>
    obtain ⟨t, ht, -⟩ := (h name record hrecord).parse
    rw [treeOf?_some, ht]
    exact nofun

theorem AllKept.readRecords_ne_error {K : Tree → Prop} (h : AllKept K records) (f : TreeError) :
    e.readRecords records ≠ .error f := by
  intro hf
  refine Result.failsOnly_mapM (P := fun _ => False) (fun record hrecord cause hcause => ?_) f hf
  obtain ⟨t, ht, -⟩ := (isKept_of_mem_values h hrecord).tree
  rw [ht] at hcause
  cases hcause

/-- **Whether an error says that formulas are nested wrongly**: their names close a cycle, or are more
than there may be. -/
def IsNestingFault (limit : Nat) (cause : EngineError) : Prop :=
  (∃ path, cause = .tree (.cycle path)) ∨ cause = .tree (.tooDeep limit)

namespace KeepsTexts

/-- **A renaming reads all texts.** -/
theorem rename_ne_tree (h : e.KeepsTexts) (old new : String) (f : TreeError) :
    (e.rename old new).answer ≠ .error (.tree f) := by
  unfold rename
  split
  · rintro ⟨⟩
  split
  · rintro ⟨⟩
  split
  · rintro ⟨⟩
  split
  · rename_i cause hcause
    exact absurd hcause (h.canonical.formulas.readRecords_ne_error cause)
  · rename_i cause _ hcause
    exact absurd hcause (h.canonical.groups.readRecords_ne_error cause)
  · split
    · unfold renameChecked
      split <;> rintro ⟨⟩
    · rintro ⟨⟩

/-- **An expansion reads all texts.** -/
theorem failsOnly_expand (h : e.KeepsTexts) (stop : List String) (t : Tree) :
    Result.FailsOnly (IsNestingFault e.config.maxDepth) (e.expand stop t) := by
  intro cause hcause
  obtain ⟨f, hf, rfl⟩ := Result.mapError_error hcause
  rcases expandBelow_error h.formulas.treeOf?_ne_error hf with ⟨path, rfl⟩ | rfl
  · exact Or.inl ⟨path, rfl⟩
  · exact Or.inr rfl

theorem failsOnly_expandedFormula (h : e.KeepsTexts) (name : String) (stop : List String) :
    Result.FailsOnly (IsNestingFault e.config.maxDepth) (e.expandedFormula name stop) := by
  refine Result.failsOnly_bind (fun cause hcause => ?_) fun found _ => ?_
  · obtain ⟨f, hf, -⟩ := Result.mapError_error hcause
    exact absurd hf (h.formulas.treeOf?_ne_error name f)
  · cases found with
    | none => exact Result.failsOnly_ok _
    | some t => exact Result.failsOnly_bind (h.failsOnly_expand stop t) fun _ _ => Result.failsOnly_ok _

end KeepsTexts

end Engine

end SeriesAlgebra
