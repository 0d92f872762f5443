import SeriesAlgebra.Proofs.Engine.StaleReferences
import SeriesAlgebra.Proofs.Formula.Awareness
import SeriesAlgebra.Proofs.Metadata

/-!
# Awareness over calls

When a formula is registered, the series that it refers to are all aware of time zones or all
naive, as far as that is known, and its metadata say so. Nothing looks at it again when these
series change. So metadata stay right as long as no call gives a series another awareness
than that of the formulas that take theirs from it, and exactly such a call ends that
(`Engine.awarenessAgrees_of_reaches`). Formulas that see the series as naive anyway do not
matter here, nor do names that are not known yet, until they are.

A formula may be registered again over a series of the other kind though a second formula takes
its awareness from it, which then mixes the two (`Engine.not_awarenessAgrees_mixed`).
-/

namespace SeriesAlgebra

namespace Engine

open SeriesAlgebra.Tree

variable {e e' : Engine} {c : Call} {name : String} {t : Tree} {own : Option Bool}

/-- The metadata of a formula tell the awareness that was found, and that it is naive if none
was. -/
theorem aware?_newRecord (name : String) (t : Tree) (aware : Option Bool)
    (previous : Option FormulaRecord) :
    (newRecord name t aware previous).metadata.aware? = some (aware.getD false) :=
  Metadata.aware?_withPreserved _ _

/-! ### Formulas and what they take their awareness from -/

/-- Whether a map holds a formula whose metadata tell a given awareness. -/
def HoldsFormula (records : OrderedMap String FormulaRecord) (name : String) (t : Tree)
    (own : Option Bool) : Prop :=
  ∃ record, records.find? name = some record ∧ Tree.parse record.text = .ok t ∧
    record.metadata.aware? = own

/-- Whether something is registered as a formula or group formula, with metadata that tell a given
awareness. -/
def IsRegistered (e : Engine) (t : Tree) (own : Option Bool) : Prop :=
  ∃ name, HoldsFormula e.formulas name t own ∨ HoldsFormula e.groupFormulas name t own

/-- **Whether the references of all formulas are aware or naive as one**, as far as that is known, and
as the metadata of the formula tell. -/
def AwarenessAgrees (e : Engine) : Prop :=
  ∀ name record, e.formulas.find? name = some record ∨ e.groupFormulas.find? name = some record →
    ∃ t common, Tree.parse record.text = .ok t ∧
      commonAwareness t.text (e.awarenessOf t) = .ok common ∧
      ∀ aware, common = some aware → record.metadata.aware? = some aware

/-- **Whether a call keeps awareness**: what awareness it gives to a series is that of all formulas
that take theirs from it. -/
def KeepsAwareness (e : Engine) (c : Call) : Prop :=
  ∀ name aware, (e.perform c).engine.aware? name = some aware → e.aware? name ≠ some aware →
    ∀ t own, e.IsRegistered t own → name ∈ t.unforcedReferences e.registry → own = some aware

/-- Whether all formulas agree with their metadata. -/
def AllAgree (e : Engine) : Prop :=
  ∀ t own, e.IsRegistered t own → t.Agrees e.registry e.aware? own

theorem awarenessAgrees_iff (hkeeps : e.KeepsCanonical) : e.AwarenessAgrees ↔ e.AllAgree := by
  constructor
  · rintro h t _ ⟨name, hheld⟩
    obtain ⟨record, hrecord, ht, rfl⟩ : ∃ record,
        (e.formulas.find? name = some record ∨ e.groupFormulas.find? name = some record) ∧
          Tree.parse record.text = .ok t ∧ record.metadata.aware? = _ := by
      rcases hheld with ⟨record, hrecord, ht⟩ | ⟨record, hrecord, ht⟩
      · exact ⟨record, Or.inl hrecord, ht⟩
      · exact ⟨record, Or.inr hrecord, ht⟩
    obtain ⟨u, common, hu, hcommon⟩ := h name record hrecord
    obtain rfl := Except.ok.inj (hu.symm.trans ht)
    exact exists_commonAwareness_iff.1 ⟨common, hcommon⟩
  · intro h name record hrecord
    obtain ⟨t, ht, -⟩ : ∃ t, Tree.parse record.text = .ok t ∧ t.canonical = t :=
      hrecord.elim (fun hfind => (hkeeps.formulas.records name record hfind).tree)
        fun hfind => (hkeeps.groups.records name record hfind).tree
    have hregistered : e.IsRegistered t record.metadata.aware? :=
      ⟨name, hrecord.imp (fun hfind => ⟨record, hfind, ht, rfl⟩) fun hfind => ⟨record, hfind, ht, rfl⟩⟩
    obtain ⟨common, hcommon⟩ := exists_commonAwareness_iff.2 (h t _ hregistered)
    exact ⟨t, common, ht, hcommon⟩

/-- What is held is read from a text, so all its lists are calls. -/
theorem HoldsFormula.isHeaded {records : OrderedMap String FormulaRecord}
    (h : HoldsFormula records name t own) : t.Everywhere fun u => u.isHeadedNode = true := by
  obtain ⟨record, -, ht, -⟩ := h
  exact (isReadable_of_parse ht).nodes.mono fun _ => isHeadedNode_of_isReadable

theorem HoldsFormula.treeOf? {records : OrderedMap String FormulaRecord}
    (h : HoldsFormula records name t own) : treeOf? (records.find? name) = .ok (some t) := by
  obtain ⟨record, hrecord, ht, -⟩ := h
  rw [hrecord, treeOf?_some, ht]
  rfl

theorem holdsFormula_insert_of_ne {records : OrderedMap String FormulaRecord} {other : String}
    (h : other ≠ name) (record : FormulaRecord) :
    HoldsFormula (records.insert name record) other t own ↔ HoldsFormula records other t own := by
  rw [HoldsFormula, OrderedMap.find?_insert_of_ne _ h]
  rfl

theorem HoldsFormula.of_erase {records : OrderedMap String FormulaRecord} {other : String}
    (h : HoldsFormula (records.erase name) other t own) : HoldsFormula records other t own := by
  obtain ⟨record, hrecord, ht⟩ := h
  exact ⟨record, OrderedMap.find?_of_erase hrecord, ht⟩

/-- Whether a series is aware, as its formula tells or else as it is stored. -/
theorem aware?_eq (hsources : e.sources = []) (name : String) : e.aware? name =
    (((e.formulas.find? name).map FormulaRecord.metadata).map Metadata.aware?).getD
      (e.store.aware? name) := by
  unfold aware? sourceOf?
  rw [hsources]
  cases e.formulas.find? name with
  | some record => rfl
  | none => cases e.store.aware? name <;> rfl

/-! ### What calls do to formulas -/

/-- **Whether formulas stay**, but for new ones, which agree with their metadata, and for those that
take their awareness from no series that gets another one. -/
structure Retains (e e' : Engine) : Prop where
  back : ∀ t own, e'.IsRegistered t own → t.Agrees e'.registry e'.aware? own ∨ e.IsRegistered t own
  forth : ∀ t own, e.IsRegistered t own → ∀ name ∈ t.unforcedReferences e.registry,
    ∀ aware, e'.aware? name = some aware → e.aware? name ≠ some aware → e'.IsRegistered t own

/-- **When formulas that stay agree with their metadata**: they do if the awareness that series get is
that of the formulas which take theirs from them. -/
theorem AllAgree.iff_of_retains (h : e.AllAgree) (hregistry : e'.registry = e.registry)
    (hretains : e.Retains e') : e'.AllAgree ↔
      ∀ name aware, e'.aware? name = some aware → e.aware? name ≠ some aware →
        ∀ t own, e.IsRegistered t own → name ∈ t.unforcedReferences e.registry → own = some aware := by
  constructor
  · intro h' name aware haware hother t own ht hname
    have hagrees := h' t own (hretains.forth t own ht name hname aware haware hother)
    rw [hregistry] at hagrees
    exact (agrees_iff.1 hagrees).2 name hname aware haware
  · intro hkeeps t own ht
    rcases hretains.back t own ht with hagrees | ht
    · exact hagrees
    · obtain ⟨hforced, hunforced⟩ := agrees_iff.1 (h t own ht)
      rw [hregistry]
      refine agrees_iff.2 ⟨hforced, fun name hname aware haware => ?_⟩
      by_cases hsame : e.aware? name = some aware
      · exact hunforced name hname aware hsame
      · exact hkeeps name aware haware hsame t own ht hname

/-! ### Registering -/

/-- The awareness that is found when the checks of a formula succeed. -/
theorem commonAwareness_of_validate {expected : TypeTag} {options : RegisterOptions}
    {aware : Option Bool} (h : (e.validate name t expected options).answer = .ok aware) :
    commonAwareness t.text (e.awarenessOf t) = .ok aware := by
  unfold validate at h
  dsimp only at h
  split at h
  · cases h
  · split at h
    · cases h
    · cases hreferences : e.checkReferences t options with
      | error cause =>
        rw [hreferences] at h
        cases h
      | ok found =>
        rw [hreferences] at h
        obtain rfl := Except.ok.inj h
        unfold checkReferences at hreferences
        dsimp only at hreferences
        split at hreferences
        · cases hreferences
        · exact Result.mapError_ok hreferences

/-- **What is registered agrees with its metadata.** -/
theorem agrees_of_validate (hregistry : e.registry.NamesByLeaves) {text : String}
    (ht : Tree.parse text = .ok t) {expected : TypeTag} {options : RegisterOptions}
    {aware : Option Bool} (h : (e.validate name t expected options).answer = .ok aware) :
    t.canonical.Agrees e.registry e.aware? (some (aware.getD false)) := by
  rw [Agrees, awareness_canonical hregistry (isReadable_of_parse ht).nodes]
  refine exists_commonAwareness_iff.1 ⟨aware, commonAwareness_of_validate h, fun a ha => ?_⟩
  rw [ha, Option.getD_some]

/-- What is held after a formula is registered. -/
theorem holdsFormula_registered {records : OrderedMap String FormulaRecord} {text other : String}
    {u : Tree} (ht : Tree.parse text = .ok t) {aware : Option Bool}
    {previous : Option FormulaRecord}
    (h : HoldsFormula (records.insert name (newRecord name t aware previous)) other u own) :
    other = name ∧ u = t.canonical ∧ own = some (aware.getD false) ∨
      HoldsFormula records other u own := by
  obtain ⟨record, hrecord, hu, rfl⟩ := h
  rcases OrderedMap.find?_of_insert hrecord with ⟨rfl, rfl⟩ | hrecord
  · have htext := parse_text_of_parse ht
    exact Or.inl ⟨rfl, Except.ok.inj (hu.symm.trans htext), aware?_newRecord _ _ _ _⟩
  · exact Or.inr ⟨record, hrecord, hu, rfl⟩

/-! ### Renaming -/

theorem metadata_renameReferences (old new : String) (read : List ReadRecord) (name : String) :
    ∀ (records : OrderedMap String FormulaRecord),
      ((renameReferences old new read records).find? name).map FormulaRecord.metadata =
        (records.find? name).map FormulaRecord.metadata := by
  unfold renameReferences
  induction read.filter (·.references.contains old) with
  | nil => exact fun _ => rfl
  | cons r rest ih =>
    intro records
    rw [List.foldl_cons, ih, OrderedMap.find?_modify, Option.map_map]
    refine congrArg (Option.map · _) (funext fun record => ?_)
    rw [Function.comp_apply]
    split <;> rfl

section

variable {old new : String} {read readGroups : List ReadRecord} {store : Store}
  {moved : OrderedMap String FormulaRecord}

/-- A formula takes its metadata along. -/
theorem Renames.metadata (hr : e.Renames old new read readGroups store moved)
    (hnames : e.NamesApart) (hname : name ≠ new) :
    ((renameReferences old new read moved).find? (renamed old new name)).map FormulaRecord.metadata =
      (e.formulas.find? name).map FormulaRecord.metadata := by
  rw [metadata_renameReferences]
  rcases moveSeries_cases hr.moves with ⟨hstored, -, rfl⟩ | ⟨hstored, -, rfl⟩
  · by_cases hold : name = old
    · subst hold
      -- What is stored has no formula.
      have hnone : e.formulas.find? name = none := OrderedMap.contains_eq_false_iff.1 <|
        Bool.eq_false_iff.2 fun h => Bool.eq_false_iff.1 (hnames.series name h) hstored
      rw [renamed_old, hnone, OrderedMap.contains_eq_false_iff.1 hr.formulasFree]
    · rw [renamed_of_ne hold]
  · obtain ⟨record, hrecord⟩ := Option.isSome_iff_exists.1
      (hr.known.resolve_left (Bool.eq_false_iff.1 hstored))
    rw [moveRecord_eq hrecord]
    by_cases hold : name = old
    · subst hold
      rw [renamed_old, OrderedMap.find?_insert_self, hrecord]
      rfl
    · rw [renamed_of_ne hold, OrderedMap.find?_insert_of_ne _ hname,
        OrderedMap.find?_erase_of_ne _ hold]

/-- A stored series takes its awareness along. -/
theorem Renames.aware?_store (hr : e.Renames old new read readGroups store moved)
    (hname : name ≠ new) (hfree : e.formulas.find? name = none) :
    store.aware? (renamed old new name) = e.store.aware? name := by
  rcases moveSeries_cases hr.moves with ⟨-, hstore, -⟩ | ⟨hstored, rfl, -⟩
  · obtain ⟨-, stored, hfind, rfl⟩ := Store.rename_ok hstore
    unfold Store.aware? Store.withStored Store.without
    by_cases hold : name = old
    · subst hold
      rw [renamed_old, OrderedMap.find?_insert_self, hfind]
      rfl
    · rw [renamed_of_ne hold, OrderedMap.find?_insert_of_ne _ hname,
        OrderedMap.find?_erase_of_ne _ hold]
  · have hold : name ≠ old := by
      rintro rfl
      have hformula := hr.known.resolve_left (Bool.eq_false_iff.1 hstored)
      rw [OrderedMap.contains, hfree] at hformula
      cases hformula
    rw [renamed_of_ne hold]

/-- **Series are as aware after a renaming as they were before**, and nothing is of the old name. -/
theorem Renames.aware? (hr : e.Renames old new read readGroups store moved)
    (hkeeps : e.KeepsCanonical) (hsources : e.sources = []) (hsources' : e'.sources = [])
    (hformulas : e'.formulas = renameReferences old new read moved) (hstore : e'.store = store) :
    (∀ name, name ≠ new → e'.aware? (renamed old new name) = e.aware? name) ∧
      e'.aware? old = none := by
  constructor
  · intro name hname
    rw [aware?_eq hsources', aware?_eq hsources, hformulas, hr.metadata hkeeps.names hname, hstore]
    cases hfind : e.formulas.find? name with
    | none => exact hr.aware?_store hname hfind
    | some record => rfl
  · have hnone : e'.formulas.find? old = none := by
      rw [hformulas]
      exact (formulaTree?_renamed canBeKept_canonical hkeeps.formulas hkeeps.names hr).2
    rw [aware?_eq hsources', hnone, hstore]
    change store.aware? old = none
    rcases moveSeries_cases hr.moves with ⟨-, hrenamed, -⟩ | ⟨hstored, rfl, -⟩
    · obtain ⟨-, stored, -, rfl⟩ := Store.rename_ok hrenamed
      unfold Store.aware? Store.withStored Store.without
      rw [OrderedMap.find?_insert_of_ne _ hr.differ, OrderedMap.find?_erase_self]
      rfl
    · unfold Store.aware?
      rw [OrderedMap.contains_eq_false_iff.1 hstored]
      rfl

/-- What a formula agrees with that refers to neither name. -/
theorem agrees_unreferenced (haware : ∀ name, name ≠ new → e'.aware? (renamed old new name) = e.aware? name)
    (hheaded : t.Everywhere fun u => u.isHeadedNode = true)
    (hnew : new ∉ t.seriesReferences e.registry) (hold : old ∉ t.seriesReferences e.registry)
    (h : t.Agrees e.registry e.aware? own) : t.Agrees e.registry e'.aware? own := by
  refine h.congr fun name hname => ?_
  have hmem := mem_seriesReferences_of_unforced hheaded hname
  have hsame := haware name fun heq => hnew (heq ▸ hmem)
  have hne : name ≠ old := fun heq => hold (heq ▸ hmem)
  rwa [renamed_of_ne hne] at hsame

/-- A formula in which a reference has a new name agrees with what it did before. -/
theorem agrees_redirected (hregistry : e.registry.NamesByLeaves)
    (haware : ∀ name, name ≠ new → e'.aware? (renamed old new name) = e.aware? name)
    (hheaded : t.Everywhere fun u => u.isHeadedNode = true)
    (hnew : new ∉ t.seriesReferences e.registry) (h : t.Agrees e.registry e.aware? own) :
    (redirected e.registry old new t).Agrees e.registry e'.aware? own := by
  unfold redirected
  split
  · refine (agrees_renameSeries fun u _ => hregistry.isFollowed old new u).2 (h.congr fun name hname => ?_)
    have hmem := mem_seriesReferences_of_unforced hheaded hname
    exact haware name fun heq => hnew (heq ▸ hmem)
  · rename_i hold
    exact agrees_unreferenced haware hheaded hnew hold h

/-- Where a formula comes from that is held after a renaming. -/
theorem Renames.holdsFormula (hr : e.Renames old new read readGroups store moved)
    (hkeeps : e.KeepsCanonical) {asked : String} {u : Tree}
    (h : HoldsFormula (renameReferences old new read moved) asked u own) :
    ∃ name t, HoldsFormula e.formulas name t own ∧ u = e.rewritten old new name t := by
  obtain ⟨name, t, hname, rfl, ht, rfl⟩ :=
    exists_of_renamed canBeKept_canonical hkeeps.formulas hkeeps.names hr h.treeOf?
  obtain ⟨record, hrecord, hparse⟩ := formulaTree?_some ht
  obtain ⟨record', hrecord', -, rfl⟩ := h
  have hmetadata := hr.metadata hkeeps.names hname
  rw [hrecord, hrecord'] at hmetadata
  exact ⟨name, t, ⟨record, hrecord, hparse, congrArg Metadata.aware? (Option.some.inj hmetadata).symm⟩,
    rfl⟩

/-- Where a group formula comes from that is held after a renaming. -/
theorem Renames.holdsGroupFormula (hr : e.Renames old new read readGroups store moved)
    (hkeeps : e.KeepsCanonical) {u : Tree}
    (h : HoldsFormula (renameReferences old new readGroups e.groupFormulas) name u own) :
    ∃ t, HoldsFormula e.groupFormulas name t own ∧ u = redirected e.registry old new t := by
  have htree := h.treeOf?
  rw [treeOf?_renameReferences canBeKept_canonical hkeeps.groups hr.readsGroups rfl] at htree
  obtain ⟨found, hfound, hmap⟩ := Result.map_ok htree
  obtain ⟨t, rfl, rfl⟩ := Option.map_eq_some_iff.1 hmap
  obtain ⟨record', hrecord', -, rfl⟩ := h
  have hmetadata := metadata_renameReferences old new readGroups name e.groupFormulas
  cases hrecord : e.groupFormulas.find? name with
  | none =>
    rw [hrecord] at hfound
    cases hfound
  | some record =>
    rw [hrecord, hrecord'] at hmetadata
    rw [hrecord, treeOf?_some] at hfound
    obtain ⟨_, hparse, heq⟩ := Result.map_ok hfound
    obtain rfl := Option.some.inj heq
    exact ⟨_, ⟨record, hrecord, hparse, congrArg Metadata.aware? (Option.some.inj hmetadata).symm⟩, rfl⟩

/-- A renaming leaves it to all formulas what they agree with. -/
theorem Renames.retains (hr : e.Renames old new read readGroups store moved) (h : e.AllAgree)
    (hkeeps : e.KeepsCanonical) (hregistry : e.registry.NamesByLeaves)
    (hself : e.NoneMentionsItself) (hsources : e.sources = []) (hsources' : e'.sources = [])
    (hsame : e'.registry = e.registry) (hstore : e'.store = store)
    (hformulas : e'.formulas = renameReferences old new read moved)
    (hgroups : e'.groupFormulas = renameReferences old new readGroups e.groupFormulas) :
    e.Retains e' := by
  obtain ⟨haware, hgone⟩ := hr.aware? hkeeps hsources hsources' hformulas hstore
  have hnew {name : String} {t : Tree} (ht : e.formulaTree? name = .ok (some t)) :=
    hr.not_mem_seriesReferences hkeeps.formulas ht
  have hnewGroup {name : String} {t : Tree}
      (ht : Engine.treeOf? (e.groupFormulas.find? name) = .ok (some t)) :
      new ∉ t.seriesReferences e.registry :=
    not_mem_seriesReferences_of_read hkeeps.groups hr.readsGroups
      (fun r hmem => hr.unreferenced r (List.mem_append_right _ hmem)) ht
  constructor
  · -- Any formula may have another text now, so all are compared with what they were.
    rintro u own ⟨asked, hafter⟩
    refine Or.inl ?_
    rw [hsame]
    rw [hformulas, hgroups] at hafter
    rcases hafter with hafter | hafter
    · obtain ⟨name, t, hheld, rfl⟩ := hr.holdsFormula hkeeps hafter
      have hagrees := h t own ⟨name, Or.inl hheld⟩
      by_cases hold : name = old
      · subst hold
        rw [rewritten_old]
        exact agrees_unreferenced haware hheld.isHeaded (hnew hheld.treeOf?)
          (fun hmem => hself name ⟨t, hheld.treeOf?, hmem⟩) hagrees
      · rw [rewritten_of_ne hold]
        exact agrees_redirected hregistry haware hheld.isHeaded (hnew hheld.treeOf?) hagrees
    · obtain ⟨t, hheld, rfl⟩ := hr.holdsGroupFormula hkeeps hafter
      exact agrees_redirected hregistry haware hheld.isHeaded (hnewGroup hheld.treeOf?)
        (h t own ⟨asked, Or.inr hheld⟩)
  · -- What a formula refers to has the awareness that it had, or it is gone.
    rintro t own ⟨asked, hheld⟩ name hname aware hafter hbefore
    have hne : name ≠ new := by
      rintro rfl
      rcases hheld with hheld | hheld
      · exact hnew hheld.treeOf? (mem_seriesReferences_of_unforced hheld.isHeaded hname)
      · exact hnewGroup hheld.treeOf? (mem_seriesReferences_of_unforced hheld.isHeaded hname)
    by_cases hold : name = old
    · subst hold
      cases hgone.symm.trans hafter
    · rw [← renamed_of_ne hold new, haware name hne] at hafter
      exact absurd hafter hbefore

end

/-! ### Calls -/

/-- Formulas stay as far as it matters if no new one is registered and no series gets an awareness
that it did not have. -/
theorem retains_of_fewer
    (hback : ∀ t own, e'.IsRegistered t own → e.IsRegistered t own)
    (haware : ∀ name aware, e'.aware? name = some aware → e.aware? name = some aware) :
    e.Retains e' :=
  ⟨fun t own ht => Or.inr (hback t own ht), fun _ _ _ name _ aware hafter hbefore =>
    absurd (haware name aware hafter) hbefore⟩

/-- Formulas stay if they are the same. -/
theorem retains_of_eq (hformulas : e'.formulas = e.formulas)
    (hgroups : e'.groupFormulas = e.groupFormulas) : e.Retains e' := by
  have hsame (t : Tree) (own : Option Bool) : e'.IsRegistered t own ↔ e.IsRegistered t own := by
    rw [IsRegistered, hformulas, hgroups]
    rfl
  exact ⟨fun t own ht => Or.inr ((hsame t own).1 ht), fun t own ht _ _ _ _ _ => (hsame t own).2 ht⟩

/-- A formula that is registered does not refer to itself, so that all others stay. -/
theorem retains_registered (hregistry : e.registry.NamesByLeaves) (hself : e.NoneMentionsItself)
    (hsources : e.sources = []) {text : String} (ht : Tree.parse text = .ok t) {aware : Option Bool}
    {options : RegisterOptions} (hanswer : (e.validate name t .series options).answer = .ok aware)
    (previous : Option FormulaRecord) :
    e.Retains { e with formulas := e.formulas.insert name (newRecord name t aware previous) } := by
  have haware (n : String) (hn : n ≠ name) :
      Engine.aware? { e with formulas := e.formulas.insert name (newRecord name t aware previous) } n =
        e.aware? n := by
    rw [aware?_eq hsources, aware?_eq (by exact hsources), OrderedMap.find?_insert_of_ne _ hn]
  constructor
  · rintro u own ⟨other, hheld | hheld⟩
    · rcases holdsFormula_registered ht hheld with ⟨rfl, rfl, rfl⟩ | hheld'
      · refine Or.inl ((agrees_of_validate hregistry ht hanswer).congr fun n hn => haware n ?_)
        rintro rfl
        exact hself.registered hregistry ht hanswer previous n
          ⟨_, hheld.treeOf?, mem_seriesReferences_of_unforced hheld.isHeaded hn⟩
      · exact Or.inr ⟨other, Or.inl hheld'⟩
    · exact Or.inr ⟨other, Or.inr hheld⟩
  · rintro u own ⟨other, hheld | hheld⟩ n hn a hafter hbefore
    · -- The one formula that may be gone is the one before, which does not refer to itself.
      have hn' : n = name := by_contra fun hne => hbefore ((haware n hne).symm.trans hafter)
      subst hn'
      have hother : other ≠ n := by
        rintro rfl
        exact hself other ⟨u, hheld.treeOf?, mem_seriesReferences_of_unforced hheld.isHeaded hn⟩
      exact ⟨other, Or.inl ((holdsFormula_insert_of_ne hother _).2 hheld)⟩
    · exact ⟨other, Or.inr hheld⟩

/-- A group formula that is registered agrees with its metadata, and no series depends on it. -/
theorem retains_registeredGroup (hregistry : e.registry.NamesByLeaves) {text : String}
    (ht : Tree.parse text = .ok t) {aware : Option Bool} {options : RegisterOptions}
    (hanswer : (e.validate name t .table options).answer = .ok aware)
    (previous : Option FormulaRecord) :
    e.Retains { e with
      groupFormulas := e.groupFormulas.insert name (newRecord name t aware previous) } := by
  refine ⟨?_, fun _ _ _ _ _ _ hafter hbefore => absurd hafter hbefore⟩
  rintro u own ⟨other, hheld | hheld⟩
  · exact Or.inr ⟨other, Or.inl hheld⟩
  · rcases holdsFormula_registered ht hheld with ⟨-, rfl, rfl⟩ | hheld
    · exact Or.inl (agrees_of_validate hregistry ht hanswer)
    · exact Or.inr ⟨other, Or.inr hheld⟩

/-- The user's metadata are not about awareness. -/
theorem retains_updateMetadata (hsources : e.sources = []) {record : FormulaRecord}
    (hrecord : e.formulas.find? name = some record) {updates metadata : Metadata}
    (hmetadata : record.metadata.update updates = .ok metadata) :
    e.Retains { e with
      formulas := e.formulas.insert name { record with metadata := metadata } } := by
  have hown := Metadata.aware?_update hmetadata
  refine retains_of_fewer ?_ fun n aware hn => ?_
  · rintro t own ⟨other, hheld | hheld⟩
    · obtain ⟨found, hfound, ht, rfl⟩ := hheld
      rcases OrderedMap.find?_of_insert hfound with ⟨rfl, rfl⟩ | hfound
      · exact ⟨other, Or.inl ⟨record, hrecord, ht, hown.symm⟩⟩
      · exact ⟨other, Or.inl ⟨found, hfound, ht, rfl⟩⟩
    · exact ⟨other, Or.inr hheld⟩
  · rw [aware?_eq (by exact hsources)] at hn
    rw [aware?_eq hsources]
    by_cases hname : n = name
    · subst hname
      rw [OrderedMap.find?_insert_self] at hn
      rw [hrecord]
      exact hown.symm.trans hn
    · rwa [OrderedMap.find?_insert_of_ne _ hname] at hn

/-- Nothing is known of a formula that is deleted, as no series is stored under its name. -/
theorem retains_deleted (hnames : e.NamesApart) (hsources : e.sources = [])
    (hname : e.formulas.contains name = true) (bindings : OrderedMap String Binding) :
    e.Retains { e with formulas := e.formulas.erase name, bindings := bindings } := by
  refine retains_of_fewer ?_ fun n aware hn => ?_
  · rintro t own ⟨other, hheld⟩
    exact ⟨other, hheld.imp_left HoldsFormula.of_erase⟩
  · rw [aware?_eq (by exact hsources)] at hn
    rw [aware?_eq hsources]
    by_cases heq : n = name
    · subst heq
      rw [OrderedMap.find?_erase_self] at hn
      change e.store.aware? n = some aware at hn
      rw [Store.aware?, OrderedMap.contains_eq_false_iff.1 (hnames.series n hname)] at hn
      cases hn
    · rwa [OrderedMap.find?_erase_of_ne _ heq] at hn

/-- **Formulas stay with every call**, but for those it registers, which agree with their metadata, and
renames, which agree with what they did before. -/
theorem Effect.retains (heffect : e.Effect c e') (h : e.AllAgree) (hkeeps : e.KeepsCanonical)
    (hregistry : e.registry.NamesByLeaves) (hself : e.NoneMentionsItself) (hsources : e.sources = []) :
    e.Retains e' := by
  cases heffect with
  | updateMetadata hrecord hmetadata => exact retains_updateMetadata hsources hrecord hmetadata
  | registerFormula ht _ hanswer => exact retains_registered hregistry hself hsources ht hanswer _
  | registerGroupFormula ht _ _ hanswer => exact retains_registeredGroup hregistry ht hanswer _
  | rename hr => exact hr.retains h hkeeps hregistry hself hsources hsources rfl rfl rfl rfl
  | deleteFormula hname => exact retains_deleted hkeeps.names hsources hname _
  | deleteGroupFormula _ =>
    refine retains_of_fewer ?_ fun _ _ hn => hn
    rintro t own ⟨other, hheld⟩
    exact ⟨other, hheld.imp_right HoldsFormula.of_erase⟩
  | _ => exact retains_of_eq rfl rfl

/-- What a call does to formulas that agree with their metadata, whether it succeeds or not. -/
theorem AllAgree.perform_iff (h : e.AllAgree) (hkeeps : e.KeepsCanonical)
    (hregistry : e.registry.NamesByLeaves) (hself : e.NoneMentionsItself) (hsources : e.sources = [])
    (c : Call) : (e.perform c).engine.AllAgree ↔ e.KeepsAwareness c := by
  unfold KeepsAwareness
  rcases e.ends_perform c with ⟨records, cause, heq, -⟩ | ⟨e₁, records, heq, heffect, -⟩
  · rw [heq]
    exact iff_of_true h fun name aware hafter hbefore => absurd hafter hbefore
  · rw [heq]
    have hiff := h.iff_of_retains heffect.registry
      (heffect.retains h hkeeps hregistry hself hsources)
    exact hiff

/-! ### Runs -/

/-- **Awareness agrees as long as all calls keep it**, without other sources, and exactly a call that
does not keep it ends that. -/
theorem awarenessAgrees_of_reaches {store : Store} {config : Config}
    (he : create store config .builtin = .ok e) (h : Reaches KeepsAwareness e e')
    (hsources : e'.sources = []) :
    e'.AwarenessAgrees ∧ ∀ c, (e'.perform c).engine.AwarenessAgrees ↔ e'.KeepsAwareness c := by
  have hkept {e'' : Engine} (h : Reaches KeepsAwareness e e'') :=
    keepsCanonical_of_reaches he (h.weaken fun _ _ _ => trivial)
  have hstep {e'' : Engine} (h : Reaches KeepsAwareness e e'') (hsources : e''.sources = [])
      (hagrees : e''.AllAgree) (c : Call) :
      (e''.perform c).engine.AllAgree ↔ e''.KeepsAwareness c := by
    obtain ⟨hregistry, hkeeps, hself⟩ := hkept h
    refine hagrees.perform_iff hkeeps ?_ (hself Registry.namesByLeaves_builtin) hsources c
    rw [hregistry]
    exact Registry.namesByLeaves_builtin
  have hagrees : e'.AllAgree := by
    induction h with
    | refl =>
      obtain ⟨_, -, hcreated⟩ := Result.bind_ok he
      obtain rfl := Except.ok.inj hcreated
      rintro t own ⟨name, ⟨_, hrecord, -⟩ | ⟨_, hrecord, -⟩⟩ <;> cases hrecord
    | @perform e'' h c hc ih =>
      -- Calls leave the sources as they are.
      have hbefore : e''.sources = [] := by
        rw [← hsources]
        rcases e''.ends_perform c with ⟨records, cause, heq, -⟩ | ⟨e₁, records, heq, heffect, -⟩
        · rw [heq]
          rfl
        · rw [heq]
          exact heffect.sources.symm
      exact (hstep h hbefore (ih hbefore) c).2 hc
    | addSource _ source _ => exact absurd hsources (List.append_ne_nil_of_right_ne_nil _ nofun)
  obtain ⟨-, hkeeps, -⟩ := hkept h
  refine ⟨(awarenessAgrees_iff hkeeps).2 hagrees, fun c => ?_⟩
  rw [← hstep h hsources hagrees c]
  have hafter : (e'.perform c).engine.KeepsCanonical :=
    (keepsCanonical_of_reaches he ((h.weaken fun _ _ _ => trivial).perform c trivial)).2.1
  exact awarenessAgrees_iff hafter

/-! ### A series of two kinds -/

/-- It is enough to look at what the formulas there are take their awareness from after the call. -/
theorem keepsAwareness_of_forall
    (h : (e.formulas.entries ++ e.groupFormulas.entries).all fun entry =>
      (Tree.parse entry.2.text).toOption.all fun t => (t.unforcedReferences e.registry).all fun name =>
        ((e.perform c).engine.aware? name).all fun aware =>
          entry.2.metadata.aware? == some aware) : e.KeepsAwareness c := by
  rintro name aware hafter - t own ⟨other, hheld⟩ hname
  obtain ⟨record, hmem, ht, rfl⟩ : ∃ record,
      (other, record) ∈ e.formulas.entries ++ e.groupFormulas.entries ∧
        Tree.parse record.text = .ok t ∧ record.metadata.aware? = own := by
    rcases hheld with ⟨record, hrecord, ht⟩ | ⟨record, hrecord, ht⟩
    · exact ⟨record, List.mem_append_left _ (OrderedMap.mem_of_find? hrecord), ht⟩
    · exact ⟨record, List.mem_append_right _ (OrderedMap.mem_of_find? hrecord), ht⟩
  have hrecord := List.all_eq_true.1 h _ hmem
  rw [ht] at hrecord
  have hall := List.all_eq_true.1 hrecord name hname
  rw [hafter] at hall
  exact beq_iff_eq.1 hall

/-- An engine with an aware series and a naive one, a formula of the former, and a formula of both
this formula and the series. -/
def ofTwoKinds : Engine :=
  (overNothing .initial).performAll [
    .updateSeries "a" (.ofPoints "a" [(dayOf2024 0, 1.0)]) (dayOf2024 0) true,
    .updateSeries "b" (.ofPoints "b" [(dayOf2024 0, 2.0)]) (dayOf2024 0) false,
    .registerFormula "f" "(series \"a\")" ⟨none, false⟩,
    .registerFormula "g" "(add (series \"f\") (series \"a\"))" ⟨none, false⟩]

/-- The first formula may be registered again over the same series. -/
theorem awarenessAgrees_ofTwoKinds :
    Reaches KeepsAwareness (overNothing .initial) ofTwoKinds ∧ ofTwoKinds.sources = [] ∧
      ofTwoKinds.AwarenessAgrees ∧
      (ofTwoKinds.perform (.registerFormula "f" "(* 2 (series \"a\"))" ⟨none, true⟩)).answer =
        .ok () ∧
      (ofTwoKinds.perform (.registerFormula "f" "(* 2 (series \"a\"))"
        ⟨none, true⟩)).engine.AwarenessAgrees := by
  have hreaches : Reaches KeepsAwareness (overNothing .initial) ofTwoKinds :=
    (((Reaches.refl.perform _ (keepsAwareness_of_forall (by decide +kernel))).perform _
      (keepsAwareness_of_forall (by decide +kernel))).perform _
      (keepsAwareness_of_forall (by decide +kernel))).perform _
      (keepsAwareness_of_forall (by decide +kernel))
  have hsources : ofTwoKinds.sources = [] := List.isEmpty_iff.1 (by decide +kernel)
  obtain ⟨hagrees, hcalls⟩ := awarenessAgrees_of_reaches (create_overNothing rfl) hreaches hsources
  exact ⟨hreaches, hsources, hagrees, Result.ok_of_toOption (by decide +kernel),
    (hcalls _).2 (keepsAwareness_of_forall (by decide +kernel))⟩

/-- **A formula may be registered again over a series of the other kind**: the call succeeds, and the
second formula mixes the two. -/
theorem not_awarenessAgrees_mixed :
    ¬ ∀ (store : Store) (config : Config) (first e : Engine),
      create store config .builtin = .ok first → Reaches (fun _ _ => True) first e →
      e.sources = [] → e.AwarenessAgrees := by
  intro hall
  obtain ⟨e, hreaches, hsources, hmixed⟩ : ∃ e, Reaches (fun _ _ => True) (overNothing .initial) e ∧
      e.sources = [] ∧ ((e.formulas.find? "g").any fun record =>
        (Tree.parse record.text).toOption.all fun t =>
          (commonAwareness t.text (e.awarenessOf t)).toOption.isNone) = true := by
    refine ⟨(ofTwoKinds.perform (.registerFormula "f" "(series \"b\")" ⟨none, true⟩)).engine, ?_,
      List.isEmpty_iff.1 (by decide +kernel), by decide +kernel⟩
    exact (Reaches.refl.performAll _ fun _ _ _ => trivial).perform _ trivial
  obtain ⟨record, hrecord, hmixed⟩ := (Option.any_eq_true _ _).1 hmixed
  obtain ⟨t, common, ht, hcommon, -⟩ :=
    hall .empty .initial _ e (create_overNothing rfl) hreaches hsources "g" record (Or.inl hrecord)
  rw [ht] at hmixed
  change (commonAwareness t.text (e.awarenessOf t)).toOption.isNone = true at hmixed
  rw [hcommon] at hmixed
  cases hmixed

end Engine

end SeriesAlgebra
