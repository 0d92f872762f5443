import SeriesAlgebra.Proofs.Engine.Reachable
import SeriesAlgebra.Proofs.Formula.Acyclic

/-!
# Formulas after a renaming

A renaming rewrites the formulas that refer to the old name and leaves the others alone;
if the old name is that of a formula, this formula moves as it is
(`Engine.formulaTree?_renamed`). The old name has no formula afterwards.
-/

namespace SeriesAlgebra

namespace Engine

open SeriesAlgebra.Tree

/-- The formula in which references have a new name, if it has any to the old one. -/
def redirected (registry : Registry) (old new : String) (t : Tree) : Tree :=
  if old ∈ t.seriesReferences registry then t.renameSeries old new else t

/-- The formula of a name in which references have a new name. The formula that is renamed itself
is not rewritten. -/
def rewritten (e : Engine) (old new name : String) (t : Tree) : Tree :=
  if name ≠ old ∧ old ∈ t.seriesReferences e.registry then t.renameSeries old new else t

theorem rewritten_old (e : Engine) (old new : String) (t : Tree) :
    e.rewritten old new old t = t := if_neg fun h => h.1 rfl

theorem rewritten_of_ne {e : Engine} {old name : String} (h : name ≠ old) (new : String) :
    e.rewritten old new name = redirected e.registry old new :=
  funext fun _ => if_congr (and_iff_right h) rfl rfl

/-! ### Records -/

/-- What is kept under a name after references have a new name. -/
theorem find?_renameReferences {old new name : String} {read : List ReadRecord} :
    ∀ {records : OrderedMap String FormulaRecord} {record' : FormulaRecord},
      (renameReferences old new read records).find? name = some record' →
      ∃ record, records.find? name = some record ∧
        ((∃ r ∈ read, r.name = name ∧ r.references.contains old = true ∧
            record'.text = (r.tree.renameSeries old new).text) ∨
          (record'.text = record.text ∧
            ∀ r ∈ read, r.name = name → r.references.contains old = false)) := by
  unfold renameReferences
  induction read with
  | nil => exact fun h => ⟨_, h, Or.inr ⟨rfl, fun _ hr => absurd hr List.not_mem_nil⟩⟩
  | cons r rest ih =>
    intro records record' h
    rw [List.filter_cons] at h
    by_cases hrefers : r.references.contains old = true
    · rw [if_pos hrefers, List.foldl_cons] at h
      obtain ⟨record₁, hrecord₁, hcases⟩ := ih h
      rw [OrderedMap.find?_modify] at hrecord₁
      obtain ⟨record, hrecord, rfl⟩ := Option.map_eq_some_iff.1 hrecord₁
      refine ⟨record, hrecord, ?_⟩
      rcases hcases with ⟨s, hs, hsame⟩ | ⟨htext, hrest⟩
      · exact Or.inl ⟨s, List.mem_cons_of_mem _ hs, hsame⟩
      · by_cases hname : name = r.name
        · rw [if_pos hname] at htext
          exact Or.inl ⟨r, List.mem_cons_self, hname.symm, hrefers, htext⟩
        · rw [if_neg hname] at htext
          refine Or.inr ⟨htext, fun s hs hsname => ?_⟩
          rcases List.mem_cons.1 hs with rfl | hs
          · exact absurd hsname.symm hname
          · exact hrest s hs hsname
    · rw [if_neg hrefers] at h
      obtain ⟨record, hrecord, ⟨s, hs, hsame⟩ | ⟨htext, hrest⟩⟩ := ih h
      · exact ⟨record, hrecord, Or.inl ⟨s, List.mem_cons_of_mem _ hs, hsame⟩⟩
      · refine ⟨record, hrecord, Or.inr ⟨htext, fun s hs hsname => ?_⟩⟩
        rcases List.mem_cons.1 hs with rfl | hs
        · exact Bool.eq_false_iff.2 hrefers
        · exact hrest s hs hsname

theorem treeOf?_of_text {record record' : FormulaRecord} (h : record'.text = record.text) :
    treeOf? (some record') = treeOf? (some record) := by
  rw [treeOf?_some, treeOf?_some, h]

section

variable {K : Tree → Prop} {e : Engine} {old new : String} {records : OrderedMap String FormulaRecord}
  {read : List ReadRecord}

/-- What is read under a name is the formula of the name. -/
theorem treeOf?_of_mem_read (h : AllKept K records) (hread : e.readRecords records = .ok read)
    {r : ReadRecord} (hr : r ∈ read) :
    treeOf? (records.find? r.name) = .ok (some r.tree) ∧
      r.references = r.tree.seriesReferences e.registry := by
  obtain ⟨record, hrecord, hisRead⟩ := Result.exists_of_mem_right (forall₂_readRecords hread) hr
  obtain ⟨⟨name, _⟩, hmem, rfl⟩ := List.mem_map.1 hrecord
  have hfind := (OrderedMap.mem_entries_iff h.sorted).1 hmem
  refine ⟨?_, hisRead.references⟩
  rw [hisRead.name, (h.records name _ hfind).name, hfind, treeOf?_some, hisRead.tree]
  rfl

/-- All formulas are read. -/
theorem exists_mem_read (h : AllKept K records) (hread : e.readRecords records = .ok read)
    {name : String} {record : FormulaRecord} (hrecord : records.find? name = some record) :
    ∃ r ∈ read, r.name = name := by
  have hmem : record ∈ records.values :=
    List.mem_map.2 ⟨_, (OrderedMap.mem_entries_iff h.sorted).2 hrecord, rfl⟩
  obtain ⟨r, hr, hisRead⟩ := Result.exists_of_mem_left (forall₂_readRecords hread) hmem
  exact ⟨r, hr, hisRead.name.trans (h.records name record hrecord).name⟩

/-- What is kept under a name that has not moved. -/
theorem treeOf?_renameReferences (hK : CanBeKept K) (h : AllKept K records)
    (hread : e.readRecords records = .ok read) {moved : OrderedMap String FormulaRecord}
    {name : String} (hmoved : moved.find? name = records.find? name) :
    treeOf? ((renameReferences old new read moved).find? name) =
      (treeOf? (records.find? name)).map (Option.map (redirected e.registry old new)) := by
  cases hfind : (renameReferences old new read moved).find? name with
  | none =>
    rw [← hmoved, OrderedMap.contains_eq_false_iff.1
      ((contains_renameReferences old new read name moved).symm.trans
        (OrderedMap.contains_eq_false_iff.2 hfind))]
    rfl
  | some record' =>
    obtain ⟨record, hrecord, hcases⟩ := find?_renameReferences hfind
    rw [hmoved] at hrecord
    obtain ⟨t, ht, htree⟩ := h.tree_of_record hrecord
    rw [ht]
    change _ = Except.ok (some (redirected e.registry old new t))
    unfold redirected
    rcases hcases with ⟨r, hr, rfl, hrefers, htext⟩ | ⟨htext, hrest⟩
    · obtain ⟨hr', hreferences⟩ := treeOf?_of_mem_read h hread hr
      obtain rfl := Option.some.inj (Except.ok.inj (hr'.symm.trans ht))
      obtain ⟨hreadable, hkept⟩ := isKept_of_readRecords h hread hr
      rw [hreferences, List.contains_iff_mem] at hrefers
      rw [if_pos hrefers, treeOf?_some, htext, hK.parse_text
        (hreadable.renameSeries old new) (hK.renameSeries hkept old new)]
      rfl
    · obtain ⟨r, hr, rfl⟩ := exists_mem_read h hread hrecord
      obtain ⟨hr', hreferences⟩ := treeOf?_of_mem_read h hread hr
      obtain rfl := Option.some.inj (Except.ok.inj (hr'.symm.trans ht))
      have hfree := hrest r hr rfl
      rw [hreferences] at hfree
      rw [if_neg fun hmem => Bool.eq_false_iff.1 hfree (List.contains_iff_mem.2 hmem),
        treeOf?_of_text htext, htree]

/-- **The formulas after a renaming**: those of all names, rewritten, and none of the old name. -/
theorem formulaTree?_renamed (hK : CanBeKept K) (h : AllKept K e.formulas) (hnames : e.NamesApart)
    {readGroups : List ReadRecord} {store : Store} {moved : OrderedMap String FormulaRecord}
    (hr : e.Renames old new read readGroups store moved) :
    (∀ name, name ≠ new →
      treeOf? ((renameReferences old new read moved).find? (renamed old new name)) =
        (e.formulaTree? name).map (Option.map (e.rewritten old new name))) ∧
      (renameReferences old new read moved).find? old = none := by
  have hnew : e.formulas.find? new = none := OrderedMap.contains_eq_false_iff.1 hr.formulasFree
  have hnone {records : OrderedMap String FormulaRecord} {name : String}
      (hrecords : records.find? name = none) :
      (renameReferences old new read records).find? name = none :=
    OrderedMap.contains_eq_false_iff.1 ((contains_renameReferences old new read name records).trans
      (OrderedMap.contains_eq_false_iff.2 hrecords))
  rcases moveSeries_cases hr.moves with ⟨hstored, -, rfl⟩ | ⟨hstored, -, rfl⟩
  · have hold : e.formulas.find? old = none := by
      cases hfind : e.formulas.find? old with
      | none => rfl
      | some record =>
        have := hnames.series old (contains_of_mem (OrderedMap.mem_of_find? hfind))
        exact absurd (hstored.symm.trans this) nofun
    refine ⟨fun name _ => ?_, hnone hold⟩
    unfold renamed
    split
    · rename_i heq
      subst heq
      rw [hnone hnew, formulaTree?, hold]
      rfl
    · rename_i hne
      rw [rewritten_of_ne hne]
      exact treeOf?_renameReferences hK h hr.reads rfl
  · obtain ⟨record, hrecord⟩ := Option.isSome_iff_exists.1 (hr.known.resolve_left (by
      rw [hstored]
      exact Bool.false_ne_true))
    have hmoved := moveRecord_eq hrecord new
    constructor
    · intro name hname
      unfold renamed
      split
      · -- No formula that was read has the new name, so the one that moved is as it was.
        rename_i heq
        subst heq
        obtain ⟨t, ht, htree⟩ := h.tree_of_record hrecord
        cases hfind : (renameReferences name new read (moveRecord name new e.formulas)).find? new with
        | none =>
          have hcontains := contains_renameReferences name new read new (moveRecord name new e.formulas)
          rw [OrderedMap.contains, OrderedMap.contains, hfind, hmoved,
            OrderedMap.find?_insert_self] at hcontains
          cases hcontains
        | some record' =>
          obtain ⟨record₁, hrecord₁, ⟨r, hr', rfl, -⟩ | ⟨htext, -⟩⟩ := find?_renameReferences hfind
          · have hr'' := (treeOf?_of_mem_read h hr.reads hr').1
            rw [hnew] at hr''
            cases hr''
          · rw [hmoved, OrderedMap.find?_insert_self] at hrecord₁
            obtain rfl := Option.some.inj hrecord₁
            rw [treeOf?_of_text htext, formulaTree?, ht]
            change treeOf? (some record) = .ok (some (e.rewritten name new name t))
            rw [htree, rewritten_old]
      · rename_i hne
        rw [rewritten_of_ne hne]
        refine treeOf?_renameReferences hK h hr.reads ?_
        rw [hmoved, OrderedMap.find?_insert_of_ne _ hname, OrderedMap.find?_erase_of_ne _ hne]
    · refine hnone ?_
      rw [hmoved, OrderedMap.find?_insert_of_ne _ hr.differ, OrderedMap.find?_erase_self]

/-- Every formula after a renaming is one of before, rewritten. -/
theorem exists_of_renamed (hK : CanBeKept K) (h : AllKept K e.formulas) (hnames : e.NamesApart)
    {readGroups : List ReadRecord} {store : Store} {moved : OrderedMap String FormulaRecord}
    (hr : e.Renames old new read readGroups store moved) {asked : String} {u : Tree}
    (hu : treeOf? ((renameReferences old new read moved).find? asked) = .ok (some u)) :
    ∃ name t, name ≠ new ∧ asked = renamed old new name ∧ e.formulaTree? name = .ok (some t) ∧
      u = e.rewritten old new name t := by
  obtain ⟨hrenamed, hold⟩ := formulaTree?_renamed hK h hnames hr
  obtain ⟨name, hname, rfl⟩ : ∃ name, name ≠ new ∧ asked = renamed old new name := by
    by_cases hasked : asked = new
    · exact ⟨old, hr.differ, hasked.trans (renamed_old old new).symm⟩
    · refine ⟨asked, hasked, (renamed_of_ne (fun heq => ?_) new).symm⟩
      rw [heq, hold] at hu
      cases hu
  rw [hrenamed name hname] at hu
  obtain ⟨found, hfound, hmap⟩ := Result.map_ok hu
  obtain ⟨t, rfl, rfl⟩ := Option.map_eq_some_iff.1 hmap
  exact ⟨name, t, hname, rfl, hfound, rfl⟩

/-- What is read and does not refer to a series is a formula that does not. -/
theorem not_mem_seriesReferences_of_read (h : AllKept K records)
    (hread : e.readRecords records = .ok read)
    (hfree : ∀ r ∈ read, r.references.contains new = false) {name : String} {t : Tree}
    (ht : treeOf? (records.find? name) = .ok (some t)) : new ∉ t.seriesReferences e.registry := by
  intro hmem
  cases hrecord : records.find? name with
  | none =>
    rw [hrecord] at ht
    cases ht
  | some record =>
    obtain ⟨r, hr, rfl⟩ := exists_mem_read h hread hrecord
    obtain ⟨hr', hreferences⟩ := treeOf?_of_mem_read h hread hr
    obtain rfl := Option.some.inj (Except.ok.inj (hr'.symm.trans ht))
    have hfree := hfree r hr
    rw [hreferences] at hfree
    exact Bool.eq_false_iff.1 hfree (List.contains_iff_mem.2 hmem)

/-- No formula refers to the new name before a renaming. -/
theorem Renames.not_mem_seriesReferences (h : AllKept K e.formulas) {readGroups : List ReadRecord}
    {store : Store} {moved : OrderedMap String FormulaRecord}
    (hr : e.Renames old new read readGroups store moved) {name : String} {t : Tree}
    (ht : e.formulaTree? name = .ok (some t)) : new ∉ t.seriesReferences e.registry :=
  not_mem_seriesReferences_of_read h hr.reads
    (fun r hmem => hr.unreferenced r (List.mem_append_left _ hmem)) ht

end

end Engine

end SeriesAlgebra
