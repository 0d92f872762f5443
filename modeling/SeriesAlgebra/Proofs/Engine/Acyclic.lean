import SeriesAlgebra.Proofs.Engine.Renaming

/-!
# Formulas never lead back to themselves

A formula is registered only if it can be expanded as if it had its name already. So
what it leads to comes to an end (`Tree.acc_of_expandBelow`), and this goes on to hold of
all formulas (`Engine.ReferencesEnd`): another name that is registered or changed later
is checked in its turn, deleting takes references away, and a name that is given to a
series is one that nothing refers to. Expansion closes no cycle, whatever was asked of
the engine before (`Engine.expand_ne_cycle_of_reaches`).
-/

namespace SeriesAlgebra

namespace Engine

open SeriesAlgebra.Tree

/-- **Whether all that formulas lead to comes to an end.** -/
def ReferencesEnd (e : Engine) : Prop := WellFounded (flip (LeadsTo e.formulaTree?))

variable {e e' : Engine}

/-! ### Calls -/

/-- References end where there are no more than before, after names have changed. -/
theorem ReferencesEnd.of_leadsTo (h : e.ReferencesEnd) (f : String → String)
    (hleads : ∀ name other, LeadsTo e'.formulaTree? name other →
      LeadsTo e.formulaTree? (f name) (f other)) : e'.ReferencesEnd :=
  Subrelation.wf (fun hab => hleads _ _ hab) (InvImage.wf f h)

theorem ReferencesEnd.of_eq (h : e.ReferencesEnd) (heq : e'.formulaTree? = e.formulaTree?) :
    e'.ReferencesEnd := by
  unfold ReferencesEnd
  rw [heq]
  exact h

theorem formulaTree?_of_ne {formulas : OrderedMap String FormulaRecord} {name other : String}
    {record : FormulaRecord} (h : other ≠ name) :
    formulaTree? { e with formulas := formulas.insert name record } other =
      formulaTree? { e with formulas := formulas } other :=
  congrArg treeOf? (OrderedMap.find?_insert_of_ne formulas h record)

/-- A record with other metadata is of the same formula. -/
theorem formulaTree?_updateMetadata {name : String} {record : FormulaRecord}
    (hrecord : e.formulas.find? name = some record) (metadata : Metadata) :
    formulaTree? { e with
      formulas := e.formulas.insert name { record with metadata := metadata } } =
      e.formulaTree? := by
  funext other
  by_cases hother : other = name
  · subst hother
    rw [formulaTree?, formulaTree?, OrderedMap.find?_insert_self, hrecord]
    rfl
  · exact formulaTree?_of_ne hother

/-- The formulas after one is registered are as they were for its checks, but for how it is
written. -/
theorem leadsTo_registered {name text : String} {t : Tree} (ht : Tree.parse text = .ok t)
    {aware : Option Bool} {previous : Option FormulaRecord} {asked other : String}
    (h : LeadsTo (formulaTree? { e with
      formulas := e.formulas.insert name (newRecord name t aware previous) }) asked other) :
    LeadsTo (e.pendingTree? name t .series) asked other := by
  obtain ⟨u, hu, hleaf⟩ := h
  unfold LeadsTo pendingTree?
  by_cases hasked : asked = name
  · subst hasked
    rw [if_pos ⟨rfl, rfl⟩]
    rw [formulaTree?, OrderedMap.find?_insert_self, treeOf?_some] at hu
    have htext : Tree.parse (newRecord asked t aware previous).text = .ok t.canonical :=
      parse_text_of_parse ht
    rw [htext] at hu
    obtain rfl := Option.some.inj (Except.ok.inj hu)
    exact ⟨t, rfl, (hasLeaf_canonical (isReadable_of_parse ht).nodes).1 hleaf⟩
  · rw [if_neg fun hname => hasked hname.1]
    exact ⟨u, (formulaTree?_of_ne hasked).symm.trans hu, hleaf⟩

/-- **A formula that can be expanded as if it had its name leaves references ending.** -/
theorem ReferencesEnd.pending (h : e.ReferencesEnd) {name : String} {t u : Tree}
    (hu : t.expand (e.pendingTree? name t .series) [] e.config.maxDepth = .ok u) :
    WellFounded (flip (LeadsTo (e.pendingTree? name t .series))) := by
  have hname : Acc (flip (LeadsTo (e.pendingTree? name t .series))) name := by
    refine .intro _ fun other hother => ?_
    obtain ⟨s, hs, hleaf⟩ := hother
    unfold pendingTree? at hs
    rw [if_pos ⟨rfl, rfl⟩] at hs
    obtain rfl := Option.some.inj (Except.ok.inj hs)
    exact acc_of_expandBelow hu hleaf
  refine ⟨fun asked => ?_⟩
  -- Other names lead where they led before, until they come to the name that is registered.
  induction asked using h.induction with
  | _ asked ih =>
    by_cases hasked : asked = name
    · exact hasked ▸ hname
    · refine .intro _ fun other hother => ih other ?_
      obtain ⟨s, hs, hleaf⟩ := hother
      unfold pendingTree? at hs
      rw [if_neg fun hboth => hasked hboth.1] at hs
      exact ⟨s, hs, hleaf⟩

/-- Deleting a formula takes references away. -/
theorem ReferencesEnd.erase (h : e.ReferencesEnd) (name : String)
    (bindings : OrderedMap String Binding) :
    ReferencesEnd { e with formulas := e.formulas.erase name, bindings := bindings } := by
  refine h.of_leadsTo id fun asked other hleads => ?_
  obtain ⟨t, ht, hleaf⟩ := hleads
  exact ⟨t, treeOf?_of_erase ht, hleaf⟩

/-- What a formula leads to is referred to. -/
theorem mem_seriesReferences_of_hasLeaf (h : AreKept e.formulas) (hregistry : e.registry = .builtin)
    {name other : String} {t : Tree} (ht : e.formulaTree? name = .ok (some t))
    (hleaf : t.HasLeaf other) : other ∈ t.seriesReferences e.registry := by
  rw [hregistry, seriesReferences, mem_sortedSet]
  exact hleaf.mem_references (h.isKept ht).formula.nodes

/-- No formula has a leaf of the new name before a renaming. -/
theorem Renames.not_hasLeaf {old new : String} {read readGroups : List ReadRecord} {store : Store}
    {moved : OrderedMap String FormulaRecord} (hr : e.Renames old new read readGroups store moved)
    (h : AreKept e.formulas) (hregistry : e.registry = .builtin) {name : String} {t : Tree}
    (ht : e.formulaTree? name = .ok (some t)) : ¬ t.HasLeaf new := fun hleaf =>
  hr.not_mem_seriesReferences h ht (mem_seriesReferences_of_hasLeaf h hregistry ht hleaf)

/-- **A renaming only gives other names to what is led to**, since nothing led to the new name. -/
theorem ReferencesEnd.rename (hends : e.ReferencesEnd) (h : AreKept e.formulas)
    (hnames : e.NamesApart) (hregistry : e.registry = .builtin) {old new : String}
    {read readGroups : List ReadRecord} {store : Store} {moved : OrderedMap String FormulaRecord}
    (hr : e.Renames old new read readGroups store moved)
    (hformulas : e'.formulas = renameReferences old new read moved) : e'.ReferencesEnd := by
  refine hends.of_leadsTo (renamed new old) fun asked other hleads => ?_
  obtain ⟨u, hu, hleaf⟩ := hleads
  rw [formulaTree?, hformulas] at hu
  obtain ⟨name, t, hname, rfl, ht, rfl⟩ := exists_of_renamed canBeKept h hnames hr hu
  rw [renamed_renamed hname]
  have hnotNew {n : String} (hn : t.HasLeaf n) : n ≠ new := fun heq =>
    hr.not_hasLeaf h hregistry ht (heq ▸ hn)
  unfold rewritten at hleaf
  split at hleaf
  · obtain ⟨n, hn, rfl⟩ := exists_of_hasLeaf_renameSeries hleaf
    rw [renamed_renamed (hnotNew hn)]
    exact ⟨t, ht, hn⟩
  · rw [renamed_of_ne (hnotNew hleaf)]
    exact ⟨t, ht, hleaf⟩

/-- **Effects keep references ending.** -/
theorem ReferencesEnd.effect (hends : e.ReferencesEnd) (h : AreKept e.formulas)
    (hnames : e.NamesApart) (hregistry : e.registry = .builtin) {c : Call}
    (heffect : e.Effect c e') : e'.ReferencesEnd := by
  cases heffect with
  | updateMetadata hrecord _ => exact hends.of_eq (formulaTree?_updateMetadata hrecord _)
  | registerFormula ht _ hanswer =>
    obtain ⟨-, -, u, hu⟩ := checks_of_validate hanswer
    exact Subrelation.wf (fun hab => leadsTo_registered ht hab) (hends.pending hu)
  | rename hr => exact hends.rename h hnames hregistry hr rfl
  | deleteFormula _ => exact hends.erase _ _
  | _ => exact hends

/-! ### Engines that are reached -/

/-- What keeps formulas apart and ending. -/
structure Orderly (e : Engine) : Prop where
  registry : e.registry = .builtin
  formulas : AreKept e.formulas
  names : e.NamesApart
  ends : e.ReferencesEnd

theorem orderly_create {store : Store} {config : Config}
    (he : create store config .builtin = .ok e) : e.Orderly := by
  have hnames := namesApart_create he
  obtain ⟨c, -, he⟩ := Result.bind_ok he
  obtain rfl := Except.ok.inj he
  refine ⟨rfl, areKept_empty, hnames, ⟨fun name => .intro _ fun other hother => ?_⟩⟩
  obtain ⟨t, ht, -⟩ := hother
  cases ht

theorem Orderly.effect (h : e.Orderly) {c : Call} (heffect : e.Effect c e') : e'.Orderly where
  registry := heffect.registry.trans h.registry
  formulas := h.formulas.effect h.registry heffect
  names := h.names.effect heffect
  ends := h.ends.effect h.formulas h.names h.registry heffect

theorem Orderly.noteAll (h : e.Orderly) (records : List LedgerRecord) :
    (e.noteAll records).Orderly := ⟨h.registry, h.formulas, h.names.noteAll records, h.ends⟩

theorem Reachable.orderly (h : e.Reachable) : e.Orderly := by
  induction h with
  | create _ config he => exact orderly_create he
  | @perform e _ c ih =>
    rcases e.ends_perform c with ⟨records, cause, heq, -⟩ | ⟨e', records, heq, heffect, -⟩
    · rw [heq]
      exact ih.noteAll records
    · rw [heq]
      exact (ih.effect heffect).noteAll records

/-- No formula refers to itself. -/
theorem Orderly.not_hasLeaf_self (h : e.Orderly) {name : String} {t : Tree}
    (ht : e.formulaTree? name = .ok (some t)) : ¬ t.HasLeaf name := fun hleaf =>
  h.ends.asymmetric (a := name) (b := name) ⟨t, ht, hleaf⟩ ⟨t, ht, hleaf⟩

theorem orderly_of_reaches {store : Store} {config : Config}
    (he : create store config .builtin = .ok e) (h : Reaches (fun _ _ => True) e e') :
    e'.Orderly :=
  h.invariant (fun _ records h => h.noteAll records)
    (fun _ source h => ⟨h.registry, h.formulas, h.names.addSource source, h.ends⟩)
    (fun _ _ _ _ heffect h => h.effect heffect) (orderly_create he)

/-- Expansion closes no cycle, whatever names it stops at. -/
theorem Orderly.expand_ne_cycle (h : e.Orderly) (stop : List String) (t : Tree)
    (path : List String) : e.expand stop t ≠ .error (.tree (.cycle path)) := by
  intro hcycle
  unfold expand at hcycle
  cases hexpand : t.expand e.formulaTree? stop e.config.maxDepth with
  | ok u =>
    rw [hexpand] at hcycle
    cases hcycle
  | error cause =>
    rw [hexpand] at hcycle
    obtain rfl : cause = .cycle path := EngineError.tree.inj (Except.error.inj hcycle)
    exact Tree.expand_ne_cycle h.formulas.formulaTree?_ne_error h.ends stop t path hexpand

/-- **No formula leads back to itself**: whatever was asked of an engine, expanding a formula closes
no cycle, be it one that is registered or any other. -/
theorem expand_ne_cycle_of_reaches {store : Store} {config : Config}
    (he : create store config .builtin = .ok e) (h : Reaches (fun _ _ => True) e e')
    (path : List String) :
    (∀ t : Tree, e'.expand [] t ≠ .error (.tree (.cycle path))) ∧
      ∀ name, e'.expandedFormula name [] ≠ .error (.tree (.cycle path)) := by
  have horderly := orderly_of_reaches he h
  have hexpand (t : Tree) : e'.expand [] t ≠ .error (.tree (.cycle path)) :=
    horderly.expand_ne_cycle [] t path
  refine ⟨hexpand, fun name hcycle => ?_⟩
  unfold expandedFormula at hcycle
  cases htree : e'.formulaTree? name with
  | error cause => exact horderly.formulas.formulaTree?_ne_error name cause htree
  | ok tree =>
    rw [htree] at hcycle
    cases tree with
    | none => cases hcycle
    | some t =>
      change (e'.expand [] t >>= fun u => pure (some u.text)) = _ at hcycle
      cases ht : e'.expand [] t with
      | ok u =>
        rw [ht] at hcycle
        cases hcycle
      | error cause =>
        rw [ht] at hcycle
        obtain rfl := Except.error.inj hcycle
        exact hexpand t ht

/-- The calls that register a formula over another and then try to turn that around. -/
def closingCalls : List Call :=
  [.registerFormula "outer" "(series \"inner\")" ⟨some false, false⟩,
    .registerFormula "inner" "(+ 1 (series \"outer\"))" ⟨some false, false⟩]

theorem expand_ne_cycle_closing :
    Reaches (fun _ _ => True) (overNothing .initial) ((overNothing .initial).performAll closingCalls) ∧
      ((overNothing .initial).performAll closingCalls).expandedFormula "outer" [] ≠
        .error (.tree (.cycle ["inner", "outer", "inner"])) := by
  have hreaches : Reaches (fun _ _ => True) (overNothing .initial)
      ((overNothing .initial).performAll closingCalls) :=
    Reaches.refl.performAll closingCalls fun _ _ _ => trivial
  exact ⟨hreaches, (expand_ne_cycle_of_reaches (create_overNothing rfl) hreaches _).2 "outer"⟩

end Engine

end SeriesAlgebra
