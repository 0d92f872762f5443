import SeriesAlgebra.Proofs.Engine.Acyclic
import SeriesAlgebra.Proofs.Engine.Bindings
import SeriesAlgebra.Proofs.Formula.RenamedReferences

/-!
# References that a renaming leaves behind

A renaming is to leave no reference to the old name. It leaves none in bindings, over any
registry. In formulas it looks for references with the finders of all operators, those of
extensions included, but what it replaces is the string after the symbol `series`. So it
leaves none where the calls of the formulas that refer to the old name are followed, and
the formula that is renamed does not refer to itself (`Engine.FollowsRenaming`); this is
always so if no operator but `series` names a series
(`Engine.leavesNoReference_of_reaches`).

An extension that takes the names of series as strings is not followed: its call still
refers to the old name (`Engine.mentions_stale`).
-/

namespace SeriesAlgebra

namespace Engine

open SeriesAlgebra.Tree

variable {e e' : Engine} {registry : Registry} {old new : String}

/-! ### References of formulas -/

/-- Whether what is kept as a formula under a name refers to a series. -/
def Mentions (registry : Registry) (records : OrderedMap String FormulaRecord)
    (name series : String) : Prop :=
  ∃ t, treeOf? (records.find? name) = .ok (some t) ∧ series ∈ t.seriesReferences registry

/-- **Whether no reference to the old name is left**, and the formulas that had one have one to the
new name. -/
structure LeavesNoReference (registry : Registry) (old new : String)
    (before after : OrderedMap String FormulaRecord) : Prop where
  gone : ∀ name record, after.find? name = some record →
    ∃ t, Tree.parse record.text = .ok t ∧ old ∉ t.seriesReferences registry
  instead : ∀ name, Mentions registry before name old → Mentions registry after name new

/-- Whether the calls in all formulas that refer to the old name are followed. -/
def CallsFollowed (registry : Registry) (old new : String)
    (records : OrderedMap String FormulaRecord) : Prop :=
  ∀ name t, treeOf? (records.find? name) = .ok (some t) → old ∈ t.seriesReferences registry →
    t.Everywhere (IsFollowed registry old new)

/-- **Whether a renaming reaches all references**: the calls in formulas and group formulas that refer
to the old name are followed, and the formula that is renamed, which is not rewritten, does not
refer to itself. -/
structure FollowsRenaming (e : Engine) (old new : String) : Prop where
  formulas : CallsFollowed e.registry old new e.formulas
  groups : CallsFollowed e.registry old new e.groupFormulas
  notItself : ¬ Mentions e.registry e.formulas old old

/-! ### Rewritten formulas -/

theorem not_mem_redirected (hne : old ≠ new) {t : Tree}
    (ht : old ∈ t.seriesReferences registry → t.Everywhere (IsFollowed registry old new)) :
    old ∉ (redirected registry old new t).seriesReferences registry := by
  unfold redirected
  split
  · rename_i hold
    exact (mem_seriesReferences_renameSeries (ht hold) hne).1
  · rename_i hold
    exact hold

theorem mem_redirected (hne : old ≠ new) {t : Tree}
    (ht : old ∈ t.seriesReferences registry → t.Everywhere (IsFollowed registry old new))
    (hold : old ∈ t.seriesReferences registry) :
    new ∈ (redirected registry old new t).seriesReferences registry := by
  rw [redirected, if_pos hold]
  exact (mem_seriesReferences_renameSeries (ht hold) hne).2 hold

/-- No reference is left where all formulas with one are rewritten, and what is new has none. -/
theorem leavesNoReference_of {K : Tree → Prop} {before after : OrderedMap String FormulaRecord}
    (hkept : AllKept K after) (hne : old ≠ new) (hfollowed : CallsFollowed registry old new before)
    (hback : ∀ name u, treeOf? (after.find? name) = .ok (some u) →
      old ∉ u.seriesReferences registry ∨
        ∃ t, treeOf? (before.find? name) = .ok (some t) ∧ redirected registry old new t = u)
    (hforth : ∀ name t, treeOf? (before.find? name) = .ok (some t) →
      old ∈ t.seriesReferences registry →
        treeOf? (after.find? name) = .ok (some (redirected registry old new t))) :
    LeavesNoReference registry old new before after := by
  constructor
  · intro name record hrecord
    obtain ⟨u, hu, -⟩ := (hkept.records name record hrecord).tree
    refine ⟨u, hu, ?_⟩
    rcases hback name u (by rw [hrecord, treeOf?_some, hu]; rfl) with hfree | ⟨t, ht, rfl⟩
    · exact hfree
    · exact not_mem_redirected hne (hfollowed name t ht)
  · rintro name ⟨t, ht, hold⟩
    exact ⟨_, hforth name t ht hold, mem_redirected hne (hfollowed name t ht) hold⟩

section

variable {read readGroups : List ReadRecord} {store : Store}
  {moved : OrderedMap String FormulaRecord}

/-- **No reference to the old name is left in formulas.** -/
theorem Renames.leavesNoReference {K : Tree → Prop} (hK : CanBeKept K) (h : AllKept K e.formulas)
    (hnames : e.NamesApart) (hr : e.Renames old new read readGroups store moved)
    (hfollowed : CallsFollowed e.registry old new e.formulas)
    (hitself : ¬ Mentions e.registry e.formulas old old) :
    LeavesNoReference e.registry old new e.formulas (renameReferences old new read moved) := by
  refine leavesNoReference_of (h.renamed hK hr) hr.differ hfollowed (fun name u hu => ?_)
    fun name t ht hold => ?_
  · obtain ⟨n, t, -, rfl, ht, rfl⟩ := exists_of_renamed hK h hnames hr hu
    by_cases hn : n = old
    · subst hn
      rw [rewritten_old]
      exact Or.inl fun hmem => hitself ⟨t, ht, hmem⟩
    · rw [renamed_of_ne hn, rewritten_of_ne hn]
      exact Or.inr ⟨t, ht, rfl⟩
  · have hne : name ≠ old := by
      rintro rfl
      exact hitself ⟨t, ht, hold⟩
    have hnew : name ≠ new := by
      rintro rfl
      obtain ⟨record, hrecord, -⟩ := formulaTree?_some ht
      rw [OrderedMap.contains_eq_false_iff.1 hr.formulasFree] at hrecord
      cases hrecord
    have hkept := (formulaTree?_renamed hK h hnames hr).1 name hnew
    rw [renamed_of_ne hne, rewritten_of_ne hne, formulaTree?, ht] at hkept
    exact hkept

/-- No reference to the old name is left in group formulas, which do not move. -/
theorem Renames.leavesNoReference_groups {K : Tree → Prop} (hK : CanBeKept K)
    (h : AllKept K e.groupFormulas) (hr : e.Renames old new read readGroups store moved)
    (hfollowed : CallsFollowed e.registry old new e.groupFormulas) :
    LeavesNoReference e.registry old new e.groupFormulas
      (renameReferences old new readGroups e.groupFormulas) := by
  have hafter (name : String) :
      treeOf? ((renameReferences old new readGroups e.groupFormulas).find? name) =
        (treeOf? (e.groupFormulas.find? name)).map (Option.map (redirected e.registry old new)) :=
    treeOf?_renameReferences hK h hr.readsGroups rfl
  have hkept : AllKept K (renameReferences old new readGroups e.groupFormulas) :=
    areKept_renameReferences hK (fun r hmem => isKept_of_readRecords h hr.readsGroups hmem) h
  refine leavesNoReference_of hkept hr.differ hfollowed (fun name u hu => ?_)
    fun name t ht _ => ?_
  · rw [hafter name] at hu
    obtain ⟨found, hfound, hmap⟩ := Result.map_ok hu
    obtain ⟨t, rfl, heq⟩ := Option.map_eq_some_iff.1 hmap
    exact Or.inr ⟨t, hfound, heq⟩
  · rw [hafter name, ht]
    rfl

end

/-! ### Engines over any registry -/

/-- What is kept by an engine, whatever its registry is. -/
structure KeepsCanonical (e : Engine) : Prop where
  formulas : AllKept (fun t => t.canonical = t) e.formulas
  groups : AllKept (fun t => t.canonical = t) e.groupFormulas
  names : e.NamesApart

theorem keepsCanonical_create {store : Store} {config : Config}
    (he : create store config registry = .ok e) : e.KeepsCanonical := by
  have hnames := namesApart_create he
  obtain ⟨c, -, he⟩ := Result.bind_ok he
  obtain rfl := Except.ok.inj he
  exact ⟨areKept_empty, areKept_empty, hnames⟩

theorem KeepsCanonical.effect (h : e.KeepsCanonical) {c : Call} (heffect : e.Effect c e') :
    e'.KeepsCanonical where
  formulas := h.formulas.effect canBeKept_canonical (fun _ _ => canonical_canonical _) heffect
  groups := h.groups.effect_groups canBeKept_canonical (fun _ _ => canonical_canonical _) heffect
  names := h.names.effect heffect

/-- Whether no formula refers to itself. -/
def NoneMentionsItself (e : Engine) : Prop := ∀ name, ¬ Mentions e.registry e.formulas name name

namespace NoneMentionsItself

theorem of_fewer (h : e.NoneMentionsItself) (hregistry : e'.registry = e.registry)
    (hfewer : ∀ name t, e'.formulaTree? name = .ok (some t) → e.formulaTree? name = .ok (some t)) :
    e'.NoneMentionsItself := by
  rintro name ⟨t, ht, hmem⟩
  exact h name ⟨t, hfewer name t ht, hregistry ▸ hmem⟩

/-- A formula that can be expanded as if it had its name does not refer to itself. -/
theorem registered (h : e.NoneMentionsItself) (hregistry : e.registry.NamesByLeaves)
    {name text : String} {t : Tree} (ht : Tree.parse text = .ok t) {aware : Option Bool}
    {options : RegisterOptions} (hanswer : (e.validate name t .series options).answer = .ok aware)
    (previous : Option FormulaRecord) :
    NoneMentionsItself { e with
      formulas := e.formulas.insert name (newRecord name t aware previous) } := by
  rintro other ⟨u, hu, hmem⟩
  by_cases hother : other = name
  · subst hother
    have hleads := leadsTo_registered ht
      ⟨u, hu, hregistry.hasLeaf_of_mem_references (mem_sortedSet.1 hmem)⟩
    obtain ⟨s, hs, hleaf⟩ := hleads
    obtain ⟨-, -, v, hv⟩ := checks_of_validate hanswer
    rw [pendingTree?, if_pos ⟨rfl, rfl⟩] at hs
    obtain rfl := Option.some.inj (Except.ok.inj hs)
    -- What the formula leads to comes to an end, so it does not lead to itself over and over.
    exact (acc_iff_isEmpty_descending_chain.1 (acc_of_expandBelow hv hleaf)).false
      ⟨fun _ => other, rfl, fun _ => ⟨t, if_pos ⟨rfl, rfl⟩, hleaf⟩⟩
  · exact h other ⟨u, (formulaTree?_of_ne hother).symm.trans hu, hmem⟩

/-- A renaming gives no formula the name of a series that it refers to. -/
theorem renamed (h : e.NoneMentionsItself) (hkeeps : e.KeepsCanonical)
    (hregistry : e.registry.NamesByLeaves) {read readGroups : List ReadRecord} {store : Store}
    {moved : OrderedMap String FormulaRecord}
    (hr : e.Renames old new read readGroups store moved) (hsame : e'.registry = e.registry)
    (hformulas : e'.formulas = renameReferences old new read moved) : e'.NoneMentionsItself := by
  rintro name ⟨u, hu, hmem⟩
  rw [hformulas] at hu
  rw [hsame] at hmem
  obtain ⟨n, t, hn, rfl, ht, rfl⟩ :=
    exists_of_renamed canBeKept_canonical hkeeps.formulas hkeeps.names hr hu
  have hnot : ∀ m ∈ t.seriesReferences e.registry, m ≠ new := fun m hm heq =>
    hr.not_mem_seriesReferences hkeeps.formulas ht (heq ▸ hm)
  by_cases hold : n = old
  · subst hold
    rw [rewritten_old, renamed_old] at hmem
    exact hnot new hmem rfl
  · rw [renamed_of_ne hold, rewritten_of_ne hold, redirected] at hmem
    refine h n ⟨t, ht, ?_⟩
    split at hmem
    · rw [seriesReferences, mem_sortedSet,
        references_renameSeries fun u _ => hregistry.isFollowed old new u] at hmem
      obtain ⟨m, hm, heq⟩ := List.mem_map.1 hmem
      rw [← renamed_of_ne hold new] at heq
      have hm := mem_sortedSet.2 hm
      exact renamed_inj (hnot m hm) hn heq ▸ hm
    · exact hmem

theorem effect (h : e.NoneMentionsItself) (hkeeps : e.KeepsCanonical)
    (hregistry : e.registry.NamesByLeaves) {c : Call} (heffect : e.Effect c e') :
    e'.NoneMentionsItself := by
  cases heffect with
  | updateMetadata hrecord _ =>
    exact h.of_fewer rfl fun name t ht =>
      (congrFun (formulaTree?_updateMetadata hrecord _) name).symm.trans ht
  | registerFormula ht _ hanswer => exact h.registered hregistry ht hanswer _
  | rename hr => exact h.renamed hkeeps hregistry hr rfl rfl
  | deleteFormula _ => exact h.of_fewer rfl fun _ _ => treeOf?_of_erase
  | _ => exact h

end NoneMentionsItself

/-- What holds of all engines that are reached, whatever the registry is. -/
theorem keepsCanonical_of_reaches {store : Store} {config : Config} {first : Engine}
    (hfirst : create store config registry = .ok first) (he : Reaches (fun _ _ => True) first e) :
    e.registry = registry ∧ e.KeepsCanonical ∧ (registry.NamesByLeaves → e.NoneMentionsItself) := by
  refine he.invariant (I := fun e => e.registry = registry ∧ e.KeepsCanonical ∧
    (registry.NamesByLeaves → e.NoneMentionsItself)) ?_ ?_ ?_ ?_
  · rintro e records ⟨hregistry, hkeeps, hself⟩
    exact ⟨hregistry, ⟨hkeeps.formulas, hkeeps.groups, hkeeps.names.noteAll records⟩, hself⟩
  · rintro e source ⟨hregistry, hkeeps, hself⟩
    exact ⟨hregistry, ⟨hkeeps.formulas, hkeeps.groups, hkeeps.names.addSource source⟩, hself⟩
  · rintro e c e' - heffect ⟨rfl, hkeeps, hself⟩
    exact ⟨heffect.registry, hkeeps.effect heffect,
      fun hregistry => (hself hregistry).effect hkeeps hregistry heffect⟩
  · refine ⟨?_, keepsCanonical_create hfirst, fun _ => ?_⟩
    all_goals
      obtain ⟨c, -, hfirst⟩ := Result.bind_ok hfirst
      obtain rfl := Except.ok.inj hfirst
    · rfl
    · rintro name ⟨t, ht, -⟩
      cases ht

/-! ### Renaming -/

/-- No binding has the old name after a renaming. -/
theorem not_mem_renameInBinding (hne : old ≠ new) (b : Binding) :
    (renameInBinding old new b).formula ≠ old ∧ old ∉ (renameInBinding old new b).boundSeries := by
  refine ⟨renamed_ne hne b.formula, ?_⟩
  rw [boundSeries_renameInBinding, List.mem_map]
  rintro ⟨n, -, hn⟩
  exact renamed_ne hne n hn

/-- **A renaming leaves no reference to the old name**, over any registry: none in bindings; and
none in formulas and group formulas, which refer to the new name instead, if it reaches all
references – as it always does if nothing but `series` names series. -/
theorem leavesNoReference_of_reaches {store : Store} {config : Config} {first : Engine}
    (hfirst : create store config registry = .ok first) (he : Reaches (fun _ _ => True) first e)
    (hne : old ≠ new) (hok : (e.rename old new).answer = .ok ()) :
    (∀ group b, (group, b) ∈ (e.rename old new).engine.bindings.entries →
      b.formula ≠ old ∧ old ∉ b.boundSeries) ∧
    (e.FollowsRenaming old new ∨ registry.NamesByLeaves →
      LeavesNoReference registry old new e.formulas (e.rename old new).engine.formulas ∧
      LeavesNoReference registry old new e.groupFormulas
        (e.rename old new).engine.groupFormulas) := by
  obtain ⟨rfl, hkeeps, hself⟩ := keepsCanonical_of_reaches hfirst he
  constructor
  · intro group b hmem
    rw [bindings_rename hne hok] at hmem
    obtain ⟨⟨group', b'⟩, -, heq⟩ := List.mem_map.1 hmem
    obtain ⟨rfl, rfl⟩ := Prod.mk.inj heq
    exact not_mem_renameInBinding hne b'
  · intro hreaches
    have hfollows : e.FollowsRenaming old new := hreaches.elim id fun hregistry =>
      ⟨fun _ _ _ _ u _ => hregistry.isFollowed old new u,
        fun _ _ _ _ u _ => hregistry.isFollowed old new u, hself hregistry old⟩
    rcases e.ends_rename old new with ⟨records, cause, heq, -⟩ | ⟨e₁, records, heq, heffect, -⟩
    · rw [heq] at hok
      cases hok
    · rw [heq]
      cases heffect with
      | bind hgroup => cases hgroup
      | renameSame => exact absurd rfl hne
      | rename hr =>
        exact ⟨hr.leavesNoReference canBeKept_canonical hkeeps.formulas hkeeps.names
            hfollows.formulas hfollows.notItself,
          hr.leavesNoReference_groups canBeKept_canonical hkeeps.groups hfollows.groups⟩

/-! ### An operator that takes names as strings -/

/-- An operator whose calls name a series by every string among their arguments. -/
def feed : Extension where
  __ := Extension.plain "feed" (.variadic 1 [.str] (.fixed .series))
    fun _ _ => .ok (.series (.empty "feed"))
  namedSeries? args := some (args.filterMap str?)

/-- The built-in operators and this one. -/
def withFeed : Registry := Registry.builtin.register feed

/-- The first engine with these operators. -/
def feeding : Engine := { overNothing .initial with registry := withFeed }

theorem create_feeding : create .empty .initial withFeed = .ok feeding := rfl

/-- The calls that store a series, bind a formula that refers to it, and register a formula that
names another series with the operator. -/
def feedingCalls : List Call :=
  [.updateSeries "a" (.ofPoints "a" [(dayOf2024 0, 1.0)]) (dayOf2024 0) false,
    .registerFormula "f" "(+ 1 (series \"a\"))" ⟨none, false⟩,
    .registerFormula "g" "(feed \"b\")" ⟨some false, false⟩,
    .registerBinding "h" "f" [⟨"a", "low", "case"⟩]]

/-- It is enough to look at the formulas there are. -/
theorem callsFollowed_of_forall {records : OrderedMap String FormulaRecord}
    (h : records.values.all fun record => (Tree.parse record.text).toOption.all fun t =>
      decide (old ∈ t.seriesReferences registry → t.Everywhere (IsFollowed registry old new))) :
    CallsFollowed registry old new records := by
  intro name t ht
  cases hrecord : records.find? name with
  | none =>
    rw [hrecord] at ht
    cases ht
  | some record =>
    rw [hrecord] at ht
    obtain ⟨u, hu, heq⟩ := Result.map_ok ht
    obtain rfl := Option.some.inj heq
    have hall := List.all_eq_true.1 h record
      (List.mem_map.2 ⟨_, OrderedMap.mem_of_find? hrecord, rfl⟩)
    rw [hu] at hall
    exact of_decide_eq_true hall

/-- The engine after these calls. -/
def fed : Engine := feeding.performAll feedingCalls

/-- The stored series gets another name in the formula and in the binding, though a call of the
operator names another series; and so it does where there are built-in operators only. -/
theorem leavesNoReference_fed : ∃ t,
    fed.formulaTree? "f" = .ok (some t) ∧ "a" ∈ t.seriesReferences withFeed ∧
    LeavesNoReference withFeed "a" "z" fed.formulas (fed.rename "a" "z").engine.formulas ∧
    (∀ group b, (group, b) ∈ (fed.rename "a" "z").engine.bindings.entries →
      "a" ∉ b.boundSeries) ∧
    LeavesNoReference .builtin "a" "b" boundByTwo.formulas
      (boundByTwo.rename "a" "b").engine.formulas := by
  have hreaches : Reaches (fun _ _ => True) feeding fed :=
    Reaches.refl.performAll feedingCalls fun _ _ _ => trivial
  obtain ⟨t, ht, hmem⟩ := Result.exists_ok_some_any (x := fed.formulaTree? "f")
    (p := fun t => decide ("a" ∈ t.seriesReferences withFeed)) (by decide +kernel)
  have hfollows : fed.FollowsRenaming "a" "z" := by
    refine ⟨callsFollowed_of_forall (by decide +kernel),
      callsFollowed_of_forall (by decide +kernel), ?_⟩
    rintro ⟨t, ht, -⟩
    have hnone : (fed.formulas.find? "a").isNone = true := by decide +kernel
    rw [Option.isNone_iff_eq_none.1 hnone] at ht
    cases ht
  have hok : (fed.rename "a" "z").answer = .ok () := Result.ok_of_toOption (by decide +kernel)
  have hok' : (boundByTwo.rename "a" "b").answer = .ok () :=
    Result.ok_of_toOption (by decide +kernel)
  obtain ⟨hbindings, hformulas⟩ := leavesNoReference_of_reaches create_feeding hreaches
    (by decide) hok
  have hreaches' : Reaches (fun _ _ => True) (overNothing .initial) boundByTwo :=
    Reaches.refl.performAll bindingCalls fun _ _ _ => trivial
  obtain ⟨-, hbuiltin⟩ := leavesNoReference_of_reaches (create_overNothing rfl) hreaches'
    (by decide) hok'
  exact ⟨t, ht, of_decide_eq_true hmem, (hformulas (Or.inl hfollows)).1,
    fun group b hmem => (hbindings group b hmem).2,
    (hbuiltin (Or.inr Registry.namesByLeaves_builtin)).1⟩

/-- The calls that store a series and register a formula that names it with the operator. -/
def staleCalls : List Call :=
  [.updateSeries "a" (.ofPoints "a" [(dayOf2024 0, 1.0)]) (dayOf2024 0) false,
    .registerFormula "f" "(feed \"a\")" ⟨none, false⟩]

/-- The engine after these calls. -/
def stale : Engine := feeding.performAll staleCalls

/-- **The call of such an operator still refers to the old name**: the renaming found that the
formula refers to it, and there was nothing to replace. -/
theorem mentions_stale : ¬ ∀ (store : Store) (config : Config) (registry : Registry)
    (first e : Engine), create store config registry = .ok first → Reaches (fun _ _ => True) first e →
    ∀ old new : String, old ≠ new → (e.rename old new).answer = .ok () →
    ∀ name, ¬ Mentions registry (e.rename old new).engine.formulas name old := by
  intro hall
  have hreaches : Reaches (fun _ _ => True) feeding stale :=
    Reaches.refl.performAll staleCalls fun _ _ _ => trivial
  have hok : (stale.rename "a" "z").answer = .ok () := Result.ok_of_toOption (by decide +kernel)
  obtain ⟨t, ht, hmem⟩ := Result.exists_ok_some_any
    (x := treeOf? ((stale.rename "a" "z").engine.formulas.find? "f"))
    (p := fun t => decide ("a" ∈ t.seriesReferences withFeed)) (by decide +kernel)
  exact hall .empty .initial withFeed feeding stale create_feeding hreaches "a" "z" (by decide) hok
    "f" ⟨t, ht, of_decide_eq_true hmem⟩

end Engine

end SeriesAlgebra
