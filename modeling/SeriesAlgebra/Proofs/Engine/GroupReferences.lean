import SeriesAlgebra.Proofs.Engine.StaleReferences
import SeriesAlgebra.Proofs.Formula.LeafNames

/-!
# Groups that refer to groups

A group formula refers to the groups that it names, and a bound group to the groups of its
rows (`Engine.GroupRefersTo`). Whether a group leads back to itself is not looked at when a
group formula is registered or a formula is bound. So groups stay acyclic while no call makes a
group refer to one that leads to it, and exactly such a call ends that
(`Engine.groupsAcyclic_of_reaches`): references are made by these calls only, those of other
groups stay as they are, and all else only takes references away.

A group formula that is replaced by one that names itself is not refused
(`Engine.not_groupsAcyclic_selfReading`).
-/

namespace SeriesAlgebra

open Relation

/-! ### Relations that differ in one place -/

section Redirecting

variable {α : Type} {R S : α → α → Prop} {x : α} (h : ∀ a, a ≠ x → ∀ b, S a b ↔ R a b)

include h

theorem reflTransGen_of_ne {a : α} (ha : ReflTransGen S a x) : ReflTransGen R a x := by
  induction ha using ReflTransGen.head_induction_on with
  | refl => exact .refl
  | @head a b hab _ ih =>
    by_cases hax : a = x
    · exact hax ▸ .refl
    · exact .head ((h a hax b).1 hab) ih

/-- A way to somewhere is as it was, or it goes through the place where relations differ. -/
theorem transGen_of_ne {a b : α} (hab : TransGen S a b) :
    TransGen R a b ∨ ReflTransGen S a x ∧ TransGen S x b := by
  induction hab using TransGen.head_induction_on with
  | @single a ha =>
    by_cases hax : a = x
    · subst hax
      exact Or.inr ⟨.refl, .single ha⟩
    · exact Or.inl (.single ((h a hax b).1 ha))
  | @head a c hac hcb ih =>
    by_cases hax : a = x
    · subst hax
      exact Or.inr ⟨.refl, .head hac hcb⟩
    · exact ih.imp (.head ((h a hax c).1 hac)) fun hthrough => ⟨.head hac hthrough.1, hthrough.2⟩

/-- **Nothing leads back to itself as long as the one place does not refer to what leads to it.** -/
theorem acyclic_iff_of_ne (hR : ∀ a, ¬ TransGen R a a) :
    (∀ a, ¬ TransGen S a a) ↔ ∀ b, S x b → ¬ ReflTransGen R b x := by
  have hback (a : α) (ha : ReflTransGen R a x) : ReflTransGen S a x :=
    reflTransGen_of_ne (R := S) (S := R) (fun a hax b => (h a hax b).symm) ha
  constructor
  · intro hS b hxb hbx
    exact hS x (.head' hxb (hback b hbx))
  · intro hx a ha
    -- A circle that was not there before goes through the place, so it may start there.
    obtain ⟨b, hxb, hbx⟩ : ∃ b, S x b ∧ ReflTransGen S b x := by
      rcases transGen_of_ne h ha with hR' | ⟨hax, hxa⟩
      · exact absurd hR' (hR a)
      · exact TransGen.head'_iff.1 (hxa.trans_left hax)
    exact hx b hxb (reflTransGen_of_ne h hbx)

end Redirecting

/-- The group that a call makes, with the groups that it is to refer to. -/
def Call.groupReferences? : Call → Option (String × List String)
  | registerGroupFormula name text _ =>
    (Tree.parse text).toOption.map fun t => (name, t.leafNames Tree.groupOperator)
  | registerBinding group formula rows =>
    (Binding.ofRows? formula rows).toOption.map fun b => (group, b.rows.map (·.group))
  | registerBindingRecords group formula records =>
    (Binding.ofRecords? formula records).toOption.map fun b => (group, b.rows.map (·.group))
  | _ => none

namespace Engine

open SeriesAlgebra.Tree

variable {e e' : Engine} {c : Call} {name other : String}

/-- **Whether a group refers to another**: its formula names it, or it is the group of a row that it
is bound by. -/
def GroupRefersTo (e : Engine) (name other : String) : Prop :=
  (∃ t, e.groupTree? name = .ok (some t) ∧ other ∈ t.leafNames groupOperator) ∨
    ∃ b, e.bindings.find? name = some b ∧ ∃ row ∈ b.rows, row.group = other

/-- **Whether no group leads back to itself.** -/
def GroupsAcyclic (e : Engine) : Prop := ∀ name, ¬ TransGen e.GroupRefersTo name name

/-- **Whether a call closes no circle of groups**: if it succeeds, no group that the new one refers
to leads to it. -/
def ClosesNoCircle (e : Engine) (c : Call) : Prop :=
  (e.perform c).answer = .ok () → ∀ name groups, c.groupReferences? = some (name, groups) →
    ∀ group ∈ groups, ¬ ReflTransGen e.GroupRefersTo group name

/-! ### References after a call -/

theorem groupRefersTo_congr (htree : e'.groupTree? name = e.groupTree? name)
    (hbinding : e'.bindings.find? name = e.bindings.find? name) :
    e'.GroupRefersTo name other ↔ e.GroupRefersTo name other := by
  rw [GroupRefersTo, htree, hbinding]
  rfl

/-- A group refers to what its formula names, if it is not bound. -/
theorem groupRefersTo_formula {t : Tree} (ht : e.groupTree? name = .ok (some t))
    (hname : e.bindings.contains name = false) :
    e.GroupRefersTo name other ↔ other ∈ t.leafNames groupOperator := by
  simp [GroupRefersTo, ht, OrderedMap.contains_eq_false_iff.1 hname]

/-- A bound group refers to the groups of its rows, if it has no formula. -/
theorem groupRefersTo_row {b : Binding} (hb : e.bindings.find? name = some b)
    (hname : e.groupFormulas.contains name = false) :
    e.GroupRefersTo name other ↔ other ∈ b.rows.map (·.group) := by
  have htree : e.groupTree? name = .ok none :=
    congrArg treeOf? (OrderedMap.contains_eq_false_iff.1 hname)
  simp [GroupRefersTo, htree, hb]

/-- The references of a call that binds are the groups of its rows. -/
theorem groupReferences?_of_builds {group formula : String} {binding : Binding}
    (hgroup : c.registers? = some group) (hbuilds : Builds formula binding c) :
    c.groupReferences? = some (group, binding.rows.map (·.group)) := by
  cases c with
  | registerBinding _ _ rows =>
    obtain ⟨rfl, h⟩ := hbuilds
    obtain rfl := Option.some.inj hgroup
    rw [Call.groupReferences?, h]
    rfl
  | registerBindingRecords _ _ records =>
    obtain ⟨rfl, h⟩ := hbuilds
    obtain rfl := Option.some.inj hgroup
    rw [Call.groupReferences?, h]
    rfl
  | _ => cases hbuilds

/-- The group formulas after a renaming name the groups that they named. -/
theorem Renames.groupRefersTo {old new : String} {read readGroups : List ReadRecord} {store : Store}
    {moved : OrderedMap String FormulaRecord} (hr : e.Renames old new read readGroups store moved)
    (hkeeps : e.KeepsCanonical) (hgroups : e'.groupFormulas =
      renameReferences old new readGroups e.groupFormulas)
    (hbindings : e'.bindings = e.bindings.mapValues fun _ => renameInBinding old new)
    (h : e'.GroupRefersTo name other) : e.GroupRefersTo name other := by
  rcases h with ⟨u, hu, hother⟩ | ⟨b', hb, row', hrow, hother⟩
  · rw [groupTree?, hgroups,
      treeOf?_renameReferences canBeKept_canonical hkeeps.groups hr.readsGroups rfl] at hu
    obtain ⟨found, hfound, hmap⟩ := Result.map_ok hu
    obtain ⟨t, rfl, rfl⟩ := Option.map_eq_some_iff.1 hmap
    refine Or.inl ⟨t, hfound, ?_⟩
    unfold redirected at hother
    split at hother
    · rwa [leafNames_renameSeries (by decide)] at hother
    · exact hother
  · rw [hbindings, OrderedMap.find?_mapValues] at hb
    obtain ⟨b, hfound, rfl⟩ := Option.map_eq_some_iff.1 hb
    obtain ⟨row, hmem, rfl⟩ := List.mem_map.1 hrow
    refine Or.inr ⟨b, hfound, row, hmem, ?_⟩
    split at hother <;> exact hother

/-- **Calls that make no group take references away**, if anything. -/
theorem Effect.groupRefersTo_of_none (heffect : e.Effect c e') (hkeeps : e.KeepsCanonical)
    (hsorted : e.bindings.IsSorted) (hc : c.groupReferences? = none)
    (h : e'.GroupRefersTo name other) : e.GroupRefersTo name other := by
  cases heffect with
  | registerGroupFormula ht _ _ _ =>
    rw [Call.groupReferences?, ht] at hc
    cases hc
  | bind hgroup hbuilds _ _ _ =>
    rw [groupReferences?_of_builds hgroup hbuilds] at hc
    cases hc
  | rename hr => exact hr.groupRefersTo hkeeps rfl rfl h
  | deleteFormula _ =>
    -- The bindings of the formula go with it.
    refine h.imp_right ?_
    rintro ⟨b, hb, hrow⟩
    rw [OrderedMap.find?_filter hsorted] at hb
    exact ⟨b, (Option.filter_eq_some_iff.1 hb).1, hrow⟩
  | deleteBinding _ =>
    refine h.imp_right ?_
    rintro ⟨b, hb, hrow⟩
    exact ⟨b, OrderedMap.find?_of_erase hb, hrow⟩
  | deleteGroupFormula _ =>
    refine h.imp_left ?_
    rintro ⟨t, ht, hother⟩
    exact ⟨t, treeOf?_of_erase ht, hother⟩
  | _ => exact h

/-- **A call that makes a group** makes it refer to the groups that it names, and leaves the
references of the others. -/
theorem Effect.groupRefersTo_of_some (heffect : e.Effect c e') {made : String}
    {groups : List String} (hc : c.groupReferences? = some (made, groups)) :
    (∀ name, name ≠ made → ∀ other, e'.GroupRefersTo name other ↔ e.GroupRefersTo name other) ∧
      ∀ other, e'.GroupRefersTo made other ↔ other ∈ groups := by
  cases heffect with
  | registerGroupFormula ht _ hbindings _ =>
    rw [Call.groupReferences?, ht] at hc
    obtain ⟨rfl, rfl⟩ := Prod.mk.inj (Option.some.inj hc)
    refine ⟨fun name hname other => ?_, fun other => ?_⟩
    · exact groupRefersTo_congr
        (congrArg treeOf? (OrderedMap.find?_insert_of_ne e.groupFormulas hname _)) rfl
    · -- What is kept is written in another way, and names the same groups.
      rw [← leafNames_canonical (isReadable_of_parse ht).nodes]
      refine groupRefersTo_formula ?_ hbindings
      rw [groupTree?, OrderedMap.find?_insert_self, treeOf?_some, newRecord,
        parse_text_of_parse ht]
      rfl
  | bind hgroup hbuilds _ _ hformulas =>
    rw [groupReferences?_of_builds hgroup hbuilds] at hc
    obtain ⟨rfl, rfl⟩ := Prod.mk.inj (Option.some.inj hc)
    refine ⟨fun name hname other => ?_, fun other => ?_⟩
    · exact groupRefersTo_congr rfl (OrderedMap.find?_insert_of_ne e.bindings hname _)
    · exact groupRefersTo_row (OrderedMap.find?_insert_self _ _ _) hformulas
  | _ => cases hc

theorem Effect.isSorted_bindings (heffect : e.Effect c e') (h : e.bindings.IsSorted) :
    e'.bindings.IsSorted := by
  cases heffect with
  | bind _ _ _ _ _ => exact OrderedMap.isSorted_insert h _ _
  | rename _ => exact OrderedMap.isSorted_mapValues h _
  | deleteFormula _ => exact OrderedMap.isSorted_filter h _
  | deleteBinding _ => exact OrderedMap.isSorted_erase h _
  | _ => exact h

/-! ### Circles of groups -/

/-- **What a call that succeeds does to groups that lead to no circle.** -/
theorem GroupsAcyclic.effect_iff (h : e.GroupsAcyclic) (heffect : e.Effect c e')
    (hkeeps : e.KeepsCanonical) (hsorted : e.bindings.IsSorted) :
    e'.GroupsAcyclic ↔ ∀ name groups, c.groupReferences? = some (name, groups) →
      ∀ group ∈ groups, ¬ ReflTransGen e.GroupRefersTo group name := by
  cases hc : c.groupReferences? with
  | none =>
    refine iff_of_true (fun name hname => h name (TransGen.mono ?_ name name hname)) nofun
    exact fun _ _ hother => heffect.groupRefersTo_of_none hkeeps hsorted hc hother
  | some made =>
    obtain ⟨name, groups⟩ := made
    obtain ⟨hothers, hmade⟩ := heffect.groupRefersTo_of_some hc
    rw [GroupsAcyclic, acyclic_iff_of_ne hothers h]
    simp only [hmade, Option.some.injEq, Prod.mk.injEq]
    constructor
    · rintro hcircle _ _ ⟨rfl, rfl⟩
      exact hcircle
    · intro hcircle
      exact hcircle name groups ⟨rfl, rfl⟩

/-- What a call does to groups that lead to no circle, whether it succeeds or not. -/
theorem GroupsAcyclic.perform_iff (h : e.GroupsAcyclic) (hkeeps : e.KeepsCanonical)
    (hsorted : e.bindings.IsSorted) (c : Call) :
    (e.perform c).engine.GroupsAcyclic ↔ e.ClosesNoCircle c := by
  unfold ClosesNoCircle
  rcases e.ends_perform c with ⟨records, cause, heq, -⟩ | ⟨e₁, records, heq, heffect, -⟩
  · rw [heq]
    exact iff_of_true h nofun
  · rw [heq]
    exact (h.effect_iff heffect hkeeps hsorted).trans ⟨fun hcircle _ => hcircle, fun hok => hok rfl⟩

/-- Groups of an engine without any lead nowhere. -/
theorem groupsAcyclic_create {store : Store} {config : Config} {registry : Registry}
    (he : create store config registry = .ok e) : e.GroupsAcyclic := by
  obtain ⟨c, -, he⟩ := Result.bind_ok he
  obtain rfl := Except.ok.inj he
  intro name hname
  obtain ⟨other, hfirst, -⟩ := TransGen.head'_iff.1 hname
  rcases hfirst with ⟨t, ht, -⟩ | ⟨b, hb, -⟩
  · cases ht
  · cases hb

theorem isSorted_bindings_of_reaches {P : Engine → Call → Prop} {store : Store} {config : Config}
    {registry : Registry} (he : create store config registry = .ok e) (h : Reaches P e e') :
    e'.bindings.IsSorted := by
  refine h.invariant (I := fun e => e.bindings.IsSorted) (fun _ _ hsorted => hsorted)
    (fun _ _ hsorted => hsorted) (fun _ _ _ _ heffect => heffect.isSorted_bindings) ?_
  obtain ⟨c, -, he⟩ := Result.bind_ok he
  obtain rfl := Except.ok.inj he
  exact OrderedMap.isSorted_empty

/-- **Groups stay acyclic while no call closes a circle of them**, over any registry, and exactly such
a call ends that. -/
theorem groupsAcyclic_of_reaches {store : Store} {config : Config} {registry : Registry}
    (he : create store config registry = .ok e) (h : Reaches ClosesNoCircle e e') :
    e'.GroupsAcyclic ∧ ∀ c, (e'.perform c).engine.GroupsAcyclic ↔ e'.ClosesNoCircle c := by
  have hstep {e'' : Engine} (h : Reaches ClosesNoCircle e e'') (hacyclic : e''.GroupsAcyclic)
      (c : Call) : (e''.perform c).engine.GroupsAcyclic ↔ e''.ClosesNoCircle c :=
    hacyclic.perform_iff (keepsCanonical_of_reaches he (h.weaken fun _ _ _ => trivial)).2.1
      (isSorted_bindings_of_reaches he h) c
  have hacyclic : e'.GroupsAcyclic := by
    induction h with
    | refl => exact groupsAcyclic_create he
    | perform h c hc ih => exact (hstep h ih c).2 hc
    | addSource _ _ ih => exact ih
  exact ⟨hacyclic, hstep h hacyclic⟩

/-! ### Groups over groups -/

theorem closesNoCircle_of_none (hc : c.groupReferences? = none) : e.ClosesNoCircle c := by
  rintro - name groups hmade
  cases hc.symm.trans hmade

/-- A call makes no circle of a group that nothing refers to, but for itself. -/
theorem closesNoCircle_of_unreferenced {groups : List String}
    (hc : c.groupReferences? = some (name, groups)) (hself : name ∉ groups)
    (hnone : ∀ other, ¬ e.GroupRefersTo other name) : e.ClosesNoCircle c := by
  rintro - made others hmade group hgroup hleads
  obtain ⟨rfl, rfl⟩ := Prod.mk.inj (Option.some.inj (hmade.symm.trans hc))
  rcases ReflTransGen.cases_tail hleads with rfl | ⟨other, -, hother⟩
  · exact hself hgroup
  · exact hnone other hother

/-- It is enough to look at the group formulas and bindings there are. -/
theorem groupRefersTo_of_forall {p : String → String → Bool}
    (hformulas : e.groupFormulas.entries.all fun entry => (Tree.parse entry.2.text).toOption.all
      fun t => (t.leafNames groupOperator).all (p entry.1))
    (hbindings : e.bindings.entries.all fun entry => entry.2.rows.all fun row =>
      p entry.1 row.group)
    (h : e.GroupRefersTo name other) : p name other = true := by
  rcases h with ⟨t, ht, hother⟩ | ⟨b, hb, row, hrow, rfl⟩
  · cases hrecord : e.groupFormulas.find? name with
    | none =>
      rw [groupTree?, hrecord] at ht
      cases ht
    | some record =>
      rw [groupTree?, hrecord] at ht
      obtain ⟨u, hu, heq⟩ := Result.map_ok ht
      obtain rfl := Option.some.inj heq
      have hall := List.all_eq_true.1 hformulas _ (OrderedMap.mem_of_find? hrecord)
      rw [hu] at hall
      exact List.all_eq_true.1 hall other hother
  · exact List.all_eq_true.1 (List.all_eq_true.1 hbindings _ (OrderedMap.mem_of_find? hb)) row hrow

/-- Whether no group of an engine refers to a name, as far as can be computed. -/
def isUnreferenced (e : Engine) (name : String) : Bool :=
  (e.groupFormulas.entries.all fun entry => (Tree.parse entry.2.text).toOption.all
    fun t => (t.leafNames groupOperator).all (· != name)) &&
  e.bindings.entries.all fun entry => entry.2.rows.all fun row => row.group != name

theorem not_groupRefersTo_of_isUnreferenced (h : e.isUnreferenced name = true) (other : String) :
    ¬ e.GroupRefersTo other name := by
  intro hother
  obtain ⟨hformulas, hbindings⟩ := Bool.and_eq_true_iff.1 h
  have hne := groupRefersTo_of_forall (p := fun _ n => n != name) hformulas hbindings hother
  exact absurd rfl (bne_iff_ne.1 hne)

/-- The first engine with a stored group. -/
def tidal : Engine :=
  (overNothing .initial).performAll
    [.updateGroup "tide" ⟨⟨[dayOf2024 0]⟩, [("low", [1.0])]⟩ (dayOf2024 0)]

/-- This engine with a group formula of the stored group. -/
def doubling : Engine :=
  tidal.performAll [.registerGroupFormula "twice" "(* 2 (group \"tide\"))" ⟨none, false⟩]

/-- This engine with a group formula of both groups, and a formula. -/
def layered : Engine :=
  doubling.performAll [
    .registerGroupFormula "sum" "(group-add (group \"tide\") (group \"twice\"))" ⟨none, false⟩,
    .registerFormula "f" "(+ 1 (series \"a\"))" ⟨some false, false⟩]

/-- A second group formula may refer to the first, and a bound group to it in turn. -/
theorem groupsAcyclic_layered :
    Reaches ClosesNoCircle (overNothing .initial) layered ∧ layered.GroupsAcyclic ∧
      (layered.perform (.registerBinding "bound" "f" [⟨"a", "sum", "sea"⟩])).answer = .ok () ∧
      (layered.perform (.registerBinding "bound" "f"
        [⟨"a", "sum", "sea"⟩])).engine.GroupsAcyclic := by
  have hunreferenced : tidal.isUnreferenced "twice" = true ∧
      doubling.isUnreferenced "sum" = true ∧ layered.isUnreferenced "bound" = true := by
    decide +kernel
  obtain ⟨htwice, hsum, hbound⟩ := hunreferenced
  have hreaches : Reaches ClosesNoCircle (overNothing .initial) layered :=
    (((Reaches.refl.perform _ (closesNoCircle_of_none rfl)).perform _
      (closesNoCircle_of_unreferenced (by decide +kernel : _ = some ("twice", ["tide"]))
        (by decide) (not_groupRefersTo_of_isUnreferenced htwice))).perform _
      (closesNoCircle_of_unreferenced (by decide +kernel : _ = some ("sum", ["tide", "twice"]))
        (by decide) (not_groupRefersTo_of_isUnreferenced hsum))).perform _
      (closesNoCircle_of_none rfl)
  obtain ⟨hacyclic, hcalls⟩ := groupsAcyclic_of_reaches (create_overNothing rfl) hreaches
  refine ⟨hreaches, hacyclic, Result.ok_of_toOption (by decide +kernel), (hcalls _).2 ?_⟩
  exact closesNoCircle_of_unreferenced (by decide +kernel : _ = some ("bound", ["sum"]))
    (by decide) (not_groupRefersTo_of_isUnreferenced hbound)

/-- **A group formula may be replaced by one that names itself**: the call succeeds, and the group leads
back to itself. -/
theorem not_groupsAcyclic_selfReading :
    ¬ ∀ (store : Store) (config : Config) (first e : Engine),
      create store config .builtin = .ok first → Reaches (fun _ _ => True) first e →
      e.GroupsAcyclic := by
  intro hall
  let e := (doubling.perform
    (.registerGroupFormula "twice" "(* 2 (group \"twice\"))" ⟨none, true⟩)).engine
  have hreaches : Reaches (fun _ _ => True) (overNothing .initial) e :=
    ((Reaches.refl.perform _ trivial).perform _ trivial).perform _ trivial
  obtain ⟨t, ht, hmem⟩ := Result.exists_ok_some_any (x := e.groupTree? "twice")
    (p := fun t => decide ("twice" ∈ t.leafNames groupOperator)) (by decide +kernel)
  exact hall .empty .initial _ e (create_overNothing rfl) hreaches "twice"
    (.single (Or.inl ⟨t, ht, of_decide_eq_true hmem⟩))

end Engine

end SeriesAlgebra
