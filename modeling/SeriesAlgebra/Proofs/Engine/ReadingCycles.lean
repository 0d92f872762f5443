import SeriesAlgebra.Proofs.Engine.BoundGroups
import SeriesAlgebra.Proofs.Engine.DepthGuards
import SeriesAlgebra.Proofs.Engine.GroupFormulas
import SeriesAlgebra.Proofs.Engine.GroupReferences

/-!
# Cycles that readers find

A reader refuses to enter what is being read already. It keeps names on its path, and puts
`group ` before that of a group, so a group and a formula may be called alike. Otherwise it
raises no false alarm: what is on the path leads to what is read
(`Engine.IsReadBelow`), so that a name which is met again belongs to something that leads back
to itself, or to a group that leads to a formula with the name it is called by
(`Engine.IsShadowed`).

Series never lead back to themselves, and never to a group. So reading a series finds no cycle
at all, and reading a group none if there is none in what it leads to and no group among that
is shadowed (`Engine.read_ne_cycle`). A group that is shadowed may be refused for nothing
(`Engine.cycle_shadowed`).
-/

namespace SeriesAlgebra

open Evaluation Reading Relation SeriesAlgebra.Tree

/-- What can be read under a name. -/
inductive Entity
  | series (name : String)
  | group (name : String)

/-- How something is called on the path of what is being read. -/
def Entity.label : Entity → String
  | series name => name
  | group name => Engine.groupLabel name

namespace Engine

variable {e : Engine} {start x y : Entity} {path : List String} {levels : Nat}

/-! ### What leads to what -/

/-- **Whether something refers to something else**: a formula to series, a group formula to series and
groups, and a bound group to the groups of its rows and to what its formula refers to. -/
def LinksTo (e : Engine) : Entity → Entity → Prop
  | .series name, .series other => Mentions e.registry e.formulas name other
  | .series _, .group _ => False
  | .group name, .series other => Mentions e.registry e.groupFormulas name other ∨
      ∃ b, e.bindings.find? name = some b ∧ Mentions e.registry e.formulas b.formula other
  | .group name, .group other => e.GroupRefersTo name other

/-- **Whether a group is shadowed**: it leads to a formula with the name that it is called by. -/
def IsShadowed (e : Engine) (name : String) : Prop :=
  e.formulas.contains (groupLabel name) = true ∧
    TransGen e.LinksTo (.group name) (.series (groupLabel name))

/-- Whether nothing that something leads to is on a cycle, or is a group that is shadowed. -/
structure IsClear (e : Engine) (start : Entity) : Prop where
  acyclic : ∀ x, ReflTransGen e.LinksTo start x → ¬ TransGen e.LinksTo x x
  unshadowed : ∀ name, ReflTransGen e.LinksTo start (.group name) → ¬ e.IsShadowed name

/-- What series lead to are series, and formulas lead to them. -/
theorem exists_series_of_transGen (hregistry : e.registry.NamesByLeaves) {name : String}
    (h : TransGen e.LinksTo (.series name) x) :
    ∃ other, x = .series other ∧ TransGen (LeadsTo e.formulaTree?) name other := by
  have hleads {n m : String} : e.LinksTo (.series n) (.series m) → LeadsTo e.formulaTree? n m := by
    rintro ⟨t, ht, hmem⟩
    exact ⟨t, ht, hregistry.hasLeaf_of_mem_references (mem_sortedSet.1 hmem)⟩
  induction h with
  | @single x h =>
    cases x with
    | series other => exact ⟨other, rfl, .single (hleads h)⟩
    | group other => exact h.elim
  | @tail _ x _ h ih =>
    obtain ⟨middle, rfl, hmiddle⟩ := ih
    cases x with
    | series other => exact ⟨other, rfl, hmiddle.tail (hleads h)⟩
    | group other => exact h.elim

/-- Series lead to no cycle and to no group. -/
theorem isClear_series (hregistry : e.registry.NamesByLeaves) (hends : e.ReferencesEnd)
    (name : String) : e.IsClear (.series name) := by
  have hseries {x : Entity} (h : ReflTransGen e.LinksTo (.series name) x) :
      ∃ other, x = .series other := by
    rcases h.cases_head with rfl | ⟨_, hfirst, hrest⟩
    · exact ⟨name, rfl⟩
    · obtain ⟨other, rfl, -⟩ := exists_series_of_transGen hregistry (.head' hfirst hrest)
      exact ⟨other, rfl⟩
  constructor
  · intro x hx hcycle
    obtain ⟨other, rfl⟩ := hseries hx
    obtain ⟨_, heq, hleads⟩ := exists_series_of_transGen hregistry hcycle
    obtain rfl := Entity.series.inj heq
    exact hends.transGen.irrefl.irrefl _ (transGen_swap.2 hleads)
  · intro group hgroup
    obtain ⟨_, heq⟩ := hseries hgroup
    cases heq

/-- There is no cycle at all if no group leads back to itself. -/
theorem GroupsAcyclic.not_transGen (h : e.GroupsAcyclic) (hregistry : e.registry.NamesByLeaves)
    (hends : e.ReferencesEnd) (x : Entity) : ¬ TransGen e.LinksTo x x := by
  -- Nothing but a group leads to a group.
  have hgroups {n : String} {y : Entity} (hy : TransGen e.LinksTo (.group n) y) (m : String)
      (hm : y = .group m) : TransGen e.GroupRefersTo n m := by
    induction hy generalizing m with
    | single hfirst =>
      subst hm
      exact .single hfirst
    | @tail z _ _ hlast ih =>
      subst hm
      cases z with
      | series k => exact hlast.elim
      | group k => exact (ih k rfl).tail hlast
  cases x with
  | series n => exact (isClear_series hregistry hends n).acyclic _ .refl
  | group n => exact fun hn => h n (hgroups hn n rfl)

/-! ### Paths -/

/-- Whether something is entered when it is read. -/
def IsEntered (e : Engine) : Entity → Prop
  | .series name => e.formulas.contains name = true
  | .group _ => True

/-- **Whether something is read below a path**: it is led to, and so is all that is on the path, which
leads to it in turn. -/
structure IsReadBelow (e : Engine) (start : Entity) (path : List String) (x : Entity) : Prop where
  led : ReflTransGen e.LinksTo start x
  path : ∀ l ∈ path, ∃ y : Entity, y.label = l ∧ e.IsEntered y ∧
    ReflTransGen e.LinksTo start y ∧ TransGen e.LinksTo y x

theorem isReadBelow_start : e.IsReadBelow start [] start :=
  ⟨.refl, fun _ h => absurd h List.not_mem_nil⟩

theorem IsReadBelow.next (h : e.IsReadBelow start path x) (hx : e.IsEntered x)
    (hxy : e.LinksTo x y) : e.IsReadBelow start (path ++ [x.label]) y := by
  refine ⟨h.led.tail hxy, fun l hl => ?_⟩
  rcases List.mem_append.1 hl with hl | hl
  · obtain ⟨z, hz, hentered, hled, hzx⟩ := h.path l hl
    exact ⟨z, hz, hentered, hled, hzx.tail hxy⟩
  · exact ⟨x, (List.mem_singleton.1 hl).symm, hx, h.led, .single hxy⟩

/-- **What is entered is not on the path already.** -/
theorem IsReadBelow.label_not_mem (h : e.IsReadBelow start path x) (hclear : e.IsClear start)
    (hregistry : e.registry.NamesByLeaves) (hx : e.IsEntered x) : x.label ∉ path := by
  intro hmem
  obtain ⟨y, hlabel, hy, hled, hyx⟩ := h.path _ hmem
  -- Things of one kind with one label are the same, and lead back to themselves.
  cases y with
  | series n =>
    obtain ⟨m, rfl, -⟩ := exists_series_of_transGen hregistry hyx
    obtain rfl : n = m := hlabel
    exact hclear.acyclic _ hled hyx
  | group n =>
    cases x with
    | series m =>
      obtain rfl : groupLabel n = m := hlabel
      exact hclear.unshadowed n hled ⟨hx, hyx⟩
    | group m =>
      obtain rfl : n = m := String.append_right_inj _ |>.1 hlabel
      exact hclear.acyclic _ hled hyx

/-! ### Errors that are no cycles -/

/-- Whether an error does not say that there is a cycle. -/
def IsNoCycle (cause : EngineError) : Prop := ∀ path, cause ≠ .tree (.cycle path)

theorem isNoCycle_of_raises {call : Tree} {cause : EngineError} (h : Raises .builtin call cause) :
    IsNoCycle cause := by
  rintro path rfl
  rcases h.cases_builtin with h | h | ⟨_, _, h⟩ | ⟨_, h⟩ | h | ⟨h, -⟩ <;> cases h

theorem isNoCycle_of_isOperatorError {cause : EngineError} (h : cause.isOperatorError = true) :
    IsNoCycle cause := by
  rintro path rfl
  cases h

theorem failsOnly_enterBelow {label : String} (h : label ∉ path) :
    Result.FailsOnly IsNoCycle (e.enterBelow levels path label) := by
  rintro cause hcause path rfl
  cases (enterBelow_error h hcause).2

/-- Formulas that are kept are found and can be read. -/
theorem failsOnly_treeOf? {P : EngineError → Prop} {K : Tree → Prop}
    {records : OrderedMap String FormulaRecord} (h : AllKept K records) (name : String) :
    Result.FailsOnly P ((treeOf? (records.find? name)).mapError EngineError.tree) := by
  cases hrecord : records.find? name with
  | none => exact Result.failsOnly_ok none
  | some record =>
    obtain ⟨t, -, ht⟩ := h.tree_of_record hrecord
    rw [ht]
    exact Result.failsOnly_ok (some t)

/-! ### What is read -/

/-- **Whether a reader finds no cycle in what something refers to.** -/
structure FindsNoCycle (e : Engine) (A : Resolver Memo) (x : Entity) : Prop where
  autotrophic : A.autotrophic = Resolver.noAutotrophic
  series : ∀ name, e.LinksTo x (.series name) → ∀ q, FailsOnly IsNoCycle (A.series name q)
  group : ∀ name, e.LinksTo x (.group name) → ∀ q, FailsOnly IsNoCycle (A.group name q)
  primary : ∀ name, e.formulaTree? name = .ok none → ∀ q, FailsOnly IsNoCycle (A.series name q)

section

variable {enter : String → Except EngineError (Resolver Memo)} {A : Resolver Memo}
  {name group : String} {q : Query}

/-- **A formula is read without finding a cycle**, if it may be entered and what it refers to is read
so. -/
theorem failsOnly_readSeries (he : e.Consistent)
    (henter : e.IsEntered (.series name) → Result.FailsOnly IsNoCycle (enter name))
    (hbelow : e.IsEntered (.series name) → ∀ A, enter name = .ok A →
      e.FindsNoCycle A (.series name)) : FailsOnly IsNoCycle (e.readSeries enter name q) := by
  refine failsOnly_bind (failsOnly_settle (failsOnly_treeOf? he.formulas name))
    fun found _ _ hfound => ?_
  have htree := Result.mapError_ok (gives_settle.1 hfound).1
  split
  · exact failsOnly_settle
      (failsOnly_readPrimary (he.sources ▸ List.forall_mem_nil _) fun _ => nofun)
  · rename_i t
    have hentered : e.IsEntered (.series name) := contains_of_formulaTree? htree
    refine failsOnly_bind (failsOnly_settle (henter hentered)) fun A _ _ hA => ?_
    have hA := hbelow hentered A (gives_settle.1 hA).1
    have hnodes := (he.formulas.isKept htree).formula.nodes
    have hvalue : FailsOnly IsNoCycle (evaluate e.registry A t q) := by
      rw [he.registry]
      refine failsOnly_formula hnodes hA.autotrophic (fun _ _ => isNoCycle_of_raises)
        (fun other hother => hA.series other ⟨t, htree, mem_sortedSet.2 ?_⟩) q
      rw [he.registry]
      exact hother.mem_references hnodes
    refine failsOnly_bind hvalue fun v _ _ _ => failsOnly_bind (failsOnly_settle ?_) fun _ _ _ _ =>
      failsOnly_pure _
    exact fun cause hcause => isNoCycle_of_isOperatorError (v.failsAsOperator_asSeries name _ hcause)

/-- A group formula is read without finding a cycle, if what it refers to is. -/
theorem failsOnly_groupTree (he : e.Consistent) (hgroups : AllKept IsTableFormula e.groupFormulas)
    {t : Tree} (ht : e.groupTree? group = .ok (some t)) (hA : e.FindsNoCycle A (.group group)) :
    FailsOnly IsNoCycle (evaluate e.registry A t q) := by
  rw [he.registry]
  refine failsOnly_groupFormula (hgroups.of_treeOf? ht).nodes hA.autotrophic
    (fun _ _ => isNoCycle_of_raises) (fun name hname => hA.series name (Or.inl ⟨t, ht, ?_⟩))
    (fun name hname => hA.group name (Or.inl ⟨t, ht, hname⟩)) q
  rw [he.registry]
  exact mem_sortedSet.2 hname

/-! ### Bound groups -/

section

variable {binding : Binding} {t : Tree} {known : Scenarios}

theorem failsOnly_addScenarios {P : EngineError → Prop} {row : BindingRow}
    (h : ∀ q, FailsOnly P (A.group row.group q)) (known : Scenarios) :
    FailsOnly P (addScenarios A q known row) := by
  unfold addScenarios
  dsimp only
  split
  · exact failsOnly_pure _
  · exact failsOnly_bind (h q) fun _ _ _ _ => failsOnly_pure _

theorem failsOnly_boundColumns {P : EngineError → Prop} {rows : List BindingRow}
    {choice : Combination} (hP : ∀ group scenario, P (.missingScenario group scenario)) :
    Result.FailsOnly P (rows.mapM (boundColumn known choice)) := by
  refine Result.failsOnly_mapM fun row _ => ?_
  unfold boundColumn
  dsimp only
  split
  · exact Result.failsOnly_ok _
  · exact Result.failsOnly_error (hP _ _)

/-- The column of a combination is read without finding a cycle: what the formula asks for is bound,
or it is no formula. -/
theorem failsOnly_readCombination (he : e.Consistent) (hA : e.FindsNoCycle A x)
    (hnodes : t.Everywhere (IsExpandedNode (upTo binding.seriesNames e.formulaTree?) fun _ => True))
    (choice : Combination) :
    FailsOnly IsNoCycle (e.readCombination A binding t (e.rowsFor binding t) known q choice) := by
  refine failsOnly_bind (failsOnly_settle (failsOnly_boundColumns fun _ _ _ => nofun))
    fun bound _ _ hbound => ?_
  have hbound := (gives_settle.1 hbound).1
  have hvalue : FailsOnly IsNoCycle
      (evaluate e.registry (withBound A (.ofList bound)) t q) := by
    rw [he.registry]
    refine failsOnly_formula (fun u hu => (hnodes u hu).formula) rfl
      (fun _ _ => isNoCycle_of_raises) (fun name hname q' => ?_) q
    obtain ⟨items, hitems, hleaf⟩ := hname.exists_node
    unfold withBound
    dsimp only
    split
    · exact failsOnly_pure _
    · rename_i hfree
      have hnot : name ∉ binding.seriesNames := fun hmem => by
        obtain ⟨s, hs⟩ := (mem_seriesNames_iff_bound he hnodes hbound hitems hleaf).1 hmem
        cases hs.symm.trans hfree
      exact hA.primary name ((if_neg hnot).symm.trans ((hnodes _ hitems).leaf items name rfl hleaf)) q'
  refine failsOnly_bind hvalue fun v _ _ _ => failsOnly_bind (failsOnly_settle ?_) fun _ _ _ _ =>
    failsOnly_pure _
  exact fun cause hcause => isNoCycle_of_isOperatorError (v.failsAsOperator_asSeries _ _ hcause)

/-- **A bound group is read without finding a cycle**, if the groups of its rows are. -/
theorem failsOnly_readBoundGroup (he : e.Consistent) (horderly : e.Orderly)
    (hb : e.bindings.find? group = some binding) (hA : e.FindsNoCycle A (.group group)) :
    FailsOnly IsNoCycle (e.readBoundGroup A binding q) := by
  refine failsOnly_bind (failsOnly_settle (failsOnly_treeOf? he.formulas _))
    fun found _ _ hfound => ?_
  have hformula := Result.mapError_ok (gives_settle.1 hfound).1
  split
  · exact failsOnly_throw fun _ => nofun
  · rename_i t₀
    have hexpansion : Result.FailsOnly IsNoCycle (e.expand binding.seriesNames t₀) :=
      fun cause hcause path heq => horderly.expand_ne_cycle _ t₀ path (hcause.trans (congrArg _ heq))
    refine failsOnly_bind (failsOnly_settle hexpansion) fun t _ _ ht => ?_
    have hnodes := everywhere_expandBelow_upTo he.isFormula (fun _ _ _ _ _ _ => trivial)
      (he.isKept hformula).formula.nodes (fun _ _ _ => trivial)
      (Result.mapError_ok (gives_settle.1 ht).1)
    have hscenarios : FailsOnly IsNoCycle
        ((e.rowsFor binding t).foldlM (addScenarios A q) ⟨.empty, .empty⟩) :=
      failsOnly_foldlM (fun known row hrow => failsOnly_addScenarios (hA.group row.group
        (Or.inr ⟨binding, hb, row, (List.mem_filter.1 hrow).1, rfl⟩)) known) _
    refine failsOnly_bind hscenarios fun known _ _ _ => ?_
    split
    · exact failsOnly_bind (failsOnly_throw fun _ => nofun) fun _ _ _ h => (gives_throw.1 h).elim
    · refine failsOnly_bind (failsOnly_mapM fun choice _ => ?_) fun columns _ _ _ => ?_
      · exact failsOnly_readCombination he hA hnodes choice
      · exact failsOnly_settle (Result.failsOnly_mapError (fun _ _ => nofun) _)

end

/-- **A group is read without finding a cycle**, if it may be entered and what it refers to is read
so. -/
theorem failsOnly_readGroup (he : e.Reachable)
    (henter : Result.FailsOnly IsNoCycle (enter (groupLabel group)))
    (hbelow : ∀ A, enter (groupLabel group) = .ok A → e.FindsNoCycle A (.group group)) :
    FailsOnly IsNoCycle (e.readGroup enter group q) := by
  refine failsOnly_bind (failsOnly_settle (failsOnly_treeOf? he.isTableFormula group))
    fun found _ _ hfound => ?_
  have htree := Result.mapError_ok (gives_settle.1 hfound).1
  split
  · refine failsOnly_bind (failsOnly_settle henter) fun A _ _ hA => ?_
    have hA := hbelow A (gives_settle.1 hA).1
    refine failsOnly_bind (failsOnly_groupTree he.consistent he.isTableFormula htree hA)
      fun v _ _ _ => failsOnly_settle fun cause hcause => ?_
    exact isNoCycle_of_isOperatorError (v.failsAsOperator_asTable _ _ hcause)
  · split
    · rename_i binding hb
      refine failsOnly_bind (failsOnly_settle henter) fun A _ _ hA => ?_
      exact failsOnly_readBoundGroup he.consistent he.orderly hb (hbelow A (gives_settle.1 hA).1)
    · split
      · exact failsOnly_pure _
      · exact failsOnly_throw fun _ => nofun

end

/-! ### Readers -/

variable (e) in
/-- Whether a reader of an engine finds no cycle when it reads something. -/
def ReadsWithoutCycle (levels : Nat) (path : List String) : Entity → Prop
  | .series name => ∀ q, FailsOnly IsNoCycle ((e.readerBelow levels path).series name q)
  | .group name => ∀ q, FailsOnly IsNoCycle ((e.readerBelow levels path).group name q)

/-- **Nothing that is read below a path is on a cycle**, if there is none in what is led to and no
group that is shadowed. -/
theorem readsWithoutCycle (he : e.Reachable) (hclear : e.IsClear start)
    (hx : e.IsReadBelow start path x) : e.ReadsWithoutCycle levels path x := by
  have hconsistent := he.consistent
  have hregistry : e.registry.NamesByLeaves := by
    rw [hconsistent.registry]
    exact Registry.namesByLeaves_builtin
  -- Every name that is entered takes a level.
  induction levels using Nat.strong_induction_on generalizing path x with
  | _ levels ih =>
    have hnext {A : Resolver Memo} (hentered : e.IsEntered x)
        (hA : e.enterBelow levels path x.label = .ok A) : e.FindsNoCycle A x := by
      obtain ⟨l, rfl, rfl⟩ := enterBelow_ok hA
      have hbelow {y : Entity} (hxy : e.LinksTo x y) :
          e.ReadsWithoutCycle l (path ++ [x.label]) y :=
        ih l (Nat.lt_succ_self l) (hx.next hentered hxy)
      refine ⟨?_, fun name hname => hbelow hname, fun name hname => hbelow hname,
        fun name hname q => ?_⟩
      · rw [readerBelow_eq]
        rfl
      · rw [readerBelow_eq]
        exact failsOnly_remember
          (failsOnly_readSeries_primary hconsistent.sources hname (fun _ => nofun) _ q)
    have henter (hentered : e.IsEntered x) :
        Result.FailsOnly IsNoCycle (e.enterBelow levels path x.label) :=
      failsOnly_enterBelow (hx.label_not_mem hclear hregistry hentered)
    cases x with
    | series name =>
      intro q
      rw [readerBelow_eq]
      exact failsOnly_remember (failsOnly_readSeries hconsistent henter fun hentered _ => hnext hentered)
    | group name =>
      intro q
      rw [readerBelow_eq]
      exact failsOnly_readGroup he (henter trivial) fun _ => hnext trivial

/-- **Reading finds a cycle only where there is one**: in what a group leads to, where there is no
cycle and no group is shadowed, and nowhere in what a series leads to. -/
theorem read_ne_cycle (he : e.Reachable) (name : String) (q : Query) (path : List String) :
    e.read name q ≠ .error (.tree (.cycle path)) ∧
      (e.IsClear (.group name) → e.readTable name q ≠ .error (.tree (.cycle path))) := by
  constructor
  · intro h
    unfold read at h
    split at h
    · have hregistry : e.registry.NamesByLeaves := by
        rw [he.consistent.registry]
        exact Registry.namesByLeaves_builtin
      have hreads : e.ReadsWithoutCycle e.config.maxDepth [] (.series name) :=
        readsWithoutCycle he (isClear_series hregistry he.orderly.ends name) isReadBelow_start
      exact hreads q [] _ _ (Prod.ext (Result.map_error h) rfl) path rfl
    · unfold sourceOf? at h
      rw [he.consistent.sources] at h
      split at h <;> cases h
  · intro hclear h
    unfold readTable at h
    split at h
    · have hreads : e.ReadsWithoutCycle e.config.maxDepth [] (.group name) :=
        readsWithoutCycle he hclear isReadBelow_start
      exact hreads q [] _ _ (Prod.ext (Result.map_error h) rfl) path rfl
    · cases h

/-! ### A group that is shadowed -/

/-- An engine with a stored group and a group formula of it, and another group formula of a formula
that has the name by which the group itself is called. -/
def shadowed : Engine :=
  (overNothing .initial).performAll [
    .updateGroup "tide" ⟨⟨[dayOf2024 0]⟩, [("low", [1.0])]⟩ (dayOf2024 0),
    .registerGroupFormula "twice" "(* 2 (group \"tide\"))" ⟨none, false⟩,
    .updateSeries "a" (.ofPoints "a" [(dayOf2024 0, 1.0)]) (dayOf2024 0) false,
    .registerFormula "group g" "(series \"a\")" ⟨none, false⟩,
    .registerGroupFormula "g" "(group-add (series \"group g\"))" ⟨none, false⟩]

theorem reachable_shadowed : shadowed.Reachable := (reachable_overNothing rfl).performAll _

/-- In this engine one group refers to another. -/
theorem groupRefersTo_shadowed {n m : String} (h : shadowed.GroupRefersTo n m) :
    n = "twice" ∧ m = "tide" := by
  have hall := groupRefersTo_of_forall (p := fun n m => n == "twice" && m == "tide")
    (by decide +kernel) (by decide +kernel) h
  simpa using hall

theorem groupsAcyclic_shadowed : shadowed.GroupsAcyclic := by
  intro n hn
  obtain ⟨_, hfirst, -⟩ := TransGen.head'_iff.1 hn
  obtain ⟨_, -, hlast⟩ := TransGen.tail'_iff.1 hn
  exact absurd ((groupRefersTo_shadowed hfirst).1.symm.trans (groupRefersTo_shadowed hlast).2)
    (by decide)

/-- There is no cycle in this engine. -/
theorem not_transGen_shadowed (x : Entity) : ¬ TransGen shadowed.LinksTo x x := by
  have hregistry : shadowed.registry.NamesByLeaves := by
    rw [reachable_shadowed.consistent.registry]
    exact Registry.namesByLeaves_builtin
  exact groupsAcyclic_shadowed.not_transGen hregistry reachable_shadowed.orderly.ends x

/-- The first group formula may be read: what it leads to is not shadowed. -/
theorem read_shadowed_twice : shadowed.IsClear (.group "twice") ∧
    ∀ path, shadowed.readTable "twice" .latest ≠ .error (.tree (.cycle path)) := by
  have hclear : shadowed.IsClear (.group "twice") := by
    refine ⟨fun x _ => not_transGen_shadowed x, fun n hn hshadowed => ?_⟩
    have hname : n = "twice" ∨ n = "tide" := by
      rcases ReflTransGen.cases_tail hn with heq | ⟨y, -, hlast⟩
      · exact Or.inl (Entity.group.inj heq)
      · cases y with
        | series k => exact hlast.elim
        | group k => exact Or.inr (groupRefersTo_shadowed hlast).2
    have hfree : shadowed.formulas.contains (groupLabel "twice") = false ∧
        shadowed.formulas.contains (groupLabel "tide") = false := by decide +kernel
    rcases hname with rfl | rfl
    · exact absurd (hfree.1.symm.trans hshadowed.1) nofun
    · exact absurd (hfree.2.symm.trans hshadowed.1) nofun
  exact ⟨hclear, fun path => (read_ne_cycle reachable_shadowed "twice" .latest path).2 hclear⟩

/-- **A group that is shadowed is refused** though there is no cycle in what it leads to. -/
theorem cycle_shadowed : ¬ ∀ (e : Engine), e.Reachable → ∀ name,
    (∀ x, ReflTransGen e.LinksTo (.group name) x → ¬ TransGen e.LinksTo x x) →
    ∀ q path, e.readTable name q ≠ .error (.tree (.cycle path)) := by
  intro hall
  obtain ⟨cause, hcause, hp⟩ := Result.exists_error_any
    (p := fun cause => match cause with | .tree (.cycle _) => true | _ => false)
    (x := shadowed.readTable "g" .latest) (by decide +kernel)
  split at hp
  · exact hall shadowed reachable_shadowed "g" (fun x _ => not_transGen_shadowed x) .latest _ hcause
  · cases hp

end Engine

end SeriesAlgebra
