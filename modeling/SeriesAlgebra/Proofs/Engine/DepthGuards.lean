import SeriesAlgebra.Proofs.Engine.Acyclic
import SeriesAlgebra.Proofs.Engine.Memory
import SeriesAlgebra.Proofs.Evaluation.Rules
import SeriesAlgebra.Proofs.Formula.Relabeling.References

/-!
# Two bounds on nesting

How deep formulas may refer to formulas is checked twice, when a formula is expanded and when it is
read. Expansion counts the names that are inlined, and refuses the one that is too many wherever it
meets a leaf; a reader counts the names that are being read, that of the formula itself among them,
and refuses to enter another one. So a chain of as many references as there may be names is read
only as far as its last formula, and is expanded if there is nothing to be inlined at its end
(`Tree.EndsBare`).

In all other cases what can be expanded can be read: reading closes no cycle, and does not nest too
deep (`Engine.read_of_expand`).
-/

namespace SeriesAlgebra

open Evaluation Reading SeriesAlgebra.Tree

namespace Tree

variable {resolve : String → Except TreeError (Option Tree)} {limit : Nat}

/-- **Whether a chain of so many references ends in a formula without a leaf.** -/
inductive EndsBare (resolve : String → Except TreeError (Option Tree)) : Nat → String → Prop
  | here {name : String} {t : Tree} (h : resolve name = .ok (some t))
      (hbare : ∀ other, ¬ t.HasLeaf other) : EndsBare resolve 0 name
  | next {n : Nat} {name other : String} (h : LeadsTo resolve name other)
      (hends : EndsBare resolve n other) : EndsBare resolve (n + 1) name

/-- Where no names are left to inline, what can be expanded has no leaves. -/
theorem not_hasLeaf_of_expandBelow {path : List String} {t u : Tree}
    (h : expandBelow resolve [] limit 0 path t = .ok u) (name : String) : ¬ t.HasLeaf name := by
  intro hleaf
  rw [expandBelow_eq] at h
  obtain ⟨items, v, hv⟩ := hleaf.image_ok h
  rw [leafExpansion, expandLeafBelow] at hv
  rw [expandLeaf, List.contains_nil, if_neg Bool.false_ne_true] at hv
  obtain ⟨expandBody, hinline, -⟩ := Result.bind_ok hv
  split at hinline <;> cases hinline

/-- **A formula that gives a series fails with what its leaves fail with**, or with what a call of it
raises. -/
theorem failsOnly_formula {σ : Type} {P : EngineError → Prop} {A : Resolver σ} {t : Tree}
    (ht : t.Everywhere IsFormulaNode) (hA : A.autotrophic = Resolver.noAutotrophic)
    (hraised : ∀ u e, Raises .builtin u e → P e)
    (hleaf : ∀ name, t.HasLeaf name → ∀ q, FailsOnly P (A.series name q)) (q : Query) :
    FailsOnly P (evaluate .builtin A t q) := by
  have happlies : (Rule.failing σ P).Applies .builtin (· ∈ t.nodes) A A := by
    refine ⟨fun hitems _ a ha => ?_, fun _ he => hraised _ _ he, fun {call name} hcall _ hname => ?_,
      fun {call name} hcall hop => ?_, fun call q => ?_⟩
    · exact nodes_trans (mem_nodes_list.2 (Or.inr ⟨a, List.mem_of_mem_tail ha, a.self_mem_nodes⟩))
        hitems
    · cases call with
      | atom l => cases hname
      | list items => exact hleaf name (hasLeaf_of_mem_nodes ht hcall hname)
    · cases call with
      | atom l => cases hop
      | list items =>
        obtain ⟨b, hb, hgroup, -⟩ := ht _ hcall
        rw [hb.operatorOf?] at hop
        exact absurd (Operator.builtin.inj (Option.some.inj hop)) hgroup
    · rw [hA]
      exact failsOnly_pure none
  exact happlies.evaluate t.self_mem_nodes q

end Tree

namespace Engine

variable {e : Engine}

/-- What a memory is asked for fails as what is computed in its place. -/
theorem failsOnly_remember {P : EngineError → Prop} {key : String × Query}
    {compute : Reading Memo Series} (h : FailsOnly P compute) :
    FailsOnly P (Memo.remember key compute) := by
  have hget : FailsOnly P (get : Reading Memo Memo) := failsOnly_of_gives fun s => ⟨s, s, rfl⟩
  refine failsOnly_bind hget fun memo _ _ _ => ?_
  split
  · exact failsOnly_pure _
  · refine failsOnly_bind h fun s _ _ _ => ?_
    exact failsOnly_of_gives fun memo => ⟨s, (key, s) :: memo, rfl⟩

/-- Whether an error is not one of nesting, or says that a chain of references is too long which
ends in a formula without a leaf. -/
def NestsOnly (e : Engine) (levels : Nat) (name : String) (cause : EngineError) : Prop :=
  (∀ path, cause ≠ .tree (.cycle path)) ∧ ∀ limit, cause = .tree (.tooDeep limit) →
    limit = e.config.maxDepth ∧ EndsBare e.formulaTree? levels name

theorem nestsOnly_of_ne {levels : Nat} {name : String} {cause : EngineError}
    (h : ∀ f, cause = .tree f → (∀ path, f ≠ .cycle path) ∧ ∀ limit, f ≠ .tooDeep limit) :
    e.NestsOnly levels name cause :=
  ⟨fun path heq => (h _ heq).1 path rfl, fun limit heq => absurd rfl ((h _ heq).2 limit)⟩

theorem nestsOnly_of_raises {levels : Nat} {name : String} {call : Tree} {cause : EngineError}
    (h : Raises .builtin call cause) : e.NestsOnly levels name cause := by
  refine nestsOnly_of_ne fun f hf => ?_
  subst hf
  have hcases := h.cases_builtin
  simp only [EngineError.isOperatorError, Bool.false_eq_true, reduceCtorEq, exists_false, false_or,
    EngineError.tree.injEq, false_and, or_false] at hcases
  rcases hcases with rfl | ⟨operator, keyword, rfl⟩ <;>
    exact ⟨fun _ => TreeError.noConfusion, fun _ => TreeError.noConfusion⟩

theorem nestsOnly_of_leaf {levels : Nat} {name other : String} {cause : EngineError}
    (hleads : LeadsTo e.formulaTree? name other) (h : e.NestsOnly levels other cause) :
    e.NestsOnly (levels + 1) name cause :=
  ⟨h.1, fun limit heq => ⟨(h.2 limit heq).1, .next hleads (h.2 limit heq).2⟩⟩

/-- A series that is no formula is there, or it is not known. -/
theorem failsOnly_readPrimary {P : EngineError → Prop} {name : String} {q : Query}
    (hsources : ∀ s ∈ e.sources, Result.FailsOnly P (s.read? name q)) (hP : P (.unknownName name)) :
    Result.FailsOnly P (e.readPrimary name q) := by
  unfold readPrimary
  split
  · exact Result.failsOnly_ok _
  · split
    · exact Result.failsOnly_error hP
    · rename_i source hsource
      refine Result.failsOnly_bind (hsources source (List.mem_of_find?_eq_some hsource))
        fun found _ => ?_
      cases found with
      | none => exact Result.failsOnly_error hP
      | some s => exact Result.failsOnly_ok s

theorem failsOnly_readSeries_primary {σ : Type} {P : EngineError → Prop} (hsources : e.sources = [])
    {name : String} (hname : e.formulaTree? name = .ok none) (hP : P (.unknownName name))
    (enter : String → Except EngineError (Resolver σ)) (q : Query) :
    FailsOnly P (e.readSeries enter name q) := by
  refine failsOnly_bind (failsOnly_settle ?_) fun found _ _ hfound => ?_
  · rw [hname]
    exact Result.failsOnly_ok _
  · rw [hname] at hfound
    obtain rfl := Except.ok.inj (gives_settle.1 hfound).1
    exact failsOnly_settle (failsOnly_readPrimary (hsources ▸ List.forall_mem_nil _) hP)

theorem failsOnly_primary (hsources : e.sources = []) {name : String}
    (hname : e.formulaTree? name = .ok none) {levels l : Nat} {path : List String} {other : String}
    (q : Query) : FailsOnly (e.NestsOnly l other) ((e.readerBelow levels path).series name q) := by
  rw [readerBelow_eq]
  exact failsOnly_remember (failsOnly_readSeries_primary hsources hname
    (nestsOnly_of_ne fun f hf => by cases hf) _ q)

/-- Reading a formula below a path of names, all of which lead to it, closes no cycle. -/
theorem nestsOnly_enterBelow (hends : e.ReferencesEnd) {levels : Nat} {path : List String}
    {name : String}
    (hpath : ∀ other ∈ path, Relation.TransGen (LeadsTo e.formulaTree?) other name)
    (hbare : levels = 0 → EndsBare e.formulaTree? 0 name) {cause : EngineError}
    (h : e.enterBelow levels path name = .error cause) : e.NestsOnly levels name cause := by
  have hnot : name ∉ path := fun hmem =>
    hends.transGen.irrefl.irrefl name (Relation.transGen_swap.2 (hpath name hmem))
  obtain ⟨hlevels, rfl⟩ := enterBelow_error hnot h
  refine ⟨fun path heq => ?_, fun limit heq => ⟨?_, ?_⟩⟩
  · cases heq
  · exact (TreeError.tooDeep.inj (EngineError.tree.inj heq)).symm
  · rw [hlevels]
    exact hbare hlevels

/-- **What can be expanded with so many names can be read with so many levels**, but for chains that
end in a formula without a leaf. Every name on the path leads to the name that is read. -/
theorem failsOnly_readerBelow (he : e.Consistent) (hends : e.ReferencesEnd) {levels : Nat}
    {path inlined : List String} {name : String} {t u : Tree}
    (ht : e.formulaTree? name = .ok (some t))
    (hu : expandBelow e.formulaTree? [] e.config.maxDepth levels inlined t = .ok u)
    (hpath : ∀ other ∈ path, Relation.TransGen (LeadsTo e.formulaTree?) other name) (q : Query) :
    FailsOnly (e.NestsOnly levels name) ((e.readerBelow levels path).series name q) := by
  induction levels using Nat.strong_induction_on generalizing path inlined name t u q with
  | _ levels ih =>
    have hbare (hlevels : levels = 0) : EndsBare e.formulaTree? 0 name := by
      subst hlevels
      exact .here ht (not_hasLeaf_of_expandBelow hu)
    rw [readerBelow_eq]
    refine failsOnly_remember (failsOnly_bind (failsOnly_settle ?_) fun found _ _ hfound => ?_)
    · rw [ht]
      exact Result.failsOnly_ok _
    rw [ht] at hfound
    obtain rfl := Except.ok.inj (gives_settle.1 hfound).1
    refine failsOnly_bind (failsOnly_settle fun cause => nestsOnly_enterBelow hends hpath hbare)
      fun below _ _ hbelow => ?_
    obtain ⟨l, rfl, rfl⟩ := enterBelow_ok (gives_settle.1 hbelow).1
    refine failsOnly_bind ?_ fun v _ _ _ => failsOnly_bind (failsOnly_settle fun cause hcause => ?_)
      fun _ _ _ _ => failsOnly_pure _
    · rw [he.registry]
      refine failsOnly_formula (he.formulas.isKept ht).formula.nodes ?_ (fun _ _ => nestsOnly_of_raises)
        (fun other hother q => ?_) q
      · rw [readerBelow_eq]
        rfl
      · have hleads : LeadsTo e.formulaTree? name other := ⟨t, ht, hother⟩
        rw [expandBelow_eq] at hu
        obtain ⟨items, v, hv⟩ := hother.image_ok hu
        rcases leafExpansion_ok hv with ⟨hnone, -⟩ | ⟨below, s, body, hlevels, hs, hbody, -⟩
        · exact failsOnly_primary he.sources hnone q
        · obtain rfl : l = below := Nat.succ.inj hlevels
          refine fun s e s' hrun => nestsOnly_of_leaf hleads
            (ih l (Nat.lt_succ_self l) hs hbody (fun first hfirst => ?_) q s e s' hrun)
          rcases List.mem_append.1 hfirst with hfirst | hfirst
          · exact (hpath first hfirst).tail hleads
          · obtain rfl := List.mem_singleton.1 hfirst
            exact .single hleads
    · refine nestsOnly_of_ne fun f hf => ?_
      subst hf
      cases v.failsAsOperator_asSeries name _ hcause

/-- **A formula that can be expanded can be read without closing a cycle, and without nesting too
deep** unless a chain of as many references as there may be leads from it to a formula without a
leaf. -/
theorem read_of_expand (he : e.Reachable) {name : String} {t u : Tree}
    (ht : e.formulaTree? name = .ok (some t)) (hu : e.expand [] t = .ok u) (q : Query) :
    (∀ path, e.read name q ≠ .error (.tree (.cycle path))) ∧
    ∀ limit, e.read name q = .error (.tree (.tooDeep limit)) →
      limit = e.config.maxDepth ∧ EndsBare e.formulaTree? e.config.maxDepth name := by
  have hfails (cause : EngineError) (h : e.read name q = .error cause) :
      e.NestsOnly e.config.maxDepth name cause := by
    obtain ⟨record, hrecord, -⟩ := formulaTree?_some ht
    have hcontains : e.formulas.contains name = true := by
      rw [OrderedMap.contains, hrecord]
      rfl
    rw [read, if_pos hcontains] at h
    exact failsOnly_readerBelow he.consistent he.orderly.ends ht (Result.mapError_ok hu)
      (fun _ h => absurd h List.not_mem_nil) q [] cause _ (Prod.ext (Result.map_error h) rfl)
  exact ⟨fun path h => (hfails _ h).1 path rfl, fun limit h => (hfails _ h).2 limit rfl⟩

/-- An engine whose formulas may refer to formulas once, and do. -/
def shallow : Engine :=
  let e := overNothing { Config.initial with maxDepth := 1 }
  let e := (e.registerFormula "inner"
    "(constant 1 \"2024-01-01\" \"2024-01-02\" \"D\" \"2024-01-01\")" ⟨none, false⟩).engine
  (e.registerFormula "outer" "(series \"inner\")" ⟨none, false⟩).engine

theorem reachable_shallow : shallow.Reachable :=
  .registerFormula (.registerFormula (reachable_overNothing rfl) _ _ _) _ _ _

/-- The outer formula can be expanded and cannot be read. -/
theorem shallow_outer : ∃ t u, shallow.formulaTree? "outer" = .ok (some t) ∧
    shallow.expand [] t = .ok u ∧
    shallow.read "outer" .latest = .error (.tree (.tooDeep shallow.config.maxDepth)) := by
  let outer : Tree := list [symbol "series", str "inner"]
  have hcomputed : shallow.config.maxDepth = 1 ∧
      (shallow.formulaTree? "outer").toOption = some (some outer) ∧
      (shallow.expand [] outer).toOption.isSome = true := by decide +kernel
  obtain ⟨hdepth, htree, hexpand⟩ := hcomputed
  obtain ⟨u, hu⟩ := Result.exists_ok hexpand
  obtain ⟨cause, hcause, hp⟩ := Result.exists_error_any
    (p := fun cause => match cause with | .tree (.tooDeep limit) => limit == 1 | _ => false)
    (x := shallow.read "outer" .latest) (by decide +kernel)
  refine ⟨outer, u, Result.ok_of_toOption htree, hu, ?_⟩
  split at hp
  · rw [hcause, hdepth, beq_iff_eq.1 hp]
  · cases hp

theorem endsBare_shallow :
    (∀ path, shallow.read "outer" .latest ≠ .error (.tree (.cycle path))) ∧
    shallow.read "outer" .latest = .error (.tree (.tooDeep shallow.config.maxDepth)) ∧
    EndsBare shallow.formulaTree? shallow.config.maxDepth "outer" := by
  obtain ⟨t, u, ht, hu, hdeep⟩ := shallow_outer
  obtain ⟨hcycle, hends⟩ := read_of_expand reachable_shallow ht hu .latest
  exact ⟨hcycle, hdeep, (hends _ hdeep).2⟩

/-- **A reader counts the formula that is read, and expansion does not**: a formula that was
registered and can be expanded nests too deep to be read. -/
theorem tooDeep_shallow : ¬ ∀ e : Engine, e.Reachable → ∀ name t u q,
    e.formulaTree? name = .ok (some t) → e.expand [] t = .ok u →
    ∀ limit, e.read name q ≠ .error (.tree (.tooDeep limit)) := by
  intro h
  obtain ⟨t, u, ht, hu, hdeep⟩ := shallow_outer
  exact h shallow reachable_shallow "outer" t u .latest ht hu _ hdeep

end Engine

end SeriesAlgebra
