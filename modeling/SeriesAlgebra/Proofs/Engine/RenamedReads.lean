import SeriesAlgebra.Proofs.Engine.Acyclic
import SeriesAlgebra.Proofs.Engine.Inlining
import SeriesAlgebra.Proofs.Engine.Relabeling.Staircases

/-!
# Reads after a renaming

A renaming gives a series another name, in the store or among the formulas, and in all
formulas that refer to it. What is read of any series afterwards is what was read before,
up to the names of series (`Engine.readsAlike_renamed`) – provided that the old name
stands after the symbol `series` in no place where it is not that of a leaf. There the
renaming replaces it as well, and the formula need not mean the same any more
(`Engine.read_renamed_ne`).
-/

namespace SeriesAlgebra

open Evaluation Series

namespace Engine

open SeriesAlgebra.Tree

variable {e e' : Engine} {old new : String}

/-- **Whether a series is read in one engine as another one in another engine**, up to the names of
series. -/
structure ReadsAlike (e : Engine) (name : String) (e' : Engine) (name' : String) : Prop where
  read : ∀ q, Yields (Option.Rel Similar) (e.read name q) (e'.read name' q)
  history : ∀ q, Yields (Option.Rel History.Similar) (e.history name q) (e'.history name' q)
  staircase : ∀ delay window,
    Yields (Option.Rel Similar) (e.staircase name delay window) (e'.staircase name' delay window)

theorem Relabels.readsAlike {f : String → String} {P : String → Prop} (h : Relabels f P e e')
    {name : String} (hname : P name) : e.ReadsAlike name e' (f name) :=
  ⟨h.read hname, h.history hname, h.staircase hname⟩

/-- Whether the formulas that refer to a series have its name after the symbol `series` only where
it is that of a leaf. -/
def NamedByLeaves (e : Engine) (name : String) : Prop :=
  ∀ other t, e.formulaTree? other = .ok (some t) → name ∈ t.seriesReferences e.registry →
    t.NamesOnlyLeaves name

/-! ### Renamed engines -/

section

variable {read readGroups : List ReadRecord} {store : Store}
  {moved : OrderedMap String FormulaRecord}

/-- The formulas after a renaming are those of before, with another name in their leaves. -/
theorem Renames.relabelsAll (hr : e.Renames old new read readGroups store moved) (he : e.Consistent)
    (horderly : e.Orderly) (hleaves : e.NamedByLeaves old)
    (hformulas : e'.formulas = renameReferences old new read moved) :
    RelabelsAll (renamed old new) (· ≠ new) e.formulaTree? e'.formulaTree? := by
  obtain ⟨hrenamed, -⟩ := formulaTree?_renamed canBeKept he.formulas he.names hr
  have htree (name : String) (hname : name ≠ new) : e'.formulaTree? (renamed old new name) =
      (e.formulaTree? name).map (Option.map (e.rewritten old new name)) := by
    rw [formulaTree?, hformulas]
    exact hrenamed name hname
  refine ⟨fun a b => renamed_inj, he.isFormula, fun name t ht other hother heq => ?_,
    fun name hname hnone => ?_, fun name t hname ht => ⟨e.rewritten old new name t, ?_, ?_⟩⟩
  · exact hr.not_hasLeaf he.formulas he.registry ht (heq ▸ hother)
  · rw [htree name hname, hnone]
    rfl
  · rw [htree name hname, ht]
    rfl
  · unfold rewritten
    split
    · rename_i hrefers
      exact relabels_renameSeries (he.isKept ht).formula.nodes (hleaves name t ht hrefers.2)
    · rename_i hrefers
      -- The formula has no leaf of the old name; the renamed one has none since it would refer to
      -- itself.
      refine relabels_self fun n hn => if_neg fun heq => hrefers ⟨?_, ?_⟩
      · rintro rfl
        exact horderly.not_hasLeaf_self ht (heq ▸ hn)
      · exact heq ▸ mem_seriesReferences_of_hasLeaf he.formulas he.registry ht hn

/-- The stored series after a renaming are those of before. -/
theorem Renames.stored (hr : e.Renames old new read readGroups store moved) {name : String}
    (hname : name ≠ new) : Option.Rel SimilarStored (e.store.series.find? name)
      (store.series.find? (renamed old new name)) := by
  have hself (s : Option StoredSeries) : Option.Rel SimilarStored s s := by
    cases s with
    | none => exact .none
    | some s => exact .some (History.Similar.refl _)
  unfold renamed
  rcases moveSeries_cases hr.moves with ⟨-, hstore, -⟩ | ⟨hstored, rfl, -⟩
  · obtain ⟨-, stored, hstored, rfl⟩ := Store.rename_ok hstore
    split
    · rename_i heq
      subst heq
      rw [hstored, Store.withStored, OrderedMap.find?_insert_self]
      exact .some (History.similar_mapValues _ fun s => ⟨rfl, rfl⟩)
    · rename_i hne
      rw [Store.withStored, OrderedMap.find?_insert_of_ne _ hname, Store.without,
        OrderedMap.find?_erase_of_ne _ hne]
      exact hself _
  · split
    · rename_i heq
      subst heq
      rw [OrderedMap.contains_eq_false_iff.1 hstored,
        OrderedMap.contains_eq_false_iff.1 hr.storeFree]
      exact .none
    · exact hself _

/-- **After a renaming an engine holds what it held before**, with another name for one series. -/
theorem Renames.relabels (hr : e.Renames old new read readGroups store moved) (he : e.Consistent)
    (horderly : e.Orderly) (hleaves : e.NamedByLeaves old) (he' : e'.Consistent)
    (hconfig : e'.config = e.config) (hstore : e'.store = store)
    (hformulas : e'.formulas = renameReferences old new read moved) :
    Relabels (renamed old new) (· ≠ new) e e' where
  source := he
  target := he'
  config := hconfig
  formulas := hr.relabelsAll he horderly hleaves hformulas
  stored name hname := hstore ▸ hr.stored hname
  known name stored hstored heq := by
    have hfree := OrderedMap.contains_eq_false_iff.1 hr.storeFree
    rw [← heq, hstored] at hfree
    cases hfree

/-- The old name is not known any more. -/
theorem Renames.not_contains_old (hr : e.Renames old new read readGroups store moved)
    (he : e.Consistent) (hsources : e'.sources = []) (hstore : e'.store = store)
    (hformulas : e'.formulas = renameReferences old new read moved) : e'.contains old = false := by
  have hold := (formulaTree?_renamed canBeKept he.formulas he.names hr).2
  have hstored : store.contains old = false := by
    rcases moveSeries_cases hr.moves with ⟨-, hrename, -⟩ | ⟨hstored, rfl, -⟩
    · rw [Bool.eq_false_iff]
      intro hcontains
      rcases (Store.contains_rename hrename old).1 hcontains with heq | ⟨hne, -⟩
      · exact hr.differ heq
      · exact hne rfl
    · exact hstored
  unfold contains sourceOf?
  rw [hsources, hstore, hformulas, hstored, OrderedMap.contains, hold]
  rfl

end

/-! ### Renaming -/

theorem readsAlike_refl (e : Engine) (name : String) : e.ReadsAlike name e name := by
  have hsome {α : Type} {R : α → α → Prop} (hR : ∀ a, R a a) (x : Except EngineError (Option α)) :
      Yields (Option.Rel R) x x := by
    intro a ha
    refine ⟨a, ha, ?_⟩
    cases a with
    | none => exact .none
    | some a => exact .some (hR a)
  exact ⟨fun _ => hsome Series.Similar.refl _, fun _ => hsome History.Similar.refl _,
    fun _ _ => hsome Series.Similar.refl _⟩

/-- A renaming to the same name changes nothing. -/
theorem rename_self (e : Engine) (name : String) : (e.rename name name).engine = e := by
  unfold rename
  split
  · rfl
  · rw [if_pos rfl]

/-- **Whatever is read of a series is read of it after a renaming**, up to the names of series, if
the old name is only that of leaves; and the old name is not known any more. -/
theorem readsAlike_renamed (he : e.Reachable) (hanswer : (e.rename old new).answer = .ok ())
    (hleaves : e.NamedByLeaves old) :
    (∀ name, e.contains name = true →
      e.ReadsAlike name (e.rename old new).engine (renamed old new name)) ∧
    (old ≠ new → (e.rename old new).engine.contains old = false) := by
  by_cases hsame : old = new
  · subst hsame
    refine ⟨fun name _ => ?_, fun hne => absurd rfl hne⟩
    rw [renamed_self, rename_self]
    exact e.readsAlike_refl name
  have hconsistent := he.consistent
  rcases e.ends_rename old new with ⟨records, cause, heq, -⟩ | ⟨e', records, heq, heffect, -⟩
  · rw [heq] at hanswer
    cases hanswer
  · rw [heq]
    have hconsistent' := (hconsistent.effect heffect).noteAll records
    cases heffect with
    | bind hgroup => cases hgroup
    | renameSame => exact absurd rfl hsame
    | rename hr =>
      refine ⟨fun name hname => ?_, fun _ =>
        hr.not_contains_old hconsistent hconsistent'.sources rfl rfl⟩
      refine (hr.relabels hconsistent he.orderly hleaves hconsistent' rfl rfl rfl).readsAlike ?_
      rintro rfl
      -- The new name is not known before.
      unfold contains sourceOf? at hname
      rw [hconsistent.sources, hr.storeFree, hr.formulasFree] at hname
      cases hname

/-- It is enough to look at the formulas there are. -/
theorem namedByLeaves_of_forall {name : String} (h : e.formulas.values.all fun record =>
    (Tree.parse record.text).toOption.all fun t => decide (t.NamesOnlyLeaves name)) :
    e.NamedByLeaves name := by
  intro other t ht _
  obtain ⟨record, hrecord, hparse⟩ := formulaTree?_some ht
  have hall := List.all_eq_true.1 h record
    (List.mem_map.2 ⟨_, OrderedMap.mem_of_find? hrecord, rfl⟩)
  rw [hparse] at hall
  exact of_decide_eq_true hall

/-- The engine in which a formula refers to another one, and that to a stored series. -/
def nestingSum : Engine := nesting "(+ 1 (series \"a\"))"

/-- A nested formula is read as before once the stored series has another name. -/
theorem readsAlike_nesting : ∃ s h c,
    nestingSum.read "outer" .latest = .ok (some s) ∧
    nestingSum.history "outer" (.allIn .unbounded) = .ok (some h) ∧
    nestingSum.staircase "a" (.microseconds 0) .unbounded = .ok (some c) ∧
    (∃ s', (nestingSum.rename "a" "z").engine.read "outer" .latest = .ok (some s') ∧ s.Similar s') ∧
    (∃ h', (nestingSum.rename "a" "z").engine.history "outer" (.allIn .unbounded) = .ok (some h') ∧
      History.Similar h h') ∧
    (∃ c', (nestingSum.rename "a" "z").engine.staircase "z" (.microseconds 0) .unbounded =
      .ok (some c') ∧ c.Similar c') ∧
    (nestingSum.rename "a" "z").engine.contains "a" = false := by
  obtain ⟨s, hs⟩ := Result.exists_ok_some (x := nestingSum.read "outer" .latest) (by decide +kernel)
  obtain ⟨h, hh⟩ := Result.exists_ok_some (x := nestingSum.history "outer" (.allIn .unbounded))
    (by decide +kernel)
  obtain ⟨c, hc⟩ := Result.exists_ok_some
    (x := nestingSum.staircase "a" (.microseconds 0) .unbounded) (by decide +kernel)
  have hreachable : nestingSum.Reachable := reachable_nesting _
  have hanswer : (nestingSum.rename "a" "z").answer = .ok () :=
    Result.ok_of_toOption (by decide +kernel)
  obtain ⟨halike, hgone⟩ := readsAlike_renamed hreachable hanswer
    (namedByLeaves_of_forall (by decide +kernel))
  have hsome {α : Type} {R : α → α → Prop} {a : α} {x : Except EngineError (Option α)}
      (hx : ∃ b, x = .ok b ∧ Option.Rel R (some a) b) : ∃ b, x = .ok (some b) ∧ R a b := by
    obtain ⟨_, hb, hab⟩ := hx
    cases hab with
    | some hab => exact ⟨_, hb, hab⟩
  have houter := halike "outer" (by decide +kernel)
  exact ⟨s, h, c, hs, hh, hc, hsome (houter.read _ _ hs), hsome (houter.history _ _ hh),
    hsome ((halike "a" (by decide +kernel)).staircase _ _ _ hc), hgone (by decide)⟩

/-- An engine with a stored series whose name is a date, and a formula with a call in which the same
date is given after a keyword that is named twice. -/
def dateNamed : Engine :=
  let e := overNothing .initial
  let points := [(dayOf2024 0, 1.0), (dayOf2024 1, 2.0)]
  let e := (e.updateSeries "2024-01-02" (.ofPoints "2024-01-02" points) (dayOf2024 0) false).engine
  (e.registerFormula "f" ("(slice (series \"2024-01-02\")" ++
    " #:fromdate (date #:tz series \"2024-01-02\" #:tz \"UTC\"))") ⟨none, false⟩).engine

theorem reachable_dateNamed : dateNamed.Reachable :=
  .registerFormula (.updateSeries (reachable_overNothing rfl) _ _ _ _) _ _ _

/-- **A formula need not be read after a renaming**: the date that stands after the symbol `series`
is replaced as well. -/
theorem read_renamed_ne : ¬ ∀ e : Engine, e.Reachable → ∀ old new : String,
    (e.rename old new).answer = .ok () → ∀ name, e.contains name = true → ∀ q s,
    e.read name q = .ok (some s) →
    ∃ s', (e.rename old new).engine.read (renamed old new name) q = .ok (some s') ∧
      s.samePoints s' = true := by
  intro h
  obtain ⟨s, hs⟩ := Result.exists_ok_some (x := dateNamed.read "f" .latest) (by decide +kernel)
  obtain ⟨s', hs', -⟩ := h dateNamed reachable_dateNamed "2024-01-02" "z"
    (Result.ok_of_toOption (by decide +kernel)) "f" (by decide +kernel) .latest s hs
  obtain ⟨cause, hcause⟩ := Result.exists_error
    (x := (dateNamed.rename "2024-01-02" "z").engine.read (renamed "2024-01-02" "z" "f") .latest)
    (by decide +kernel)
  cases hs'.symm.trans hcause

end Engine

end SeriesAlgebra
