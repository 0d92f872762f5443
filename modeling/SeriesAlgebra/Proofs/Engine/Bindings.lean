import SeriesAlgebra.Proofs.Engine.Names

/-!
# The bindings of an engine

A binding is checked when it is made. After that only a renaming changes its rows, and
it does so in place: the new name may be empty, or that of another row, which no
reference of a formula gives away. Bindings stay well formed as long as no renaming is
of that kind (`Engine.bindingsWellFormed_of_reaches`, which is exact), and one that is
leaves a series with two rows (`Engine.not_bindingsWellFormed_doubled`).
-/

namespace SeriesAlgebra

namespace Engine

/-- Whether all bindings are well formed. -/
def BindingsWellFormed (e : Engine) : Prop :=
  ∀ group binding, (group, binding) ∈ e.bindings.entries → binding.IsWellFormed

/-- Whether a binding has, beside a row for a series, neither a row for its new name nor is that
name empty. -/
def AllowsRename (old new : String) (b : Binding) : Prop :=
  old ∈ b.boundSeries → new ≠ "" ∧ new ∉ b.boundSeries

/-- Whether a call, if it renames a series, leaves the rows of all bindings apart. -/
def LeavesRowsApart (e : Engine) : Call → Prop
  | .rename old new => old ≠ new →
      ∀ group binding, (group, binding) ∈ e.bindings.entries → AllowsRename old new binding
  | _ => True

/-! ### Rows -/

theorem nodup_map_replace {old new : String} (hne : old ≠ new) {names : List String}
    (h : names.Nodup) :
    (names.map fun n => if n = old then new else n).Nodup ↔ (old ∈ names → new ∉ names) := by
  constructor
  · intro hnodup hold hnew
    refine hne (List.inj_on_of_nodup_map hnodup hold hnew ?_)
    rw [if_pos rfl, if_neg hne.symm]
  · intro hfree
    refine h.map_on fun a ha b hb heq => ?_
    split at heq
    · rename_i haold
      subst haold
      split at heq
      · rename_i hbold
        exact hbold.symm
      · subst heq
        exact absurd hb (hfree ha)
    · split at heq
      · rename_i hbold
        subst hbold heq
        exact absurd ha (hfree hb)
      · exact heq

theorem boundSeries_renameInBinding (old new : String) (b : Binding) :
    (renameInBinding old new b).boundSeries =
      b.boundSeries.map fun n => if n = old then new else n := by
  unfold renameInBinding Binding.boundSeries
  rw [List.map_map, List.map_map]
  refine List.map_congr_left fun row _ => ?_
  dsimp only [Function.comp]
  split <;> rfl

theorem isFilled_rename {old new : String} {row : BindingRow} (h : row.IsFilled) :
    (if row.series = old then { row with series := new } else row).IsFilled ↔
      (row.series = old → new ≠ "") := by
  split
  · rename_i heq
    exact ⟨fun hfilled _ => hfilled.series, fun hnew => ⟨hnew heq, h.group, h.family⟩⟩
  · rename_i hne
    exact ⟨fun _ heq => absurd heq hne, fun _ => h⟩

/-- **Renaming keeps a binding well formed** if and only if the binding allows it. -/
theorem isWellFormed_renameInBinding_iff {old new : String} (hne : old ≠ new) {b : Binding}
    (h : b.IsWellFormed) :
    (renameInBinding old new b).IsWellFormed ↔ AllowsRename old new b := by
  constructor
  · intro hrenamed hold
    obtain ⟨row, hrow, rfl⟩ := List.mem_map.1 hold
    have hfilled := hrenamed.filled _ (List.mem_map_of_mem hrow)
    have hnodup := hrenamed.boundOnce
    rw [boundSeries_renameInBinding] at hnodup
    exact ⟨(isFilled_rename (h.filled row hrow)).1 hfilled rfl,
      (nodup_map_replace hne h.boundOnce).1 hnodup hold⟩
  · intro hallows
    refine ⟨fun hnil => h.hasRow (List.map_eq_nil_iff.1 hnil), fun row hrow => ?_, ?_⟩
    · obtain ⟨row, hmem, rfl⟩ := List.mem_map.1 hrow
      refine (isFilled_rename (h.filled row hmem)).2 fun heq => ?_
      exact (hallows (heq ▸ List.mem_map_of_mem hmem)).1
    · rw [boundSeries_renameInBinding]
      exact (nodup_map_replace hne h.boundOnce).2 fun hold => (hallows hold).2

/-! ### Calls -/

variable {e e' : Engine}

theorem bindingsWellFormed_insert {bindings : OrderedMap String Binding}
    (h : ∀ group b, (group, b) ∈ bindings.entries → b.IsWellFormed) {group : String} {b : Binding}
    (hb : b.IsWellFormed) :
    ∀ group' b', (group', b') ∈ (bindings.insert group b).entries → b'.IsWellFormed := by
  intro group' b' hmem
  rcases OrderedMap.mem_insertEntry hmem with ⟨-, rfl⟩ | hmem
  · exact hb
  · exact h group' b' hmem

/-- **What a renaming does to bindings.** -/
theorem bindingsWellFormed_rename_iff (h : e.BindingsWellFormed) {old new : String}
    (hne : old ≠ new) :
    (∀ group b, (group, b) ∈ (e.bindings.mapValues fun _ => renameInBinding old new).entries →
      b.IsWellFormed) ↔ e.LeavesRowsApart (.rename old new) := by
  constructor
  · intro hall _ group b hmem
    exact (isWellFormed_renameInBinding_iff hne (h group b hmem)).1
      (hall group _ (List.mem_map_of_mem hmem))
  · intro hapart group b hmem
    obtain ⟨⟨group', b'⟩, hmem', heq⟩ := List.mem_map.1 hmem
    obtain ⟨rfl, rfl⟩ := Prod.mk.inj heq
    exact (isWellFormed_renameInBinding_iff hne (h group' b' hmem')).2 (hapart hne group' b' hmem')

/-- Effects keep bindings well formed, renamings if they leave rows apart. -/
theorem BindingsWellFormed.effect (h : e.BindingsWellFormed) {c : Call}
    (hc : e.LeavesRowsApart c) (heffect : e.Effect c e') : e'.BindingsWellFormed := by
  cases heffect with
  | bind _ hbuilds _ _ _ => exact bindingsWellFormed_insert h (ok_of_builds hbuilds).2
  | rename hr => exact (bindingsWellFormed_rename_iff h hr.differ).2 hc
  | deleteFormula _ => exact fun group b hmem => h group b (List.mem_filter.1 hmem).1
  | deleteBinding _ => exact fun group b hmem => h group b (List.mem_filter.1 hmem).1
  | _ => exact h

/-- The bindings that a renaming leaves. -/
theorem bindings_rename {old new : String} (hne : old ≠ new)
    (h : (e.rename old new).answer = .ok ()) :
    (e.rename old new).engine.bindings = e.bindings.mapValues fun _ => renameInBinding old new := by
  rcases e.ends_rename old new with ⟨records, cause, heq, -⟩ | ⟨e₁, records, heq, heffect, -⟩
  · rw [heq] at h
    cases h
  · rw [heq]
    cases heffect with
    | bind hgroup => cases hgroup
    | renameSame => exact absurd rfl hne
    | rename _ => rfl

/-- **Bindings stay well formed while no renaming brings two rows together or empties one**, and
exactly such a renaming ends that. -/
theorem bindingsWellFormed_of_reaches {store : Store} {config : Config} {registry : Registry}
    (he : create store config registry = .ok e) (h : Reaches LeavesRowsApart e e') :
    e'.BindingsWellFormed ∧
      ∀ old new, old ≠ new → (e'.rename old new).answer = .ok () →
        ((e'.rename old new).engine.BindingsWellFormed ↔ e'.LeavesRowsApart (.rename old new)) := by
  have hcreated : e.BindingsWellFormed := by
    obtain ⟨c, -, he⟩ := Result.bind_ok he
    obtain rfl := Except.ok.inj he
    exact fun _ _ hmem => absurd hmem List.not_mem_nil
  have hall : e'.BindingsWellFormed :=
    h.invariant (fun _ _ h => h) (fun _ _ h => h) (fun _ _ _ hc heffect h => h.effect hc heffect)
      hcreated
  refine ⟨hall, fun old new hne hok => ?_⟩
  unfold BindingsWellFormed
  rw [bindings_rename hne hok]
  exact bindingsWellFormed_rename_iff hall hne

/-! ### Rows that come together -/

theorem bindings_boundByTwo : boundByTwo.bindings.entries =
    [("g", ⟨"f", [⟨"a", "low", "case"⟩, ⟨"z", "high", "case"⟩]⟩)] := by decide +kernel

/-- A name that no row has is free for a series that a row is for. -/
theorem bindingsWellFormed_boundByTwo : (boundByTwo.rename "a" "b").engine.BindingsWellFormed := by
  have hreaches : Reaches LeavesRowsApart (overNothing .initial) boundByTwo :=
    Reaches.refl.performAll bindingCalls fun _ c hc => by
      rcases List.mem_cons.1 hc with rfl | hc
      · trivial
      · rcases List.mem_cons.1 hc with rfl | hc
        · trivial
        · obtain rfl := List.mem_singleton.1 hc
          trivial
  have hapart : boundByTwo.LeavesRowsApart (.rename "a" "b") := by
    intro _ group binding hmem
    rw [bindings_boundByTwo] at hmem
    obtain ⟨-, rfl⟩ := Prod.mk.inj (List.mem_singleton.1 hmem)
    exact fun _ => ⟨by decide, by decide⟩
  exact ((bindingsWellFormed_of_reaches (create_overNothing rfl) hreaches).2 "a" "b" (by decide)
    (Result.ok_of_toOption (by decide +kernel))).2 hapart

/-- The name of another row is not refused: the calls succeed, and the binding is not well
formed. -/
theorem not_bindingsWellFormed_doubled :
    create .empty .initial .builtin = .ok (overNothing .initial) ∧
      Reaches (fun _ _ => True) (overNothing .initial) (boundByTwo.perform (.rename "a" "z")).engine ∧
      (boundByTwo.perform (.rename "a" "z")).answer = .ok () ∧
      ¬ (boundByTwo.perform (.rename "a" "z")).engine.BindingsWellFormed := by
  have hrows : (boundByTwo.perform (.rename "a" "z")).engine.bindings.entries =
      [("g", ⟨"f", [⟨"z", "low", "case"⟩, ⟨"z", "high", "case"⟩]⟩)] := by decide +kernel
  refine ⟨create_overNothing rfl, (Reaches.refl.performAll _ fun _ _ _ => trivial).perform _ trivial,
    Result.ok_of_toOption (by decide +kernel), fun hall => ?_⟩
  have hwf := hall "g" _ (hrows ▸ List.mem_cons_self)
  exact absurd hwf.boundOnce (by decide)

end Engine

end SeriesAlgebra
