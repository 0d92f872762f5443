import SeriesAlgebra.Proofs.Formula.Acyclic

/-!
# Names after operators

The groups that a formula refers to are the strings right after the symbol `group`
(`Tree.leafNames`). They stay where they are when the formula is written and read again
(`Tree.leafNames_canonical`), and when a series gets another name
(`Tree.leafNames_renameSeries`), which changes nothing but strings right after `series`.
-/

namespace SeriesAlgebra

namespace Tree

variable {operator : String}

theorem mem_leafNames {t : Tree} {name : String} :
    name ∈ t.leafNames operator ↔ ∃ u ∈ t.nodes, u.firstName? operator = some name := by
  rw [leafNames, mem_sortedSet, List.mem_filterMap]

/-- What nodes have is collected from a list and from its items. -/
theorem filterMap_nodes_list {α : Type} (f : Tree → Option α) (items : List Tree) :
    (list items).nodes.filterMap f =
      (f (list items)).toList ++ items.flatMap fun t => t.nodes.filterMap f := by
  have hall : (nodesOfAll items).filterMap f = items.flatMap fun t => t.nodes.filterMap f := by
    induction items with
    | nil => rfl
    | cons t rest ih => rw [nodesOfAll, List.filterMap_append, ih, List.flatMap_cons]
  rw [nodes, List.filterMap_cons, hall]
  cases f (list items) <;> rfl

/-! ### Writing and reading -/

/-- **What is written in another way refers to the same groups.** -/
theorem leafNames_canonical {t : Tree} (ht : t.Everywhere IsReadableNode) (operator : String) :
    t.canonical.leafNames operator = t.leafNames operator := by
  suffices h : t.canonical.nodes.filterMap (firstName? operator) =
      t.nodes.filterMap (firstName? operator) from congrArg sortedSet h
  induction t using inductionOn with
  | atom l =>
    rw [canonical_atom]
    rfl
  | list items ih =>
    obtain ⟨hheaded, hitems⟩ := everywhere_list.1 ht
    rw [canonical_list, filterMap_nodes_list, filterMap_nodes_list,
      firstName?_map_canonical hheaded, List.flatMap_map]
    exact congrArg _ (List.flatMap_congr fun t htmem => ih t htmem (hitems t htmem))

/-! ### Renaming -/

variable {old new : String}

/-- The string after another operator than `series` stays. -/
theorem firstName?_renameItems (h : operator ≠ seriesOperator) (items : List Tree) :
    (list (renameItems old new false items)).firstName? operator =
      (list items).firstName? operator := by
  unfold firstName?
  rw [operator?, operator?, headSymbol?_renameItems]
  split
  · rename_i hoperator
    obtain ⟨args, rfl⟩ : ∃ args, items = symbol operator :: args := by
      cases items with
      | nil => cases hoperator
      | cons head args => exact ⟨args, by rw [head_of_headSymbol? hoperator]⟩
    have hsymbol : (symbol operator).isSeriesSymbol = false := beq_false_of_ne h
    cases args with
    | nil => rfl
    | cons a rest =>
      rw [renameItems, renameItems, hsymbol]
      cases a with
      | list items =>
        rw [renameItem_list, renameSeries]
        rfl
      | atom l => cases l <;> rfl
  · rfl

theorem flatMap_of_forall₂ {α β : Type} {f : Tree → List α} {g : Tree → List β} {φ : β → α}
    {items others : List Tree} (h : List.Forall₂ (fun t u => f u = (g t).map φ) items others) :
    others.flatMap f = (items.flatMap g).map φ := by
  induction h with
  | nil => rfl
  | cons htu _ ih => rw [List.flatMap_cons, List.flatMap_cons, List.map_append, htu, ih]

/-- What the lists of a formula have after renaming is the image of what they had. -/
theorem filterMap_nodes_renameSeries {α β : Type} {f : Tree → Option α} {g : Tree → Option β}
    {φ : β → α} (hatom : ∀ l, f (atom l) = none ∧ g (atom l) = none)
    (hlist : ∀ items, f ((list items).renameSeries old new) = (g (list items)).map φ) (t : Tree) :
    (t.renameSeries old new).nodes.filterMap f = (t.nodes.filterMap g).map φ := by
  suffices h : ∀ named, (renameItem old new named t).nodes.filterMap f =
      (t.nodes.filterMap g).map φ from renameItem_false old new t ▸ h false
  induction t using inductionOn with
  | atom l =>
    intro named
    obtain ⟨m, hm⟩ := alike_atom (alike_renameItem_atom old new named l)
    rw [hm, nodes, nodes, List.filterMap_cons_none (hatom m).1, List.filterMap_cons_none (hatom l).2]
    rfl
  | list items ih =>
    intro named
    have hitems : List.Forall₂ (fun t u => u.nodes.filterMap f = (t.nodes.filterMap g).map φ) items
        (renameItems old new false items) := forall₂_renameItem ih false
    rw [renameItem_list, renameSeries, filterMap_nodes_list, filterMap_nodes_list, ← renameSeries,
      hlist, flatMap_of_forall₂ hitems, List.map_append]
    cases g (list items) <;> rfl

/-- **A formula refers to the same groups after a series has another name.** -/
theorem leafNames_renameSeries (h : operator ≠ seriesOperator) (t : Tree) :
    (t.renameSeries old new).leafNames operator = t.leafNames operator := by
  have hlist (items : List Tree) : ((list items).renameSeries old new).firstName? operator =
      ((list items).firstName? operator).map id := by
    rw [renameSeries, firstName?_renameItems h, Option.map_id_fun, id]
  have hall := filterMap_nodes_renameSeries (fun l => ⟨rfl, rfl⟩) hlist t
  rw [List.map_id] at hall
  exact congrArg sortedSet hall

end Tree

end SeriesAlgebra
