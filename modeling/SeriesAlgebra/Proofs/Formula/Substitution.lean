import SeriesAlgebra.Proofs.Formula.LeafNames
import SeriesAlgebra.Proofs.Formula.Types
import SeriesAlgebra.Proofs.Order.Relabeling

/-!
# Renaming as a substitution

Renaming a series goes through the items of a list and remembers whether the symbol `series`
stands right before the next one. What comes of it can be said of every place in a formula by
itself (`Tree.part?`): a string that stands right after the symbol is renamed
(`Tree.part?_renameSeries_named`), and every other literal stays
(`Tree.part?_renameSeries_of_not`).

So renaming is a substitution of names (`Tree.renameSeries_substitutes`): it can be undone if the
new name was not there, and neither operators, nor depth, nor types depend on names.
-/

namespace SeriesAlgebra

namespace Tree

variable {old new name : String} {named : Bool} {t u : Tree} {items : List Tree} {place : List Nat}

/-! ### Places -/

/-- The part of a formula at a place, which is told by positions in lists from the outermost one
on. -/
def part? : Tree → List Nat → Option Tree
  | t, [] => some t
  | atom _, _ :: _ => none
  | list items, i :: place => items[i]?.bind fun t => t.part? place

/-- **Whether a place is right after the symbol** `series` in its list. -/
inductive StandsAfterSeries : Tree → List Nat → Prop
  | here {items : List Tree} {i : Nat} (h : items[i]? = some (symbol seriesOperator)) :
      StandsAfterSeries (list items) [i + 1]
  | inside {items : List Tree} {i : Nat} {t : Tree} {place : List Nat} (ht : items[i]? = some t)
      (h : StandsAfterSeries t place) : StandsAfterSeries (list items) (i :: place)

theorem part?_list (items : List Tree) (i : Nat) (place : List Nat) :
    (list items).part? (i :: place) = items[i]?.bind fun t => t.part? place := by
  rw [part?]

/-- Only lists have parts inside. -/
theorem exists_of_part?_cons {i : Nat} (h : t.part? (i :: place) = some u) :
    ∃ items s, t = list items ∧ items[i]? = some s ∧ s.part? place = some u := by
  cases t with
  | atom l => cases h
  | list items =>
    rw [part?_list] at h
    obtain ⟨s, hs, hu⟩ := Option.bind_eq_some_iff.1 h
    exact ⟨items, s, rfl, hs, hu⟩

/-- Parts are nodes. -/
theorem mem_nodes_of_part? (h : t.part? place = some u) : u ∈ t.nodes := by
  induction place generalizing t with
  | nil =>
    obtain rfl := Option.some.inj h
    exact self_mem_nodes _
  | cons i place ih =>
    obtain ⟨items, s, rfl, hs, hu⟩ := exists_of_part?_cons h
    exact mem_nodes_list.2 (Or.inr ⟨s, List.mem_of_getElem? hs, ih hu⟩)

/-- Whether the symbol `series` stands right before the item at a position; `named` tells whether it
does before the first. -/
def namedAt (named : Bool) (items : List Tree) : Nat → Bool
  | 0 => named
  | i + 1 => items[i]?.any isSeriesSymbol

theorem isSeriesSymbol_iff : t.isSeriesSymbol = true ↔ t = symbol seriesOperator := by
  constructor
  · intro h
    cases t with
    | list items => cases h
    | atom l =>
      cases l with
      | symbol name => exact congrArg symbol (beq_iff_eq.1 h)
      | _ => cases h
  · rintro rfl
    rfl

theorem standsAfterSeries_singleton {i : Nat} :
    (list items).StandsAfterSeries [i] ↔ namedAt false items i = true := by
  constructor
  · intro h
    cases h with
    | here h =>
      rw [namedAt, h]
      rfl
    | inside _ h => cases h
  · intro h
    cases i with
    | zero => cases h
    | succ i =>
      rw [namedAt, Option.any_eq_true] at h
      obtain ⟨s, hs, hsymbol⟩ := h
      exact .here (isSeriesSymbol_iff.1 hsymbol ▸ hs)

theorem standsAfterSeries_cons {i j : Nat} (ht : items[i]? = some t) :
    (list items).StandsAfterSeries (i :: j :: place) ↔ t.StandsAfterSeries (j :: place) := by
  constructor
  · intro h
    cases h with
    | inside hs h =>
      obtain rfl := Option.some.inj (ht.symm.trans hs)
      exact h
  · exact .inside ht

/-! ### Items after renaming -/

theorem getElem?_renameItems (named : Bool) (items : List Tree) (i : Nat) :
    (renameItems old new named items)[i]? =
      items[i]?.map (renameItem old new (namedAt named items i)) := by
  induction items generalizing named i with
  | nil =>
    rw [renameItems]
    rfl
  | cons t rest ih =>
    rw [renameItems]
    cases i with
    | zero => rfl
    | succ i =>
      rw [List.getElem?_cons_succ, List.getElem?_cons_succ, ih]
      cases i <;> rfl

theorem renameItem_str (named : Bool) (name : String) :
    renameItem old new named (str name) =
      str (if named then renamed old new name else name) := by
  rw [str, renameItem]
  cases named with
  | false => rfl
  | true =>
    by_cases h : name = old
    · rw [if_pos (by simpa using h), if_pos rfl, h, renamed_old]
    · rw [if_neg (by simpa using h), if_pos rfl, renamed_of_ne h]

/-- What is the same for all lists, and for all strings, stays. -/
theorem renameItem_keeps {α : Type} {f : Tree → α}
    (hlist : ∀ items others, f (list items) = f (list others))
    (hstr : ∀ text other, f (str text) = f (str other)) (named : Bool) (t : Tree) :
    f (renameItem old new named t) = f t := by
  cases t with
  | list items =>
    rw [renameItem]
    exact hlist _ _
  | atom l =>
    cases l with
    | str name =>
      change f (renameItem old new named (str name)) = f (str name)
      rw [renameItem_str]
      exact hstr _ _
    | _ => rfl

theorem isSeriesSymbol_renameItem (named : Bool) (t : Tree) :
    (renameItem old new named t).isSeriesSymbol = t.isSeriesSymbol :=
  renameItem_keeps (fun _ _ => rfl) (fun _ _ => rfl) named t

theorem keywordName?_renameItem (named : Bool) (t : Tree) :
    (renameItem old new named t).keywordName? = t.keywordName? :=
  renameItem_keeps (fun _ _ => rfl) (fun _ _ => rfl) named t

theorem namedAt_renameItems (items : List Tree) (i : Nat) :
    namedAt false (renameItems old new false items) i = namedAt false items i := by
  cases i with
  | zero => rfl
  | succ i =>
    rw [namedAt, namedAt, getElem?_renameItems, Option.any_map]
    exact congrArg (items[i]?.any ·) (funext fun t => isSeriesSymbol_renameItem _ t)

/-! ### Parts after renaming -/

theorem part?_renameSeries_cons (items : List Tree) (i : Nat) (place : List Nat) :
    ((list items).renameSeries old new).part? (i :: place) =
      items[i]?.bind fun t => (renameItem old new (namedAt false items i) t).part? place := by
  rw [renameSeries, part?_list, getElem?_renameItems, Option.bind_map]
  rfl

/-- What becomes of a literal depends on what stands right before it. -/
theorem part?_renameSeries {l : Literal} (hnamed : named = true ↔ t.StandsAfterSeries place)
    (hl : t.part? place = some (atom l)) :
    (t.renameSeries old new).part? place = some (renameItem old new named (atom l)) := by
  induction place generalizing t with
  | nil =>
    obtain rfl := Option.some.inj hl
    have hfalse : named = false := Bool.eq_false_iff.2 fun h => nomatch hnamed.1 h
    rw [hfalse, renameItem_false]
    rfl
  | cons i place ih =>
    obtain ⟨items, s, rfl, hs, hl⟩ := exists_of_part?_cons hl
    rw [part?_renameSeries_cons, hs, Option.bind_some]
    -- Inside an item, what stands right before the item counts no more.
    cases place with
    | nil =>
      obtain rfl := Option.some.inj hl
      rw [standsAfterSeries_singleton, Bool.eq_iff_iff.symm] at hnamed
      rw [hnamed]
      rfl
    | cons j place =>
      rw [standsAfterSeries_cons hs] at hnamed
      obtain ⟨others, _, rfl, -, -⟩ := exists_of_part?_cons hl
      rw [renameItem_list]
      exact ih hnamed hl

/-- **A string right after the symbol** `series` **is renamed.** -/
theorem part?_renameSeries_named (h : t.StandsAfterSeries place)
    (hname : t.part? place = some (str name)) :
    (t.renameSeries old new).part? place = some (str (renamed old new name)) := by
  rw [part?_renameSeries (iff_of_true rfl h) hname]
  exact congrArg some (renameItem_str true name)

/-- **A literal elsewhere stays.** -/
theorem part?_renameSeries_of_not {l : Literal} (h : ¬ t.StandsAfterSeries place)
    (hl : t.part? place = some (atom l)) :
    (t.renameSeries old new).part? place = some (atom l) := by
  rw [part?_renameSeries (iff_of_false Bool.false_ne_true h) hl, renameItem_false]
  rfl

/-! ### Renaming again -/

/-- A series renamed to its own name: everything stays. -/
theorem renameItem_self (old : String) (named : Bool) (t : Tree) :
    renameItem old old named t = t := by
  induction t using inductionOn generalizing named with
  | atom l =>
    cases l with
    | str name =>
      change renameItem old old named (str name) = str name
      rw [renameItem_str, renamed_self, ite_self]
    | _ => rfl
  | list items ih =>
    have hitems : List.Forall₂ Eq items (renameItems old old false items) :=
      forall₂_renameItem (fun t ht named => (ih t ht named).symm) false
    rw [renameItem]
    exact congrArg list (List.forall₂_eq_eq_eq ▸ hitems : items = _).symm

/-- **Renaming back** gives an item that there was, if the new name was not there. -/
theorem renameItem_renameItem (hnamed : named = true → t ≠ str new)
    (h : ∀ place, t.StandsAfterSeries place → t.part? place ≠ some (str new)) :
    renameItem new old named (renameItem old new named t) = t := by
  induction t using inductionOn generalizing named with
  | atom l =>
    cases l with
    | str name =>
      change renameItem new old named (renameItem old new named (str name)) = str name
      rw [renameItem_str, renameItem_str]
      cases named with
      | false => rfl
      | true =>
        have hne : name ≠ new := fun heq => hnamed rfl (congrArg str heq)
        rw [if_pos rfl, if_pos rfl, renamed_renamed hne]
    | _ => rfl
  | list items ih =>
    rw [renameItem, renameItem]
    refine congrArg list (List.ext_getElem? fun i => ?_)
    rw [getElem?_renameItems, getElem?_renameItems, namedAt_renameItems, Option.map_map]
    cases hs : items[i]? with
    | none => rfl
    | some s =>
      refine congrArg some (ih s (List.mem_of_getElem? hs) (fun hafter heq => ?_) ?_)
      · refine h [i] (standsAfterSeries_singleton.2 hafter) ?_
        rw [part?_list, hs, heq]
        rfl
      · intro place hafter hplace
        refine h (i :: place) (.inside hs hafter) ?_
        rw [part?_list, hs, Option.bind_some, hplace]

/-! ### What does not depend on names -/

/-- **Types do not depend on names.** -/
theorem infer_renameItem (registry : Registry) (named : Bool) (t : Tree) :
    Typing.infer registry (renameItem old new named t) = Typing.infer registry t := by
  induction t using inductionOn generalizing named with
  | atom l =>
    cases l with
    | str name =>
      change Typing.infer registry (renameItem old new named (str name)) = _
      rw [renameItem_str, str, Typing.infer, Typing.infer]
      rfl
    | _ => rfl
  | list items ih =>
    have hsame : List.Forall₂ (Typing.SameType registry) items (renameItems old new false items) :=
      forall₂_renameItem (fun t ht named => ⟨keywordName?_renameItem named t, ih t ht named⟩) false
    rw [renameItem]
    exact Typing.infer_of_sameTypes (headSymbol?_renameItems old new items) (forall₂_tail hsame)

theorem operators_renameSeries (t : Tree) :
    (t.renameSeries old new).operators = t.operators := by
  have hlist (items : List Tree) : ((list items).renameSeries old new).operator? =
      ((list items).operator?).map id := by
    rw [renameSeries, Option.map_id_fun, id]
    exact headSymbol?_renameItems old new items
  have hall := filterMap_nodes_renameSeries (fun l => ⟨rfl, rfl⟩) hlist t
  rw [List.map_id] at hall
  exact congrArg List.eraseDups hall

/-- **The names of series after renaming** are those that there were, renamed. -/
theorem leafNames_renameSeries_series (t : Tree) :
    (t.renameSeries old new).leafNames seriesOperator =
      sortedSet ((t.leafNames seriesOperator).map (renamed old new)) := by
  have hlist (items : List Tree) :
      ((list items).renameSeries old new).firstName? seriesOperator =
        ((list items).firstName? seriesOperator).map (renamed old new) := by
    rw [renameSeries]
    exact leafName?_renameItems old new items
  have hall := filterMap_nodes_renameSeries (fun l => ⟨rfl, rfl⟩) hlist t
  rw [leafNames, hall]
  refine sortedSet_congr fun name => ?_
  simp only [List.mem_map, leafNames, mem_sortedSet]

/-- **Renaming is a substitution of names.** The names of series are those that there were, renamed;
nothing changes if a series is renamed to its own name, or if it is renamed back and the new name
stood nowhere right after the symbol `series`. The strings there are renamed, all other literals
stay, and so do the operators, the depth and, with any operators, the type or what is wrong with
it. -/
theorem renameSeries_substitutes (old new : String) (t : Tree) :
    (t.renameSeries old new).leafNames seriesOperator =
        sortedSet ((t.leafNames seriesOperator).map (renamed old new)) ∧
      t.renameSeries old old = t ∧
      ((∀ place, t.StandsAfterSeries place → t.part? place ≠ some (str new)) →
        (t.renameSeries old new).renameSeries new old = t) ∧
      (t.renameSeries old new).operators = t.operators ∧
      (t.renameSeries old new).depth = t.depth ∧
      (∀ registry, Typing.infer registry (t.renameSeries old new) = Typing.infer registry t) ∧
      (∀ place name, t.StandsAfterSeries place → t.part? place = some (str name) →
        (t.renameSeries old new).part? place = some (str (renamed old new name))) ∧
      ∀ place l, ¬ t.StandsAfterSeries place → t.part? place = some (atom l) →
        (t.renameSeries old new).part? place = some (atom l) := by
  refine ⟨leafNames_renameSeries_series t, ?_, fun h => ?_, operators_renameSeries t,
    (alike_renameSeries old new t).depth, fun registry => ?_,
    fun _ _ => part?_renameSeries_named, fun _ _ => part?_renameSeries_of_not⟩
  · rw [← renameItem_false, renameItem_self]
  · rw [← renameItem_false, ← renameItem_false]
    exact renameItem_renameItem (fun hfalse => absurd hfalse Bool.false_ne_true) h
  · rw [← renameItem_false, infer_renameItem]

/-- A formula with a name after the symbol `series` at the head of a list and inside one, and
elsewhere. -/
def scatteredNames (name : String) : Tree :=
  list [symbol "add", symbol seriesOperator, str name,
    list [symbol seriesOperator, str name, symbol "#:fill", str "a"],
    symbol seriesOperator, list [str "a"], str "a"]

theorem renameSeries_scatteredNames :
    (scatteredNames "a").renameSeries "a" "b" = scatteredNames "b" ∧
      (scatteredNames "b").renameSeries "b" "a" = scatteredNames "a" ∧
      (scatteredNames "b").leafNames seriesOperator = ["b"] := by
  have hrenamed : (scatteredNames "a").renameSeries "a" "b" = scatteredNames "b" := rfl
  obtain ⟨hnames, -, hback, -⟩ := renameSeries_substitutes "a" "b" (scatteredNames "a")
  rw [hrenamed] at hnames hback
  refine ⟨hrenamed, hback fun place _ hplace => ?_, hnames⟩
  have hnew : str "b" ∉ (scatteredNames "a").nodes := by decide +kernel
  exact hnew (mem_nodes_of_part? hplace)

end Tree

end SeriesAlgebra
