import SeriesAlgebra.Proofs.Formula.Acyclic

/-!
# Formulas whose leaves have other names

A formula may be another one in which the series leaves have other names
(`Tree.Relabels`). Its own leaves are then those of the other, renamed
(`Tree.Relabels.hasLeaf`). Renaming one series relabels a formula
(`Tree.relabels_renameSeries`), unless the name stands after the symbol `series` in a
place where it names no series (`Tree.NamesOnlyLeaves`).
-/

namespace SeriesAlgebra

open Evaluation

namespace Tree

/-- A leaf of another name, with what it carries. -/
def leafOf (name : String) (items : List Tree) : List Tree :=
  symbol seriesOperator :: str name :: items.drop 2

/-- The leaf of another name that stands for a leaf. -/
def relabeled (f : String → String) (name : String) (items : List Tree) : Except TreeError Tree :=
  .ok (list (leafOf (f name) items))

/-- **Whether a formula is another one in which the leaves have other names.** -/
def Relabels (f : String → String) (t u : Tree) : Prop := t.mapLeaves (relabeled f) = .ok u

variable {f : String → String} {t u : Tree} {items others : List Tree} {name : String}

theorem leafName?_leafOf (name : String) (items : List Tree) :
    leafName? (leafOf name items) = some name := rfl

/-! ### Images of lists -/

theorem mapLeavesOfAll_of_forall₂ {g : String → List Tree → Except TreeError Tree}
    (h : List.Forall₂ (fun t u => t.mapLeaves g = .ok u) items others) :
    mapLeavesOfAll g items = .ok others := by
  induction h with
  | nil => rw [mapLeavesOfAll]; rfl
  | cons htu _ ih =>
    rw [mapLeavesOfAll, htu, ih]
    rfl

theorem mapLeaves_of_forall₂ {g : String → List Tree → Except TreeError Tree}
    (hname : leafName? items = none)
    (h : List.Forall₂ (fun t u => t.mapLeaves g = .ok u) items others) :
    (list items).mapLeaves g = .ok (list others) := by
  rw [mapLeaves, hname]
  change list <$> mapLeavesOfAll g items = _
  rw [mapLeavesOfAll_of_forall₂ h]
  rfl

/-- Whether a list is a leaf can be told from the literals in it. -/
theorem leafName?_congr (h : List.Forall₂ (fun t u => u.literal? = t.literal?) items others) :
    leafName? others = leafName? items := by
  unfold leafName? seriesName? firstName? operator? args headSymbol?
  cases h with
  | nil => rfl
  | @cons t u items others htu h =>
    simp only [List.head?_cons, Option.bind_some, List.tail_cons, htu]
    cases h with
    | nil => rfl
    | cons htu' _ =>
      simp only [List.head?_cons, Option.bind_some]
      rw [str?, str?, htu']
      rfl

/-! ### Formulas and their parts -/

theorem relabels_atom {l : Literal} : Relabels f (atom l) u ↔ u = atom l := by
  unfold Relabels
  rw [mapLeaves]
  exact ⟨fun h => (Except.ok.inj h).symm, fun h => h ▸ rfl⟩

theorem relabels_leaf (h : leafName? items = some name) :
    Relabels f (list items) u ↔ u = list (leafOf (f name) items) := by
  unfold Relabels relabeled
  rw [mapLeaves_leaf h]
  exact ⟨fun h => (Except.ok.inj h).symm, fun h => h ▸ rfl⟩

theorem relabels_list (h : leafName? items = none) :
    Relabels f (list items) u ↔ ∃ others, u = list others ∧ List.Forall₂ (Relabels f) items others := by
  constructor
  · exact mapLeaves_list h
  · rintro ⟨others, rfl, hall⟩
    exact mapLeaves_of_forall₂ h hall

theorem Relabels.literal? (h : Relabels f t u) : u.literal? = t.literal? := by
  cases t with
  | atom l => rw [relabels_atom.1 h]
  | list items =>
    refine isList_mapLeaves (fun _ _ _ hv => ?_) rfl h
    obtain rfl := Except.ok.inj hv
    rfl

/-- A list that is no leaf does not become one. -/
theorem leafName?_relabels (h : List.Forall₂ (Relabels f) items others) :
    leafName? others = leafName? items := leafName?_congr (h.imp fun _ _ h => h.literal?)

/-- All leaves can have other names. -/
theorem exists_relabels (f : String → String) (t : Tree) : ∃ u, Relabels f t u := by
  induction t using inductionOn with
  | atom l => exact ⟨_, relabels_atom.2 rfl⟩
  | list items ih =>
    cases hname : leafName? items with
    | some name => exact ⟨_, (relabels_leaf hname).2 rfl⟩
    | none =>
      have hall : ∃ others, List.Forall₂ (Relabels f) items others := by
        clear hname
        induction items with
        | nil => exact ⟨[], .nil⟩
        | cons t rest ih' =>
          obtain ⟨u, hu⟩ := ih t List.mem_cons_self
          obtain ⟨us, hus⟩ := ih' fun s hs => ih s (List.mem_cons_of_mem _ hs)
          exact ⟨u :: us, .cons hu hus⟩
      obtain ⟨others, hothers⟩ := hall
      exact ⟨_, (relabels_list hname).2 ⟨others, rfl, hothers⟩⟩

/-- A scalar stays as it is. -/
theorem relabels_scalar (ht : t.IsScalar) : Relabels f t t := by
  obtain ⟨u, hu⟩ := exists_relabels f t
  exact (mapLeaves_scalar ht hu) ▸ hu

theorem forall₂_scalars (h : ∀ t ∈ items, t.IsScalar) : List.Forall₂ (Relabels f) items items :=
  List.forall₂_same.2 fun t ht => relabels_scalar (h t ht)

/-- **The leaves of a formula with other names** are its leaves, renamed. -/
theorem Relabels.hasLeaf (h : Relabels f t u) {other : String} :
    u.HasLeaf other ↔ ∃ name, t.HasLeaf name ∧ other = f name := by
  induction t using inductionOn generalizing u with
  | atom l =>
    obtain rfl := relabels_atom.1 h
    exact ⟨fun h => absurd h not_hasLeaf_atom, fun ⟨_, h, _⟩ => absurd h not_hasLeaf_atom⟩
  | list items ih =>
    cases hname : leafName? items with
    | some name =>
      obtain rfl := (relabels_leaf hname).1 h
      rw [hasLeaf_leaf (leafName?_leafOf _ _)]
      constructor
      · rintro rfl
        exact ⟨name, .leaf hname, rfl⟩
      · rintro ⟨n, hn, rfl⟩
        rw [(hasLeaf_leaf hname).1 hn]
    | none =>
      obtain ⟨others, rfl, hall⟩ := (relabels_list hname).1 h
      rw [hasLeaf_list ((leafName?_relabels hall).trans hname)]
      constructor
      · rintro ⟨v, hv, hleaf⟩
        obtain ⟨s, hs, hsv⟩ := Result.exists_of_mem_right hall hv
        obtain ⟨n, hn, rfl⟩ := (ih s hs hsv).1 hleaf
        exact ⟨n, .item hname hs hn, rfl⟩
      · rintro ⟨n, hn, rfl⟩
        obtain ⟨s, hs, hleaf⟩ := (hasLeaf_list hname).1 hn
        obtain ⟨v, hv, hsv⟩ := Result.exists_of_mem_left hall hs
        exact ⟨v, hv, (ih s hs hsv).2 ⟨n, hleaf, rfl⟩⟩

/-- Leaves whose names stay make no difference. -/
theorem relabels_self (h : ∀ name, t.HasLeaf name → f name = name) : Relabels f t t := by
  induction t using inductionOn with
  | atom l => exact relabels_atom.2 rfl
  | list items ih =>
    cases hname : leafName? items with
    | some name =>
      refine (relabels_leaf hname).2 ?_
      rw [h name (.leaf hname), leafOf, ← leaf_eq hname]
    | none =>
      exact (relabels_list hname).2 ⟨items, rfl, List.forall₂_same.2 fun t ht =>
        ih t ht fun n hn => h n (.item hname ht hn)⟩

/-! ### Renaming one series -/

/-- Whether a name stands right after the symbol `series` somewhere in a row. -/
def standsAfterSeries (name : String) : List Tree → Bool
  | a :: b :: rest =>
    (a.isSeriesSymbol && b.str? == some name) || standsAfterSeries name (b :: rest)
  | _ => false

/-- Whether a node has no argument `series` before a name. -/
def namesOnlyLeaf (name : String) (t : Tree) : Bool := !standsAfterSeries name t.args

/-- **Whether a name stands after the symbol `series` only where it is that of a leaf.** -/
def NamesOnlyLeaves (name : String) (t : Tree) : Prop :=
  t.Everywhere fun node => namesOnlyLeaf name node = true

instance (name : String) (t : Tree) : Decidable (t.NamesOnlyLeaves name) :=
  inferInstanceAs (Decidable (∀ node ∈ t.nodes, namesOnlyLeaf name node = true))

variable {old new : String}

theorem str?_ne_of_standsAfterSeries {a b : Tree} {rest : List Tree}
    (h : standsAfterSeries old (a :: b :: rest) = false) (ha : a.isSeriesSymbol = true) :
    b.str? ≠ some old := by
  rw [standsAfterSeries, ha, Bool.true_and, Bool.or_eq_false_iff] at h
  exact fun hb => Bool.false_ne_true (h.1.symm.trans (beq_iff_eq.2 hb))

theorem standsAfterSeries_tail {a : Tree} {rest : List Tree}
    (h : standsAfterSeries old (a :: rest) = false) : standsAfterSeries old rest = false := by
  cases rest with
  | nil => rfl
  | cons b rest =>
    rw [standsAfterSeries, Bool.or_eq_false_iff] at h
    exact h.2

/-- A literal stays as it is, unless it is the name in its place. -/
theorem renameItem_atom {named : Bool} {l : Literal} (h : named = true → (atom l).str? ≠ some old) :
    renameItem old new named (atom l) = atom l := by
  cases l with
  | str text =>
    rw [renameItem]
    cases named with
    | false => rfl
    | true =>
      have hne : ¬ text = old := fun heq => h rfl (congrArg some heq)
      rw [Bool.true_and, if_neg (by simpa using hne)]
      rfl
  | _ => rfl

/-- The items of a list after renaming, if the name stands nowhere among them. -/
theorem forall₂_renameItems {named : Bool}
    (hnamed : named = true → ∀ a ∈ items.head?, a.str? ≠ some old)
    (h : standsAfterSeries old items = false)
    (hitems : ∀ t ∈ items, Relabels f t (t.renameSeries old new)) :
    List.Forall₂ (Relabels f) items (renameItems old new named items) := by
  induction items generalizing named with
  | nil => rw [renameItems]; exact .nil
  | cons a rest ih =>
    rw [renameItems]
    refine .cons ?_ (ih (fun hseries b hb => ?_) (standsAfterSeries_tail h)
      fun t ht => hitems t (List.mem_cons_of_mem _ ht))
    · cases a with
      | atom l =>
        rw [renameItem_atom fun htrue => hnamed htrue _ rfl]
        exact relabels_atom.2 rfl
      | list others =>
        rw [renameItem_list]
        exact hitems _ List.mem_cons_self
    · cases rest with
      | nil => cases hb
      | cons c rest =>
        obtain rfl := Option.some.inj hb
        exact str?_ne_of_standsAfterSeries h hseries

/-- **Renaming a series relabels a formula**, if the name is only that of leaves. -/
theorem relabels_renameSeries (ht : t.Everywhere IsFormulaNode) (h : t.NamesOnlyLeaves old) :
    Relabels (renamed old new) t (t.renameSeries old new) := by
  induction t using inductionOn with
  | atom l => exact relabels_atom.2 (by rw [renameSeries])
  | list items ih =>
    obtain ⟨⟨b, hb, -, -, hscalar, -⟩, hitems⟩ := everywhere_list.1 ht
    obtain ⟨hself, hothers⟩ := everywhere_list.1 h
    have hrelabels (t : Tree) (ht : t ∈ items) :
        Relabels (renamed old new) t (t.renameSeries old new) := ih t ht (hitems t ht) (hothers t ht)
    obtain ⟨args, rfl⟩ := list_of_calls hb
    have hargs : standsAfterSeries old args = false := by
      change (!standsAfterSeries old args) = true at hself
      simpa using hself
    have hhead : renameItem old new false (symbol b.name) = symbol b.name := rfl
    rw [renameSeries, renameItems, hhead]
    cases hname : leafName? (symbol b.name :: args) with
    | some name =>
      -- What a leaf carries is scalar, so that it stays as it is.
      obtain rfl := hb.unique (calls_of_leafName? hname)
      obtain ⟨rest, rfl⟩ : ∃ rest, args = str name :: rest := by
        have heq := leaf_eq hname
        exact ⟨_, (List.cons.inj heq).2⟩
      refine (relabels_leaf hname).2 (congrArg list ?_)
      have hrest : List.Forall₂ (Relabels (renamed old new)) rest
          (renameItems old new false rest) :=
        forall₂_renameItems (fun hnamed => absurd hnamed Bool.false_ne_true)
            (standsAfterSeries_tail hargs) fun t ht =>
          hrelabels t (List.mem_cons_of_mem _ (List.mem_cons_of_mem _ ht))
      have heq : renameItems old new false rest = rest :=
        map_scalars (fun t ht => hscalar (Or.inl rfl) t (List.mem_cons_of_mem _ ht)) hrest
      have hsymbol : (symbol Builtin.series.name).isSeriesSymbol = true := rfl
      rw [renameItems, hsymbol, leafOf, str, renameItem]
      change _ :: _ :: renameItems old new false rest = _
      rw [heq, renamed]
      congr 2
      by_cases heq : name = old
      · rw [if_pos heq, if_pos (by simpa using heq)]
      · rw [if_neg heq, if_neg (by simpa using heq)]
    | none =>
      refine (relabels_list hname).2 ⟨_, rfl, .cons (relabels_atom.2 rfl) ?_⟩
      refine forall₂_renameItems (fun hseries a ha hstr => ?_) hargs fun t ht =>
        hrelabels t (List.mem_cons_of_mem _ ht)
      -- A name right after the head would be that of a leaf.
      cases args with
      | nil => cases ha
      | cons c rest =>
        obtain rfl := Option.some.inj ha
        have hhead : b.name = seriesOperator := beq_iff_eq.1 hseries
        have hleaf : leafName? (symbol b.name :: c :: rest) = some old :=
          (if_pos (congrArg some hhead)).trans hstr
        cases hname.symm.trans hleaf

end Tree

end SeriesAlgebra
