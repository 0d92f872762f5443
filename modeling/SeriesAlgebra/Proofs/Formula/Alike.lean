import SeriesAlgebra.Formula.Rename
import SeriesAlgebra.Proofs.Formula.Shape

/-!
# Formulas of one shape

Two formulas are **alike** if they differ in literals that are no symbols only
(`Tree.Alike`). Writing a formula and reading it again, and renaming a series, give a
formula that is alike, and the shape of a formula is the same for all that are alike.
-/

namespace SeriesAlgebra

namespace Tree

/-- Whether two formulas differ only in literals that are no symbols. -/
inductive Alike : Tree → Tree → Prop
  | atom {l m : Literal} (h : ∀ name, l = .symbol name → m = .symbol name) :
      Alike (atom l) (atom m)
  | list {items others : List Tree} (h : List.Forall₂ Alike items others) :
      Alike (list items) (list others)

theorem alike_refl (t : Tree) : Alike t t := by
  induction t using inductionOn with
  | atom l => exact .atom fun name h => h
  | list items ih => exact .list (List.forall₂_same.2 ih)

theorem Alike.trans {t u v : Tree} (htu : Alike t u) (huv : Alike u v) : Alike t v := by
  induction t using inductionOn generalizing u v with
  | atom l =>
    cases htu with
    | atom htu =>
      cases huv with
      | atom huv => exact .atom fun name h => huv name (htu name h)
  | list items ih =>
    cases htu with
    | list htu =>
      cases huv with
      | list huv =>
        exact .list (Result.forall₂_comp htu huv fun t ht u _ v => ih t ht)

/-! ### What alike formulas share -/

theorem headSymbol?_of_alike {items others : List Tree} (h : List.Forall₂ Alike items others)
    {symbol : String} (hsymbol : headSymbol? items = some symbol) :
    headSymbol? others = some symbol := by
  cases h with
  | nil => cases hsymbol
  | cons hhead _ =>
    obtain rfl := head_of_headSymbol? hsymbol
    cases hhead with
    | atom h =>
      rw [h symbol rfl]
      rfl

theorem exists_alike {items others : List Tree} (h : List.Forall₂ Alike items others) {u : Tree}
    (hu : u ∈ others) : ∃ t ∈ items, Alike t u := by
  induction h with
  | nil => cases hu
  | cons hhead _ ih =>
    rcases List.mem_cons.1 hu with rfl | hu
    · exact ⟨_, List.mem_cons_self, hhead⟩
    · obtain ⟨t, ht, htu⟩ := ih hu
      exact ⟨t, List.mem_cons_of_mem _ ht, htu⟩

/-- Scalar formulas are alike to scalar formulas only. -/
theorem Alike.isScalar {t u : Tree} (h : Alike t u) (ht : t.IsScalar) : u.IsScalar := by
  induction t using inductionOn generalizing u with
  | atom l =>
    cases h
    exact everywhere_atom.2 trivial
  | list items ih =>
    cases h with
    | list hitems =>
      obtain ⟨⟨b, hb, hscalar⟩, hall⟩ := everywhere_list.1 ht
      refine everywhere_list.2 ⟨⟨b, headSymbol?_of_alike hitems hb, hscalar⟩, fun v hv => ?_⟩
      obtain ⟨s, hs, hsv⟩ := exists_alike hitems hv
      exact ih s hs hsv (hall s hs)

theorem forall₂_tail {R : Tree → Tree → Prop} {items others : List Tree}
    (h : List.Forall₂ R items others) : List.Forall₂ R items.tail others.tail := by
  cases h with
  | nil => exact .nil
  | cons _ h => exact h

/-- **The shape of a formula is that of all formulas alike.** -/
theorem Alike.isFormula {t u : Tree} (h : Alike t u) (ht : t.IsFormula) : u.IsFormula := by
  refine ⟨?_, ?_⟩
  · cases h with
    | atom _ => cases ht.isList
    | list _ => rfl
  · have hnodes := ht.nodes
    clear ht
    induction t using inductionOn generalizing u with
    | atom l =>
      cases h
      exact everywhere_atom.2 trivial
    | list items ih =>
      cases h with
      | list hitems =>
        obtain ⟨⟨b, hb, hgroup, hgroupAdd, hscalar, hlength⟩, hall⟩ := everywhere_list.1 hnodes
        refine everywhere_list.2 ⟨⟨b, headSymbol?_of_alike hitems hb, hgroup, hgroupAdd,
          fun hleaf v hv => ?_, fun h => (forall₂_tail hitems).length_eq ▸ hlength h⟩,
          fun v hv => ?_⟩
        · obtain ⟨s, hs, hsv⟩ := exists_alike (forall₂_tail hitems) hv
          exact hsv.isScalar (hscalar hleaf s hs)
        · obtain ⟨s, hs, hsv⟩ := exists_alike hitems hv
          exact ih s hs hsv (hall s hs)

theorem Alike.depth {t u : Tree} (h : Alike t u) : u.depth = t.depth := by
  have hall : ∀ {items others : List Tree}, List.Forall₂ Alike items others →
      (∀ t ∈ items, ∀ u, Alike t u → u.depth = t.depth) →
      depthOfAll others = depthOfAll items := by
    intro items others hitems
    induction hitems with
    | nil => intro _; rfl
    | cons hhead _ ih =>
      intro h
      rw [depthOfAll, depthOfAll, h _ List.mem_cons_self _ hhead,
        ih fun t ht => h t (List.mem_cons_of_mem _ ht)]
  induction t using inductionOn generalizing u with
  | atom l =>
    cases h
    rfl
  | list items ih =>
    cases h with
    | list hitems => rw [Tree.depth, Tree.depth, hall hitems fun t ht u hu => ih t ht hu]

theorem isHeaded_of_alike {items others : List Tree} (h : List.Forall₂ Alike items others)
    (hheaded : isHeaded items = true) : isHeaded others = true := by
  cases h with
  | nil => cases hheaded
  | @cons t u _ _ hhead _ =>
    cases hhead with
    | @atom l m hsymbol =>
      cases l with
      | symbol name =>
        rw [hsymbol name rfl]
        exact hheaded
      | str s => cases hheaded
      | int n => cases hheaded
      | float x => cases hheaded
    | list _ => cases hheaded

/-! ### Where formulas alike come from -/

theorem alike_canonical (t : Tree) : Alike t t.canonical := by
  induction t using inductionOn with
  | atom l =>
    refine .atom fun name h => ?_
    rw [h]
    rfl
  | list items ih =>
    rw [canonical_list]
    exact .list (List.forall₂_map_right_iff.2 (List.forall₂_same.2 ih))

theorem renameItem_list (old new : String) (named : Bool) (items : List Tree) :
    renameItem old new named (list items) = (list items).renameSeries old new := by
  rw [renameItem, renameSeries]

theorem alike_renameItem_atom (old new : String) (named : Bool) (l : Literal) :
    Alike (atom l) (renameItem old new named (atom l)) := by
  cases l with
  | str name =>
    rw [renameItem]
    split <;> exact .atom fun name h => by cases h
  | _ => exact .atom fun name h => h

/-- Items go with themselves after renaming one by one. -/
theorem forall₂_renameItem {R : Tree → Tree → Prop} {old new : String} {items : List Tree}
    (h : ∀ t ∈ items, ∀ named, R t (renameItem old new named t)) (named : Bool) :
    List.Forall₂ R items (renameItems old new named items) := by
  induction items generalizing named with
  | nil =>
    rw [renameItems]
    exact .nil
  | cons t rest ih =>
    rw [renameItems]
    exact .cons (h t List.mem_cons_self named) (ih (fun u hu => h u (List.mem_cons_of_mem _ hu)) _)

theorem alike_renameItem (old new : String) (named : Bool) (t : Tree) :
    Alike t (renameItem old new named t) := by
  induction t using inductionOn generalizing named with
  | atom l => exact alike_renameItem_atom old new named l
  | list items ih =>
    rw [renameItem]
    exact .list (forall₂_renameItem (fun t ht named => ih t ht named) false)

/-- What is no item of a list does not stand right after the symbol `series`. -/
theorem renameItem_false (old new : String) (t : Tree) :
    renameItem old new false t = t.renameSeries old new := by
  cases t with
  | list items => exact renameItem_list old new false items
  | atom l => cases l <;> rfl

theorem alike_renameSeries (old new : String) (t : Tree) : Alike t (t.renameSeries old new) :=
  renameItem_false old new t ▸ alike_renameItem old new false t

/-! ### Renaming and text -/

theorem isReadable_renameItem (old new : String) (named : Bool) {l : Literal}
    (h : l.IsReadable) : (renameItem old new named (atom l)).Everywhere IsReadableNode := by
  cases l with
  | str name =>
    rw [renameItem]
    split <;> exact everywhere_atom.2 trivial
  | _ => exact everywhere_atom.2 h

theorem everywhere_renameItems {old new : String} {P : Tree → Prop} :
    ∀ {items : List Tree} {named : Bool},
      (∀ l, atom l ∈ items → ∀ named, (renameItem old new named (atom l)).Everywhere P) →
      (∀ t ∈ items, t.literal? = none → (t.renameSeries old new).Everywhere P) →
      ∀ u ∈ renameItems old new named items, u.Everywhere P
  | [], _, _, _, u, hu => by cases hu
  | t :: rest, named, hatom, hlist, u, hu => by
    rw [renameItems] at hu
    rcases List.mem_cons.1 hu with rfl | hu
    · cases t with
      | atom l => exact hatom l List.mem_cons_self named
      | list items =>
        rw [renameItem_list]
        exact hlist _ List.mem_cons_self rfl
    · exact everywhere_renameItems (fun l hl => hatom l (List.mem_cons_of_mem _ hl))
        (fun v hv => hlist v (List.mem_cons_of_mem _ hv)) u hu

/-- A formula in which a series was renamed can be read, if it could before. -/
theorem IsReadable.renameSeries {t : Tree} (h : t.IsReadable) (old new : String) :
    (t.renameSeries old new).IsReadable := by
  refine ⟨?_, (alike_renameSeries old new t).depth ▸ h.depth⟩
  have hnodes := h.nodes
  clear h
  induction t using inductionOn with
  | atom l => exact hnodes
  | list items ih =>
    obtain ⟨hheaded, hitems⟩ := everywhere_list.1 hnodes
    have halike := alike_renameSeries old new (list items)
    rw [Tree.renameSeries] at halike ⊢
    cases halike with
    | list halike =>
      refine everywhere_list.2 ⟨isHeaded_of_alike halike hheaded,
        everywhere_renameItems (fun l hl named => ?_) fun t ht _ => ih t ht (hitems t ht)⟩
      exact isReadable_renameItem old new named (everywhere_atom.1 (hitems _ hl))

theorem canonical_renameItem_atom (old new : String) (named : Bool) {l : Literal}
    (h : l.canonical = l) :
    (renameItem old new named (atom l)).canonical = renameItem old new named (atom l) := by
  cases l with
  | str name =>
    rw [renameItem]
    split <;> rfl
  | _ => exact congrArg atom h

/-- A canonical formula is canonical after a series was renamed. -/
theorem canonical_renameSeries {t : Tree} (h : t.canonical = t) (old new : String) :
    (t.renameSeries old new).canonical = t.renameSeries old new := by
  have hall : ∀ (items : List Tree) (named : Bool), items.map canonical = items →
      (∀ t ∈ items, t.canonical = t → (t.renameSeries old new).canonical = t.renameSeries old new) →
      (renameItems old new named items).map canonical = renameItems old new named items := by
    intro items
    induction items with
    | nil => intro _ _ _; rfl
    | cons t rest ih =>
      intro named hmap h
      obtain ⟨ht, hrest⟩ := List.cons.inj hmap
      rw [renameItems, List.map_cons,
        ih _ hrest fun u hu => h u (List.mem_cons_of_mem _ hu)]
      congr 1
      cases t with
      | atom l => exact canonical_renameItem_atom old new named (atom.inj ht)
      | list items =>
        rw [renameItem_list]
        exact h _ List.mem_cons_self ht
  induction t using inductionOn with
  | atom l => exact h
  | list items ih =>
    rw [canonical_list] at h
    rw [Tree.renameSeries, canonical_list, hall items false (list.inj h) ih]

end Tree

end SeriesAlgebra
