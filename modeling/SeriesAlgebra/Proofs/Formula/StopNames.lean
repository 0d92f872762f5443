import SeriesAlgebra.Proofs.Formula.LeafNames
import SeriesAlgebra.Proofs.Formula.Relabeling.Basic

/-!
# Expansion up to names

Expansion may stop at certain names. What is then left are leaves of these names and leaves
that name no formula, so to expand once more changes nothing, and to expand once more without
stopping gives what expansion without stopping gives at once (`Tree.expand_upTo`).

For this, an expanded formula must have no leaves but those that expansion has put there.
A call of `series` whose first argument is a leaf would become one if the leaf is inlined as a
string, and so would a list whose head is a leaf that is inlined as the symbol `series`. The
first does not happen if the arguments of such calls are literals. The second cannot be
written, but there are such trees, and then expansion is not at its end after one time
(`Tree.not_expand_upTo`).
-/

namespace SeriesAlgebra

namespace Tree

variable {resolve : String → Except TreeError (Option Tree)} {stop : List String}
  {limit levels : Nat} {path : List String} {t u : Tree} {items others : List Tree} {name : String}

/-- **Whether a node has literals only** after the symbol `series`. -/
def IsFlat (t : Tree) : Prop :=
  t.operator? = some seriesOperator → ∀ a ∈ t.args, a.literal?.isSome = true

instance : DecidablePred IsFlat := fun t =>
  inferInstanceAs (Decidable (t.operator? = some seriesOperator →
    ∀ a ∈ t.args, a.literal?.isSome = true))

instance (t : Tree) : Decidable (t.Everywhere IsFlat) :=
  inferInstanceAs (Decidable (∀ u ∈ t.nodes, u.IsFlat))

/-- **Whether expansion makes no leaf of a node**: if it is a call of `series`, its arguments are
literals, and if it is headed by a list, no name stands for the symbol `series`. -/
structure KeepsLeaves (resolve : String → Except TreeError (Option Tree)) (t : Tree) : Prop where
  flat : t.IsFlat
  headed : ∀ inner rest, t = list (list inner :: rest) →
    ∀ name, resolve name ≠ .ok (some (symbol seriesOperator))

/-! ### Expansion of the kinds of formulas -/

/-- A literal has no leaves. -/
theorem mapLeaves_literal {f : String → List Tree → Except TreeError Tree}
    (h : t.literal?.isSome = true) : t.mapLeaves f = .ok t := by
  cases t with
  | list items => cases h
  | atom l => rw [mapLeaves]; rfl

theorem expandBelow_literal (h : t.literal?.isSome = true) :
    expandBelow resolve stop limit levels path t = .ok t := by
  rw [expandBelow_eq_mapLeaves, mapLeaves_literal h]

theorem expandBelow_leaf (hname : leafName? items = some name) :
    expandBelow resolve stop limit levels path (list items) =
      expandLeafBelow resolve stop limit levels path name items := by
  rw [expandBelow_eq_mapLeaves, mapLeaves_leaf hname]

theorem expandBelow_list_iff (hname : leafName? items = none) :
    expandBelow resolve stop limit levels path (list items) = .ok u ↔ ∃ others, u = list others ∧
      List.Forall₂ (fun t u => expandBelow resolve stop limit levels path t = .ok u) items
        others := by
  simp only [expandBelow_eq_mapLeaves]
  constructor
  · exact mapLeaves_list hname
  · rintro ⟨others, rfl, hall⟩
    exact mapLeaves_of_forall₂ hname hall

/-! ### More levels, fewer names on the path -/

/-- Where leaves have the same images, so have formulas. -/
theorem mapLeaves_mono {f g : String → List Tree → Except TreeError Tree}
    (hfg : ∀ name items v, f name items = .ok v → g name items = .ok v)
    (h : t.mapLeaves f = .ok u) : t.mapLeaves g = .ok u := by
  induction t using inductionOn generalizing u with
  | atom l =>
    rw [mapLeaves] at h ⊢
    exact h
  | list items ih =>
    cases hname : leafName? items with
    | some name =>
      rw [mapLeaves_leaf hname] at h ⊢
      exact hfg name items u h
    | none =>
      obtain ⟨others, rfl, hall⟩ := mapLeaves_list hname h
      exact mapLeaves_of_forall₂ hname (Result.forall₂_imp_of_mem hall fun t ht _ hu => ih t ht hu)

/-- **What is expanded at a level below a path** is expanded alike with more levels left and fewer
names on the path. -/
theorem expandBelow_mono {levels' : Nat} {path' : List String} (hlevels : levels ≤ levels')
    (hpath : path' ⊆ path) (h : expandBelow resolve stop limit levels path t = .ok u) :
    expandBelow resolve stop limit levels' path' t = .ok u := by
  -- The induction is on the levels alone: what a name stands for is not below its leaf.
  induction levels using Nat.strong_induction_on generalizing levels' path path' t u with
  | _ levels ih =>
    rw [expandBelow_eq_mapLeaves] at h ⊢
    refine mapLeaves_mono (fun name items v hv => ?_) h
    rw [expandLeafBelow_iff] at hv ⊢
    rcases hv with hstop | ⟨hstop, below, rfl, hname, hv⟩
    · exact Or.inl hstop
    · obtain ⟨below', rfl⟩ : ∃ below', levels' = below' + 1 := ⟨levels' - 1, by omega⟩
      have hpath' : path' ++ [name] ⊆ path ++ [name] :=
        List.append_subset.2 ⟨fun n hn => List.mem_append_left _ (hpath hn),
          List.subset_append_right _ _⟩
      refine Or.inr ⟨hstop, below', rfl, fun hmem => hname (hpath hmem), ?_⟩
      exact hv.imp_right fun ⟨t, body, ht, hbody, heq⟩ =>
        ⟨t, body, ht, ih below (Nat.lt_succ_self _) (by omega) hpath' hbody, heq⟩

/-! ### No new leaves -/

/-- What is expanded to the symbol `series` is the symbol, or some name stands for it. -/
theorem eq_symbol_of_expandBelow
    (h : expandBelow resolve stop limit levels path t = .ok (symbol seriesOperator)) :
    t = symbol seriesOperator ∨ ∃ name, resolve name = .ok (some (symbol seriesOperator)) := by
  induction levels using Nat.strong_induction_on generalizing path t with
  | _ levels ih =>
    cases t with
    | atom l =>
      rw [expandBelow_literal rfl] at h
      exact Or.inl (Except.ok.inj h)
    | list items =>
      cases hname : leafName? items with
      | none =>
        obtain ⟨others, heq, -⟩ := (expandBelow_list_iff hname).1 h
        cases heq
      | some name =>
        rw [expandBelow_leaf hname, expandLeafBelow_iff] at h
        rcases h with ⟨-, heq⟩ | ⟨-, below, rfl, -, ⟨-, heq⟩ | ⟨s, body, hs, hbody, heq⟩⟩
        · cases heq
        · cases heq
        · unfold withCarried at heq
          split at heq
          · subst heq
            rcases ih below (Nat.lt_succ_self _) hbody with rfl | hsome
            · exact Or.inr ⟨name, hs⟩
            · exact Or.inr hsome
          · cases heq

/-- **Expansion makes no leaf of a list** that is none. -/
theorem leafName?_expandBelow (hitems : (list items).KeepsLeaves resolve)
    (hname : leafName? items = none)
    (h : List.Forall₂ (fun t u => expandBelow resolve stop limit levels path t = .ok u) items
      others) : leafName? others = none := by
  cases hname' : leafName? others with
  | none => rfl
  | some name =>
    rw [leaf_eq hname'] at h
    obtain ⟨head, rest, hhead, hrest, rfl⟩ := List.forall₂_cons_right_iff.1 h
    obtain ⟨a, more, ha, -, rfl⟩ := List.forall₂_cons_right_iff.1 hrest
    have hsymbol : head = symbol seriesOperator := by
      rcases eq_symbol_of_expandBelow hhead with hsymbol | ⟨n, hn⟩
      · exact hsymbol
      · cases head with
        | list inner => exact absurd hn (hitems.headed inner _ rfl n)
        | atom l =>
          rw [expandBelow_literal rfl] at hhead
          exact Except.ok.inj hhead
    -- So the list is a call of `series`, and its first argument is the literal it was before.
    subst hsymbol
    rw [expandBelow_literal (hitems.flat rfl a List.mem_cons_self)] at ha
    obtain rfl := Except.ok.inj ha
    cases hname

/-! ### Leaves that are left -/

/-- **Whether expansion leaves a node as it is**: if it is a leaf, expansion stops at its name, or
the name is that of no formula. -/
def IsSettled (resolve : String → Except TreeError (Option Tree)) (stop : List String) (limit : Nat)
    (t : Tree) : Prop :=
  ∀ name, t.seriesName? = some name → name ∈ stop ∨ 0 < limit ∧ resolve name = .ok none

theorem isSettled_atom (l : Literal) : IsSettled resolve stop limit (atom l) := nofun

theorem everywhere_isSettled_literal (h : t.literal?.isSome = true) :
    t.Everywhere (IsSettled resolve stop limit) := by
  cases t with
  | list items => cases h
  | atom l => exact everywhere_atom.2 (isSettled_atom l)

/-- There is nothing but literals in a leaf. -/
theorem literal_of_leaf (h : (list items).KeepsLeaves resolve)
    (hname : leafName? items = some name) : ∀ a ∈ items, a.literal?.isSome = true := by
  have hoperator : (list items).operator? = some seriesOperator := by
    rw [leaf_eq hname]
    rfl
  intro a ha
  have hargs := h.flat hoperator
  rw [leaf_eq hname] at ha hargs
  rcases List.mem_cons.1 ha with rfl | ha
  · rfl
  · exact hargs a ha

theorem literal_of_mem_drop (h : ∀ a ∈ items, a.literal?.isSome = true) {n : Nat} :
    ∀ a ∈ items.drop n, a.literal?.isSome = true := fun a ha => h a (List.mem_of_mem_drop ha)

theorem everywhere_isSettled_leaf (h : (list items).KeepsLeaves resolve)
    (hname : leafName? items = some name)
    (hsettled : name ∈ stop ∨ 0 < limit ∧ resolve name = .ok none) :
    (list items).Everywhere (IsSettled resolve stop limit) := by
  refine everywhere_list.2 ⟨fun n hn => ?_, fun a ha =>
    everywhere_isSettled_literal (literal_of_leaf h hname a ha)⟩
  obtain rfl : name = n := Option.some.inj (hname.symm.trans hn)
  exact hsettled

theorem everywhere_isSettled_withCarried {body : Tree}
    (h : ∀ a ∈ items, a.literal?.isSome = true)
    (hbody : body.Everywhere (IsSettled resolve stop limit)) :
    (withCarried items body).Everywhere (IsSettled resolve stop limit) := by
  have hcarried := literal_of_mem_drop h (n := 2)
  unfold withCarried
  split
  · exact hbody
  · refine everywhere_list.2 ⟨nofun, List.forall_mem_cons.2 ⟨everywhere_atom.2 (isSettled_atom _),
      List.forall_mem_cons.2 ⟨hbody, fun a ha => everywhere_isSettled_literal (hcarried a ha)⟩⟩⟩

/-- What is expanded with what the leaf carries. -/
theorem expandBelow_withCarried {body : Tree} (h : ∀ a ∈ items, a.literal?.isSome = true)
    (hbody : expandBelow resolve stop limit levels path u = .ok body) :
    expandBelow resolve stop limit levels path (withCarried items u) =
      .ok (withCarried items body) := by
  have hcarried := literal_of_mem_drop h (n := 2)
  unfold withCarried
  split
  · exact hbody
  · exact (expandBelow_list_iff rfl).2 ⟨_, rfl, .cons (expandBelow_literal rfl) (.cons hbody
      (List.forall₂_same.2 fun a ha => expandBelow_literal (hcarried a ha)))⟩

/-- A formula with nothing to expand is expanded to itself. -/
theorem expandBelow_of_isSettled (h : u.Everywhere (IsSettled resolve stop limit)) :
    expandBelow resolve stop limit limit [] u = .ok u := by
  induction u using inductionOn with
  | atom l => exact expandBelow_literal rfl
  | list items ih =>
    obtain ⟨hsettled, hitems⟩ := everywhere_list.1 h
    cases hname : leafName? items with
    | none =>
      exact (expandBelow_list_iff hname).2
        ⟨items, rfl, List.forall₂_same.2 fun t ht => ih t ht (hitems t ht)⟩
    | some name =>
      rw [expandBelow_leaf hname, expandLeafBelow_iff]
      by_cases hstop : name ∈ stop
      · exact Or.inl ⟨hstop, rfl⟩
      · obtain ⟨hpos, hnone⟩ := (hsettled name hname).resolve_left hstop
        exact Or.inr ⟨hstop, limit - 1, by omega, List.not_mem_nil, Or.inl ⟨hnone, rfl⟩⟩

section

variable (hresolve : ∀ name t, resolve name = .ok (some t) → t.Everywhere (KeepsLeaves resolve))

include hresolve

/-- **Nothing is left to expand** in what has been expanded. -/
theorem everywhere_isSettled (hlevels : levels ≤ limit) (ht : t.Everywhere (KeepsLeaves resolve))
    (h : expandBelow resolve stop limit levels path t = .ok u) :
    u.Everywhere (IsSettled resolve stop limit) := by
  -- The levels go down with what is inlined, and within one level the formula is gone through.
  induction levels using Nat.strong_induction_on generalizing path t u with
  | _ levels ih =>
    induction t using inductionOn generalizing u with
    | atom l =>
      rw [expandBelow_literal rfl] at h
      obtain rfl := Except.ok.inj h
      exact everywhere_isSettled_literal rfl
    | list items ihitems =>
      obtain ⟨hself, hitems⟩ := everywhere_list.1 ht
      cases hname : leafName? items with
      | none =>
        obtain ⟨others, rfl, hall⟩ := (expandBelow_list_iff hname).1 h
        refine everywhere_list.2 ⟨fun n hn => ?_, fun v hv => ?_⟩
        · exact absurd ((leafName?_expandBelow hself hname hall).symm.trans hn) nofun
        · obtain ⟨s, hs, hsv⟩ := Result.exists_of_mem_right hall hv
          exact ihitems s hs (hitems s hs) hsv
      | some name =>
        rw [expandBelow_leaf hname, expandLeafBelow_iff] at h
        rcases h with
          ⟨hstop, rfl⟩ | ⟨-, below, rfl, -, ⟨hnone, rfl⟩ | ⟨s, body, hs, hbody, rfl⟩⟩
        · exact everywhere_isSettled_leaf hself hname (Or.inl hstop)
        · exact everywhere_isSettled_leaf hself hname (Or.inr ⟨by omega, hnone⟩)
        · exact everywhere_isSettled_withCarried (literal_of_leaf hself hname)
            (ih below (Nat.lt_succ_self _) (by omega) (hresolve name s hs) hbody)

/-- **Expansion that does not stop goes on** from where expansion has stopped. -/
theorem exists_expandBelow_upTo (stop : List String) (ht : t.Everywhere (KeepsLeaves resolve))
    (h : expandBelow resolve [] limit levels path t = .ok u) :
    ∃ v, expandBelow resolve stop limit levels path t = .ok v ∧
      expandBelow resolve [] limit levels path v = .ok u := by
  induction levels using Nat.strong_induction_on generalizing path t u with
  | _ levels ih =>
    induction t using inductionOn generalizing u with
    | atom l =>
      rw [expandBelow_literal rfl] at h
      obtain rfl := Except.ok.inj h
      exact ⟨atom l, expandBelow_literal rfl, expandBelow_literal rfl⟩
    | list items ihitems =>
      obtain ⟨hself, hitems⟩ := everywhere_list.1 ht
      cases hname : leafName? items with
      | none =>
        obtain ⟨others, rfl, hall⟩ := (expandBelow_list_iff hname).1 h
        obtain ⟨between, hbetween, hothers⟩ := Result.exists_forall₂_comp
          (Result.forall₂_imp_of_mem hall fun s hs v hv => ihitems s hs (hitems s hs) hv)
        have hname' := leafName?_expandBelow hself hname hbetween
        exact ⟨list between, (expandBelow_list_iff hname).2 ⟨between, rfl, hbetween⟩,
          (expandBelow_list_iff hname').2 ⟨others, rfl, hothers⟩⟩
      | some name =>
        have hleaf := h
        rw [expandBelow_leaf hname, expandLeafBelow_iff] at hleaf
        rcases hleaf with ⟨hmem, -⟩ | ⟨-, below, rfl, hpath, hleaf⟩
        · cases hmem
        by_cases hstop : name ∈ stop
        · exact ⟨list items,
            (expandBelow_leaf hname).trans (expandLeafBelow_iff.2 (Or.inl ⟨hstop, rfl⟩)), h⟩
        rcases hleaf with ⟨hnone, -⟩ | ⟨s, body, hs, hbody, rfl⟩
        · exact ⟨list items, (expandBelow_leaf hname).trans (expandLeafBelow_iff.2
            (Or.inr ⟨hstop, below, rfl, hpath, Or.inl ⟨hnone, rfl⟩⟩)), h⟩
        · -- The formula that is inlined goes on where it has stopped, with the name off the path.
          obtain ⟨v, hv, hvbody⟩ := ih below (Nat.lt_succ_self _) (hresolve name s hs) hbody
          refine ⟨withCarried items v, (expandBelow_leaf hname).trans (expandLeafBelow_iff.2
            (Or.inr ⟨hstop, below, rfl, hpath, Or.inr ⟨s, v, hs, hv, rfl⟩⟩)), ?_⟩
          exact expandBelow_withCarried (literal_of_leaf hself hname)
            (expandBelow_mono (Nat.le_succ _) (List.subset_append_left _ _) hvbody)

/-- **Expansion up to names.** What is left when expansion stops at certain names are leaves of these
names and leaves that name no formula, and to expand it again changes nothing. If expansion that
does not stop gives something, so does the one that stops, and from there expansion that does not
stop gives the same. -/
theorem expand_upTo (ht : t.Everywhere (KeepsLeaves resolve)) (stop : List String) (limit : Nat) :
    (∀ u, t.expand resolve stop limit = .ok u →
      (∀ name ∈ u.leafNames seriesOperator, name ∈ stop ∨ resolve name = .ok none) ∧
      u.expand resolve stop limit = .ok u) ∧
    ∀ full, t.expand resolve [] limit = .ok full →
      ∃ u, t.expand resolve stop limit = .ok u ∧ u.expand resolve [] limit = .ok full := by
  refine ⟨fun u hu => ?_, fun full hfull => exists_expandBelow_upTo hresolve stop ht hfull⟩
  have hsettled := everywhere_isSettled hresolve (Nat.le_refl limit) ht hu
  refine ⟨fun name hname => ?_, expandBelow_of_isSettled hsettled⟩
  obtain ⟨node, hnode, hfirst⟩ := mem_leafNames.1 hname
  exact (hsettled node hnode name hfirst).imp_right (·.2)

end

/-- What names stand for in a list of formulas. -/
def namedIn (formulas : List (String × Tree)) (name : String) : Except TreeError (Option Tree) :=
  .ok (formulas.lookup name)

theorem of_namedIn {P : Tree → Prop} {formulas : List (String × Tree)}
    (h : ∀ formula ∈ formulas, P formula.2) (ht : namedIn formulas name = .ok (some t)) : P t :=
  h (name, t) (OrderedMap.mem_of_lookup (Except.ok.inj ht))

/-- A series leaf that carries nothing. -/
def bareLeaf (name : String) : Tree := list [symbol seriesOperator, str name]

/-- Two formulas, of which the second refers to the first. -/
def nestedFormulas : List (String × Tree) :=
  [("f", bareLeaf "x"), ("g", list [symbol "*", atom (.int 2), bareLeaf "f"])]

/-- A formula that refers to both, to the second with an option. -/
def nestedReferences : Tree :=
  list [symbol "add", bareLeaf "f",
    list [symbol seriesOperator, str "g", symbol "#:fill", atom (.int 0)]]

/-- The formula with the second inlined, and a leaf for the first. -/
def nestedUpTo (name : String) : Tree :=
  list [symbol "add", bareLeaf name, list [symbol optionsOperator,
    list [symbol "*", atom (.int 2), bareLeaf name], symbol "#:fill", atom (.int 0)]]

theorem expand_upTo_nested :
    nestedReferences.expand (namedIn nestedFormulas) ["f"] 16 = .ok (nestedUpTo "f") ∧
      (nestedUpTo "f").expand (namedIn nestedFormulas) ["f"] 16 = .ok (nestedUpTo "f") ∧
      nestedReferences.expand (namedIn nestedFormulas) [] 16 = .ok (nestedUpTo "x") ∧
      (nestedUpTo "f").expand (namedIn nestedFormulas) [] 16 = .ok (nestedUpTo "x") := by
  have hsymbol (name : String) :
      namedIn nestedFormulas name ≠ .ok (some (symbol seriesOperator)) := fun h =>
    of_namedIn (P := (· ≠ symbol seriesOperator)) (by decide +kernel) h rfl
  have hkeeps {t : Tree} (ht : t.Everywhere IsFlat) :
      t.Everywhere (KeepsLeaves (namedIn nestedFormulas)) :=
    ht.mono fun _ hu => ⟨hu, fun _ _ _ => hsymbol⟩
  have hformulas (name : String) (t : Tree) (ht : namedIn nestedFormulas name = .ok (some t)) :
      t.Everywhere (KeepsLeaves (namedIn nestedFormulas)) :=
    hkeeps (of_namedIn (by decide +kernel) ht)
  have hupTo : nestedReferences.expand (namedIn nestedFormulas) ["f"] 16 =
    .ok (nestedUpTo "f") := rfl
  have hfull : nestedReferences.expand (namedIn nestedFormulas) [] 16 = .ok (nestedUpTo "x") := rfl
  have hreferences : nestedReferences.Everywhere IsFlat := by decide +kernel
  obtain ⟨hstops, hgoes⟩ := expand_upTo hformulas (hkeeps hreferences) ["f"] 16
  obtain ⟨u, hu, hagain⟩ := hgoes _ hfull
  obtain rfl := Except.ok.inj (hupTo.symm.trans hu)
  exact ⟨hupTo, (hstops _ hupTo).2, hfull, hagain⟩

/-- The symbol `series` and a leaf, as formulas. -/
def symbolAndLeaf : List (String × Tree) := [("s", symbol seriesOperator), ("a", bareLeaf "b")]

/-- **A list headed by a leaf** may become a leaf when it is expanded, although no call of `series`
has other arguments than literals, and then expansion is not at its end. -/
theorem not_expand_upTo : ¬ ∀ (t : Tree) (resolve : String → Except TreeError (Option Tree))
    (stop : List String) (limit : Nat), t.Everywhere IsFlat →
    (∀ name s, resolve name = .ok (some s) → s.Everywhere IsFlat) →
    ∀ u, t.expand resolve stop limit = .ok u →
      (∀ name ∈ u.leafNames seriesOperator, name ∈ stop ∨ resolve name = .ok none) ∧
      u.expand resolve stop limit = .ok u := by
  intro hall
  obtain ⟨-, hagain⟩ := hall (list [bareLeaf "s", str "a"]) (namedIn symbolAndLeaf) [] 16
    (by decide +kernel) (fun _ _ hs => of_namedIn (by decide +kernel) hs) (bareLeaf "a") rfl
  have hleaf : (bareLeaf "a").expand (namedIn symbolAndLeaf) [] 16 = .ok (bareLeaf "b") := rfl
  exact absurd (Except.ok.inj (hleaf.symm.trans hagain)) (by decide +kernel)

end Tree

end SeriesAlgebra
