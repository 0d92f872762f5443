import SeriesAlgebra.Proofs.Evaluation.Leaves

/-!
# Expanded formulas

Expansion replaces the series leaves of a formula and nothing else: the formula and its
expansion correspond to each other, a leaf to its image
(`Tree.corresponds_mapLeaves`). What a leaf is replaced by is the leaf itself, if expansion
stops at its name or it names no formula, and else the expansion of the formula that it
names (`Tree.expandLeafBelow_ok`). So an expanded formula has the shape of a formula again,
none of its leaves names a formula unless expansion stops there, and its constant calls are
as they were written (`Tree.everywhere_expandBelow_upTo`).
-/

namespace SeriesAlgebra

open Evaluation

namespace Tree

/-! ### Leaves -/

/-- A series leaf with a name. -/
structure IsNamed (items : List Tree) (name : String) : Prop where
  calls : Calls items .series
  scalar : ∀ t ∈ items.tail, t.IsScalar
  name : leafName? items = some name

/-- A leaf with a name, written out. -/
theorem leaf_eq {items : List Tree} {name : String} (h : leafName? items = some name) :
    items = symbol seriesOperator :: str name :: items.drop 2 := by
  unfold leafName? seriesName? firstName? at h
  split at h
  · rename_i hoperator
    cases items with
    | nil => cases hoperator
    | cons head args =>
      rw [head_of_headSymbol? hoperator]
      cases args with
      | nil => cases h
      | cons a rest =>
        cases a with
        | list _ => cases h
        | atom l =>
          cases l with
          | str text =>
            obtain rfl := Option.some.inj h
            rfl
          | _ => cases h
  · cases h

theorem calls_of_leafName? {items : List Tree} {name : String} (h : leafName? items = some name) :
    Calls items .series := by
  rw [leaf_eq h]
  rfl

theorem leafName?_eq_none {items : List Tree} {b : Builtin} (hb : Calls items b)
    (hne : b ≠ .series) : leafName? items = none := by
  cases h : leafName? items with
  | none => rfl
  | some name => exact absurd (hb.unique (calls_of_leafName? h)) hne

/-! ### References -/

theorem mem_referencesOfAll {registry : Registry} {name : String} {items : List Tree} :
    name ∈ referencesOfAll registry items ↔ ∃ t ∈ items, name ∈ t.references registry := by
  induction items with
  | nil => simp [referencesOfAll]
  | cons t rest ih => rw [referencesOfAll, List.mem_append, ih, List.exists_mem_cons_iff]

/-- What a call refers to. -/
theorem references_call {items : List Tree} {b : Builtin} (hb : Calls items b) :
    (list items).references .builtin =
      ((b.namedSeries? items.tail).getD (referencesOfAll .builtin items.tail)) := by
  obtain ⟨args, rfl⟩ := list_of_calls hb
  have hnamed : (some (Operator.builtin b)).bind
      (Operator.namedSeries? (list (symbol b.name :: args)).args) = b.namedSeries? args := rfl
  rw [references, namedSeries?, hb.operatorOf?, hnamed, List.tail_cons]
  cases b.namedSeries? args <;> rfl

/-- What a call names itself is what it is a leaf of. -/
theorem namedSeries?_tail {items : List Tree} {b : Builtin} (hb : Calls items b) :
    b.namedSeries? items.tail = (leafName? items).map fun name => [name] := by
  by_cases hseries : b = .series
  · obtain ⟨args, rfl⟩ := list_of_calls hb
    subst hseries
    rfl
  · rw [leafName?_eq_none hb hseries]
    cases b <;> first | rfl | exact absurd rfl hseries

/-- **A formula refers to the names of its leaves.** -/
theorem mem_references {t : Tree} (ht : t.Everywhere IsFormulaNode) {items : List Tree}
    {name : String} (hmem : list items ∈ t.nodes) (hname : leafName? items = some name) :
    name ∈ t.references .builtin := by
  induction t using inductionOn with
  | atom l => cases List.mem_singleton.1 hmem
  | list others ih =>
    obtain ⟨⟨b, hb, hgroup, hgroupAdd, hscalar, -⟩, hothers⟩ := everywhere_list.1 ht
    rw [references_call hb]
    rcases mem_nodes_list.1 hmem with heq | ⟨t, ht', hnode⟩
    · obtain rfl := list.inj heq
      obtain rfl := hb.unique (calls_of_leafName? hname)
      rw [leaf_eq hname]
      exact List.mem_singleton.2 rfl
    · obtain ⟨args, rfl⟩ := list_of_calls hb
      have harg : t ∈ args := by
        rcases List.mem_cons.1 ht' with rfl | ht'
        · cases List.mem_singleton.1 hnode
        · exact ht'
      by_cases hseries : b = .series
      · -- A leaf cannot stand inside another.
        obtain ⟨c, hc, hc'⟩ := hscalar (Or.inl hseries) t harg _ hnode
        obtain rfl := hc.unique (calls_of_leafName? hname)
        cases hc'
      · rw [namedSeries?_tail hb, leafName?_eq_none hb hseries]
        exact mem_referencesOfAll.2 ⟨t, harg, ih t ht' (hothers t ht') hnode⟩

/-! ### Images -/

section

variable {f : String → List Tree → Except TreeError Tree}

theorem forall₂_of_mapLeavesOfAll {items others : List Tree}
    (h : mapLeavesOfAll f items = .ok others) :
    List.Forall₂ (fun t u => t.mapLeaves f = .ok u) items others := by
  induction items generalizing others with
  | nil =>
    rw [mapLeavesOfAll] at h
    obtain rfl := Except.ok.inj h
    exact .nil
  | cons t rest ih =>
    rw [mapLeavesOfAll] at h
    obtain ⟨u, hu, h⟩ := Result.bind_ok h
    obtain ⟨us, hus, h⟩ := Result.bind_ok h
    obtain rfl := Except.ok.inj h
    exact .cons hu (ih hus)

/-- The image of a list that is no leaf. -/
theorem mapLeaves_list {items : List Tree} (hname : leafName? items = none) {u : Tree}
    (h : (list items).mapLeaves f = .ok u) : ∃ others, u = list others ∧
      List.Forall₂ (fun t u => t.mapLeaves f = .ok u) items others := by
  rw [mapLeaves, hname] at h
  obtain ⟨others, hothers, rfl⟩ := Result.map_ok h
  exact ⟨others, rfl, forall₂_of_mapLeavesOfAll hothers⟩

theorem mapLeaves_leaf {items : List Tree} {name : String} (hname : leafName? items = some name) :
    (list items).mapLeaves f = f name items := by
  rw [mapLeaves, hname]

/-- The image of a list is a list, if the images of leaves are. -/
theorem isList_mapLeaves (hf : ∀ name items u, f name items = .ok u → u.literal? = none)
    {t u : Tree} (ht : t.literal? = none) (h : t.mapLeaves f = .ok u) : u.literal? = none := by
  cases t with
  | atom l => cases ht
  | list items =>
    cases hname : leafName? items with
    | some name =>
      rw [mapLeaves_leaf hname] at h
      exact hf name items u h
    | none =>
      obtain ⟨others, rfl, -⟩ := mapLeaves_list hname h
      rfl

/-- A scalar has no leaves. -/
theorem mapLeaves_scalar {t u : Tree} (ht : t.IsScalar) (h : t.mapLeaves f = .ok u) : u = t := by
  induction t using inductionOn generalizing u with
  | atom l =>
    rw [mapLeaves] at h
    exact (Except.ok.inj h).symm
  | list items ih =>
    obtain ⟨⟨b, hb, hscalar⟩, hitems⟩ := everywhere_list.1 ht
    have hne : b ≠ .series := by
      rintro rfl
      cases hscalar
    obtain ⟨others, rfl, hall⟩ := mapLeaves_list (leafName?_eq_none hb hne) h
    congr 1
    have heq : List.Forall₂ Eq items others :=
      Result.forall₂_imp_of_mem hall fun t ht u hu => (ih t ht (hitems t ht) hu).symm
    exact (List.forall₂_eq_eq_eq ▸ heq : items = others).symm

theorem map_scalars {items others : List Tree} (hitems : ∀ t ∈ items, t.IsScalar)
    (h : List.Forall₂ (fun t u => t.mapLeaves f = .ok u) items others) : others = items := by
  have heq : List.Forall₂ Eq items others :=
    Result.forall₂_imp_of_mem h fun t ht u hu => (mapLeaves_scalar (hitems t ht) hu).symm
  exact (List.forall₂_eq_eq_eq ▸ heq : items = others).symm

/-- What is put for a leaf: its image if it has a name, and itself if it is a constant call. -/
inductive IsImage (f : String → List Tree → Except TreeError Tree) : List Tree → Tree → Prop
  | named {items : List Tree} {name : String} (h : IsNamed items name) {u : Tree}
      (hu : f name items = .ok u) : IsImage f items u
  | nameless {items : List Tree} (h : Calls items .series) (hname : leafName? items = none)
      (others : List Tree) : IsImage f items (list others)
  | constant {items : List Tree} (h : Calls items .constant)
      (hscalar : ∀ t ∈ items.tail, t.IsScalar) : IsImage f items (list items)

/-- **A formula and its image correspond to each other**, a leaf to its image. -/
theorem corresponds_mapLeaves {L : List Tree → Tree → Prop} {t u : Tree}
    (ht : t.Everywhere IsFormulaNode) (h : t.mapLeaves f = .ok u)
    (hf : ∀ name items u, f name items = .ok u → u.literal? = none)
    (hL : ∀ items v, list items ∈ t.nodes → IsImage f items v → L items v) :
    Corresponds L Stands t u := by
  induction t using inductionOn generalizing u with
  | atom l =>
    rw [mapLeaves] at h
    obtain rfl := Except.ok.inj h
    exact .atom l trivial
  | list items ih =>
    obtain ⟨⟨b, hb, hgroup, hgroupAdd, hscalar, -⟩, hitems⟩ := everywhere_list.1 ht
    have hself : list items ∈ (list items).nodes := self_mem_nodes _
    cases hname : leafName? items with
    | some name =>
      rw [mapLeaves_leaf hname] at h
      have hseries := hb.unique (calls_of_leafName? hname)
      subst hseries
      exact .leaf (hL items u hself (.named ⟨hb, hscalar (Or.inl rfl), hname⟩ h))
        (hf name items u h)
    | none =>
      obtain ⟨others, rfl, hall⟩ := mapLeaves_list hname h
      by_cases hseries : b = .series
      · subst hseries
        exact .leaf (hL items _ hself (.nameless hb hname others)) rfl
      by_cases hconstant : b = .constant
      · subst hconstant
        have htail := hscalar (Or.inr (Or.inl rfl))
        obtain ⟨args, rfl⟩ := list_of_calls hb
        have hothers : others = symbol Builtin.constant.name :: args := by
          refine map_scalars (fun t ht => ?_) hall
          rcases List.mem_cons.1 ht with rfl | ht
          · exact everywhere_atom.2 trivial
          · exact htail t ht
        rw [hothers]
        exact .leaf (hL _ _ hself (.constant hb htail)) rfl
      · have happlied : isApplied b = true := by
          cases b <;> first | rfl | exact absurd rfl hgroup | exact absurd rfl hseries |
            exact absurd rfl hconstant
        refine .call hb happlied (stands_of_calls hb hgroupAdd)
          (Result.forall₂_imp_of_mem hall fun t ht u hu => ih t ht (hitems t ht) hu ?_)
        intro others v hothers
        exact hL others v (mem_nodes_list.2 (Or.inr ⟨t, ht, hothers⟩))

end

/-! ### Expansion -/

variable {resolve : String → Except TreeError (Option Tree)} {limit : Nat}

/-- What leaves are replaced by when a formula is expanded at a level below a path. -/
def expandLeafBelow (resolve : String → Except TreeError (Option Tree)) (stop : List String)
    (limit : Nat) : Nat → List String → String → List Tree → Except TreeError Tree
  | 0, path => expandLeaf resolve stop fun name =>
      if path.contains name then throw (.cycle (path ++ [name])) else throw (.tooDeep limit)
  | levels + 1, path => expandLeaf resolve stop fun name =>
      if path.contains name then throw (.cycle (path ++ [name]))
      else pure (expandBelow resolve stop limit levels (path ++ [name]))

theorem expandBelow_eq_mapLeaves {stop : List String} (levels : Nat) (path : List String)
    (t : Tree) : expandBelow resolve stop limit levels path t =
      t.mapLeaves (expandLeafBelow resolve stop limit levels path) := by
  cases levels <;> rfl

/-- **What becomes of a leaf**: first the names to stop at count, then those that are being inlined,
then the levels that are left. -/
theorem expandLeafBelow_eq {stop : List String} {levels : Nat} {path : List String} {name : String}
    {items : List Tree} : expandLeafBelow resolve stop limit levels path name items =
      if name ∈ stop then .ok (list items)
      else if name ∈ path then .error (.cycle (path ++ [name]))
      else match levels with
        | 0 => .error (.tooDeep limit)
        | below + 1 => resolve name >>= fun
          | none => .ok (list items)
          | some t =>
            withCarried items <$> expandBelow resolve stop limit below (path ++ [name]) t := by
  by_cases hstop : name ∈ stop
  · cases levels <;> exact (if_pos (List.contains_iff_mem.2 hstop)).trans (if_pos hstop).symm
  have hstop' : ¬ stop.contains name = true := fun h => hstop (List.contains_iff_mem.1 h)
  rw [if_neg hstop]
  by_cases hpath : name ∈ path
  · have hpath' : path.contains name = true := List.contains_iff_mem.2 hpath
    rw [if_pos hpath]
    cases levels <;> rw [expandLeafBelow, expandLeaf, if_neg hstop', if_pos hpath'] <;> rfl
  · have hpath' : ¬ path.contains name = true := fun h => hpath (List.contains_iff_mem.1 h)
    rw [if_neg hpath]
    cases levels <;> rw [expandLeafBelow, expandLeaf, if_neg hstop', if_neg hpath'] <;> rfl

/-- **What a leaf is expanded to, and when**: to itself at once if expansion stops at its name, and
else if there are levels left and the name is not being inlined. -/
theorem expandLeafBelow_iff {stop : List String} {levels : Nat} {path : List String} {name : String}
    {items : List Tree} {u : Tree} :
    expandLeafBelow resolve stop limit levels path name items = .ok u ↔
      name ∈ stop ∧ u = list items ∨ name ∉ stop ∧ ∃ below, levels = below + 1 ∧ name ∉ path ∧
        (resolve name = .ok none ∧ u = list items ∨ ∃ t body, resolve name = .ok (some t) ∧
          expandBelow resolve stop limit below (path ++ [name]) t = .ok body ∧
          u = withCarried items body) := by
  rw [expandLeafBelow_eq]
  by_cases hstop : name ∈ stop
  · rw [if_pos hstop, and_iff_right hstop, or_iff_left fun h => h.1 hstop]
    exact ⟨fun h => (Except.ok.inj h).symm, fun h => h ▸ rfl⟩
  rw [if_neg hstop, and_iff_right hstop, or_iff_right fun h => hstop h.1]
  by_cases hpath : name ∈ path
  · rw [if_pos hpath]
    exact ⟨nofun, fun ⟨_, _, h, _⟩ => absurd hpath h⟩
  rw [if_neg hpath]
  cases levels with
  | zero => exact ⟨nofun, nofun⟩
  | succ below =>
    constructor
    · intro h
      refine ⟨below, rfl, hpath, ?_⟩
      obtain ⟨formula, hformula, h⟩ := Result.bind_ok h
      cases formula with
      | none => exact Or.inl ⟨hformula, (Except.ok.inj h).symm⟩
      | some t =>
        obtain ⟨body, hbody, rfl⟩ := Result.map_ok h
        exact Or.inr ⟨t, body, hformula, hbody, rfl⟩
    · rintro ⟨_, hlevels, -, ⟨hnone, rfl⟩ | ⟨t, body, ht, hbody, rfl⟩⟩
      · dsimp only
        rw [hnone]
        rfl
      · obtain rfl := Nat.succ.inj hlevels
        dsimp only
        rw [ht]
        change withCarried items <$> expandBelow resolve stop limit below (path ++ [name]) t = _
        rw [hbody]
        rfl

/-- **What a leaf fails with, and when**: expansion does not stop at its name, and the name is being
inlined, or no levels are left, or the formula cannot be found or expanded. -/
theorem expandLeafBelow_error {stop : List String} {levels : Nat} {path : List String}
    {name : String} {items : List Tree} {cause : TreeError}
    (h : expandLeafBelow resolve stop limit levels path name items = .error cause) :
    name ∉ stop ∧ (name ∈ path ∧ cause = .cycle (path ++ [name]) ∨
      name ∉ path ∧ (levels = 0 ∧ cause = .tooDeep limit ∨ ∃ below, levels = below + 1 ∧
        (resolve name = .error cause ∨ ∃ t, resolve name = .ok (some t) ∧
          expandBelow resolve stop limit below (path ++ [name]) t = .error cause))) := by
  rw [expandLeafBelow_eq] at h
  by_cases hstop : name ∈ stop
  · rw [if_pos hstop] at h
    cases h
  rw [if_neg hstop] at h
  refine ⟨hstop, ?_⟩
  by_cases hpath : name ∈ path
  · rw [if_pos hpath] at h
    exact Or.inl ⟨hpath, (Except.error.inj h).symm⟩
  rw [if_neg hpath] at h
  refine Or.inr ⟨hpath, ?_⟩
  cases levels with
  | zero => exact Or.inl ⟨rfl, (Except.error.inj h).symm⟩
  | succ below =>
    refine Or.inr ⟨below, rfl, ?_⟩
    rcases Result.bind_error h with h | ⟨formula, hformula, h⟩
    · exact Or.inl h
    · cases formula with
      | none => cases h
      | some t => exact Or.inr ⟨t, hformula, Result.map_error h⟩

/-- **How a leaf is expanded**, by its name. -/
inductive ExpandsTo (resolve : String → Except TreeError (Option Tree)) (stop : List String)
    (limit levels : Nat) (path : List String) (name : String) (items : List Tree) : Tree → Prop
  /-- The name is one to stop at. -/
  | stops (h : name ∈ stop) : ExpandsTo resolve stop limit levels path name items (list items)
  /-- The name is that of no formula. -/
  | primary (hstop : name ∉ stop) (h : resolve name = .ok none) :
      ExpandsTo resolve stop limit levels path name items (list items)
  /-- The formula is inlined. -/
  | inlines {below : Nat} {t body : Tree} (hstop : name ∉ stop) (hlevels : levels = below + 1)
      (ht : resolve name = .ok (some t))
      (hbody : expandBelow resolve stop limit below (path ++ [name]) t = .ok body) :
      ExpandsTo resolve stop limit levels path name items (withCarried items body)

theorem expandLeafBelow_ok {stop : List String} {levels : Nat} {path : List String} {name : String}
    {items : List Tree} {u : Tree}
    (h : expandLeafBelow resolve stop limit levels path name items = .ok u) :
    ExpandsTo resolve stop limit levels path name items u := by
  rcases expandLeafBelow_iff.1 h with
    ⟨hstop, rfl⟩ | ⟨hstop, below, hlevels, -, ⟨hnone, rfl⟩ | ⟨t, body, ht, hbody, rfl⟩⟩
  · exact .stops hstop
  · exact .primary hstop hnone
  · exact .inlines hstop hlevels ht hbody

/-- What leaves are replaced by at a level if expansion stops nowhere. -/
def leafExpansion (resolve : String → Except TreeError (Option Tree)) (limit : Nat) :
    Nat → List String → String → List Tree → Except TreeError Tree :=
  expandLeafBelow resolve [] limit

theorem expandBelow_eq (levels : Nat) (path : List String) (t : Tree) :
    expandBelow resolve [] limit levels path t =
      t.mapLeaves (leafExpansion resolve limit levels path) := expandBelow_eq_mapLeaves levels path t

/-- **What a leaf is expanded to**: itself, or the expansion of the formula that it names, with what
the leaf carries. -/
theorem leafExpansion_ok {levels : Nat} {path : List String} {name : String} {items : List Tree}
    {u : Tree} (h : leafExpansion resolve limit levels path name items = .ok u) :
    resolve name = .ok none ∧ u = list items ∨
      ∃ below t body, levels = below + 1 ∧ resolve name = .ok (some t) ∧
        expandBelow resolve [] limit below (path ++ [name]) t = .ok body ∧
        u = withCarried items body := by
  rcases expandLeafBelow_ok h with hstop | ⟨-, hnone⟩ | ⟨-, hlevels, ht, hbody⟩
  · cases hstop
  · exact Or.inl ⟨hnone, rfl⟩
  · exact Or.inr ⟨_, _, _, hlevels, ht, hbody, rfl⟩

/-! ### The shape of expanded formulas -/

/-- A node that may stand in an expanded formula: of its leaves, none names a formula, and constant
calls have a property that they have in all formulas. -/
structure IsExpandedNode (resolve : String → Except TreeError (Option Tree))
    (K : List Tree → Prop) (t : Tree) : Prop where
  formula : IsFormulaNode t
  leaf : ∀ items name, t = list items → leafName? items = some name → resolve name = .ok none
  constant : ∀ items, t = list items → Calls items .constant → K items

/-- What names stand for if some of them are taken for no formulas. -/
def upTo (stop : List String) (resolve : String → Except TreeError (Option Tree)) (name : String) :
    Except TreeError (Option Tree) := if name ∈ stop then .ok none else resolve name

/-- Whether all constant calls of a formula have a property. -/
def Constants (K : List Tree → Prop) (t : Tree) : Prop :=
  ∀ items, list items ∈ t.nodes → Calls items .constant → K items

variable {K : List Tree → Prop}

theorem Constants.item {items : List Tree} (h : Constants K (list items)) {t : Tree}
    (ht : t ∈ items) : Constants K t :=
  fun others hothers => h others (mem_nodes_list.2 (Or.inr ⟨t, ht, hothers⟩))

theorem isExpandedNode_atom (l : Literal) : IsExpandedNode resolve K (atom l) :=
  ⟨trivial, fun _ _ h => Tree.noConfusion h, fun _ h => Tree.noConfusion h⟩

/-- A scalar may stand in an expanded formula. -/
theorem everywhere_scalar {t : Tree} (ht : t.Everywhere IsFormulaNode) (hscalar : t.IsScalar) :
    t.Everywhere (IsExpandedNode resolve K) := by
  intro u hu
  refine ⟨ht u hu, fun items name heq hname => ?_, fun items heq hconstant => ?_⟩
  all_goals
    subst heq
    obtain ⟨b, hb, hscalar⟩ := hscalar _ hu
  · have hseries := hb.unique (calls_of_leafName? hname)
    subst hseries
    cases hscalar
  · have hconstant := hb.unique hconstant
    subst hconstant
    cases hscalar

theorem everywhere_mapLeaves {f : String → List Tree → Except TreeError Tree} {t u : Tree}
    (ht : t.Everywhere IsFormulaNode) (hK : t.Constants K) (h : t.mapLeaves f = .ok u)
    (hf : ∀ name items v, (list items).Everywhere IsFormulaNode → IsNamed items name →
      f name items = .ok v → v.Everywhere (IsExpandedNode resolve K)) :
    u.Everywhere (IsExpandedNode resolve K) := by
  induction t using inductionOn generalizing u with
  | atom l =>
    rw [mapLeaves] at h
    obtain rfl := Except.ok.inj h
    exact everywhere_atom.2 (isExpandedNode_atom l)
  | list items ih =>
    obtain ⟨⟨b, hb, hgroup, hgroupAdd, hscalar, hlength⟩, hitems⟩ := everywhere_list.1 ht
    cases hname : leafName? items with
    | some name =>
      rw [mapLeaves_leaf hname] at h
      have hseries := hb.unique (calls_of_leafName? hname)
      subst hseries
      exact hf name items u ht ⟨hb, hscalar (Or.inl rfl), hname⟩ h
    | none =>
      obtain ⟨others, rfl, hall⟩ := mapLeaves_list hname h
      have hother (v : Tree) (hv : v ∈ others) : v.Everywhere (IsExpandedNode resolve K) := by
        obtain ⟨t, ht, htv⟩ := Result.exists_of_mem_right hall hv
        exact ih t ht (hitems t ht) (hK.item ht) htv
      obtain ⟨args, rfl⟩ := list_of_calls hb
      cases hall with
      | @cons _ head _ rest hhead hrest =>
        rw [symbol, mapLeaves] at hhead
        obtain rfl := Except.ok.inj hhead
        refine everywhere_list.2 ⟨⟨⟨b, rfl, hgroup, hgroupAdd, fun hleaf => ?_, fun h => ?_⟩, ?_, ?_⟩,
          hother⟩
        · have htail := hscalar hleaf
          rw [List.tail_cons, map_scalars htail hrest]
          exact htail
        · exact hrest.length_eq ▸ hlength h
        · intro items name heq hname'
          obtain rfl := list.inj heq
          have hcalls : Calls (symbol b.name :: rest) b := rfl
          have hseries := hcalls.unique (calls_of_leafName? hname')
          subst hseries
          have hrest : rest = args := map_scalars (hscalar (Or.inl rfl)) hrest
          subst hrest
          cases hname.symm.trans hname'
        · intro items heq hconstant
          obtain rfl := list.inj heq
          have hcalls : Calls (symbol b.name :: rest) b := rfl
          have hb' := hcalls.unique hconstant
          subst hb'
          have hrest : rest = args := map_scalars (hscalar (Or.inr (Or.inl rfl))) hrest
          subst hrest
          exact hK _ (self_mem_nodes _) hconstant

/-- A leaf that names no formula may stand in an expanded formula. -/
theorem everywhere_leaf {items : List Tree} {name : String}
    (hitems : (list items).Everywhere IsFormulaNode) (h : IsNamed items name)
    (hname : resolve name = .ok none) : (list items).Everywhere (IsExpandedNode resolve K) := by
  obtain ⟨hnode, hall⟩ := everywhere_list.1 hitems
  refine everywhere_list.2 ⟨⟨hnode, fun items' name' heq hname' => ?_,
    fun items' heq hconstant => ?_⟩, fun t ht => ?_⟩
  · obtain rfl := list.inj heq
    obtain rfl := Option.some.inj (hname'.symm.trans h.name)
    exact hname
  · obtain rfl := list.inj heq
    exact absurd (h.calls.unique hconstant) nofun
  · obtain ⟨args, rfl⟩ := list_of_calls h.calls
    rcases List.mem_cons.1 ht with rfl | ht
    · exact everywhere_atom.2 (isExpandedNode_atom _)
    · exact everywhere_scalar (hall t (List.mem_cons_of_mem _ ht)) (h.scalar t ht)

/-- So may an inlined formula with what the leaf carries. -/
theorem everywhere_withCarried {items : List Tree} {name : String} {body : Tree}
    (hitems : (list items).Everywhere IsFormulaNode) (h : IsNamed items name)
    (hbody : body.Everywhere (IsExpandedNode resolve K)) :
    (withCarried items body).Everywhere (IsExpandedNode resolve K) := by
  unfold withCarried
  split
  · exact hbody
  · have hnode : IsFormulaNode (list (symbol optionsOperator :: body :: items.drop 2)) :=
      ⟨.options, rfl, nofun, nofun, nofun, nofun⟩
    have hoptions : Calls (symbol optionsOperator :: body :: items.drop 2) .options := rfl
    refine everywhere_list.2 ⟨⟨hnode, fun items' name' heq hname' => ?_,
      fun items' heq hconstant => ?_⟩, fun t ht => ?_⟩
    · obtain rfl := list.inj heq
      exact absurd (hoptions.unique (calls_of_leafName? hname')) nofun
    · obtain rfl := list.inj heq
      exact absurd (hoptions.unique hconstant) nofun
    · rcases List.mem_cons.1 ht with rfl | ht
      · exact everywhere_atom.2 (isExpandedNode_atom _)
      · rcases List.mem_cons.1 ht with rfl | ht
        · exact hbody
        · have hmem : t ∈ items.tail := by
            rw [← List.drop_one]
            exact List.mem_of_mem_drop (List.drop_drop (i := 1) (j := 1) (l := items) ▸ ht)
          exact everywhere_scalar ((everywhere_list.1 hitems).2 t (List.mem_of_mem_tail hmem))
            (h.scalar t hmem)

section

variable (hlists : ∀ name t, resolve name = .ok (some t) → t.literal? = none)

include hlists

/-- The image of a leaf is a list, if formulas are. -/
theorem isList_expandLeafBelow {stop : List String} {levels : Nat} {path : List String}
    {name : String} {items : List Tree} {u : Tree}
    (h : expandLeafBelow resolve stop limit levels path name items = .ok u) :
    u.literal? = none := by
  induction levels using Nat.strong_induction_on generalizing path name items u with
  | _ levels ih =>
    rcases expandLeafBelow_ok h with - | - | ⟨-, rfl, ht, hbody⟩
    · rfl
    · rfl
    · unfold withCarried
      split
      · rw [expandBelow_eq_mapLeaves] at hbody
        exact isList_mapLeaves (fun _ _ _ hv => ih _ (Nat.lt_succ_self _) hv) (hlists _ _ ht) hbody
      · rfl

/-- A formula that is expanded stays a list. -/
theorem isList_expandBelow {stop : List String} {levels : Nat} {path : List String} {t u : Tree}
    (ht : t.literal? = none) (h : expandBelow resolve stop limit levels path t = .ok u) :
    u.literal? = none := by
  rw [expandBelow_eq_mapLeaves] at h
  exact isList_mapLeaves (fun _ _ _ hv => isList_expandLeafBelow hlists hv) ht h

end

section

variable (hresolve : ∀ name t, resolve name = .ok (some t) → t.IsFormula)

include hresolve

/-- **A formula that is expanded up to some names has the shape of one**, none of its other leaves
names a formula, and its constant calls are those of formulas. -/
theorem everywhere_expandBelow_upTo (hformulas : ∀ name t, resolve name = .ok (some t) → t.Constants K)
    {stop : List String} {levels : Nat} {path : List String} {t u : Tree}
    (ht : t.Everywhere IsFormulaNode) (hK : t.Constants K)
    (h : expandBelow resolve stop limit levels path t = .ok u) :
    u.Everywhere (IsExpandedNode (upTo stop resolve) K) := by
  induction levels using Nat.strong_induction_on generalizing path t u with
  | _ levels ih =>
    rw [expandBelow_eq_mapLeaves] at h
    refine everywhere_mapLeaves ht hK h fun name items v hitems hnamed hv => ?_
    rcases expandLeafBelow_ok hv with hstop | ⟨hstop, hnone⟩ | ⟨-, rfl, ht, hbody⟩
    · exact everywhere_leaf hitems hnamed (if_pos hstop)
    · exact everywhere_leaf hitems hnamed ((if_neg hstop).trans hnone)
    · exact everywhere_withCarried hitems hnamed
        (ih _ (Nat.lt_succ_self _) (hresolve _ _ ht).nodes (hformulas _ _ ht) hbody)

/-- **An expanded formula has the shape of one**, none of its leaves names a formula, and its
constant calls are those of formulas. -/
theorem everywhere_expandBelow (hformulas : ∀ name t, resolve name = .ok (some t) → t.Constants K)
    {levels : Nat} {path : List String} {t u : Tree} (ht : t.Everywhere IsFormulaNode)
    (hK : t.Constants K) (h : expandBelow resolve [] limit levels path t = .ok u) :
    u.Everywhere (IsExpandedNode resolve K) := by
  have hresolve' : upTo [] resolve = resolve := funext fun _ => if_neg List.not_mem_nil
  exact hresolve' ▸ everywhere_expandBelow_upTo hresolve hformulas ht hK h

end

end Tree

end SeriesAlgebra
