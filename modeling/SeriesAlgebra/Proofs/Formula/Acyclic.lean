import SeriesAlgebra.Proofs.Formula.Alike
import SeriesAlgebra.Proofs.Formula.Expansion

/-!
# Formulas that lead to formulas

Expansion looks at the outermost series leaves of a formula (`Tree.HasLeaf`), and goes on
in the formulas that they name (`Tree.LeadsTo`). Where it succeeds, all that is led to
comes to an end (`Tree.acc_of_expandBelow`), and where everything comes to an end, it
never closes a cycle (`Tree.expand_ne_cycle`).
-/

namespace SeriesAlgebra

namespace Tree

/-- Whether a formula has a series leaf of a name that is not inside another leaf. -/
inductive HasLeaf : Tree → String → Prop
  | leaf {items : List Tree} {name : String} (h : leafName? items = some name) :
      HasLeaf (list items) name
  | item {items : List Tree} {name : String} {t : Tree} (h : leafName? items = none)
      (ht : t ∈ items) (hleaf : HasLeaf t name) : HasLeaf (list items) name

/-- Whether the formula of a name has a leaf of another. -/
def LeadsTo (resolve : String → Except TreeError (Option Tree)) (name other : String) : Prop :=
  ∃ t, resolve name = .ok (some t) ∧ t.HasLeaf other

/-- Whether the formula of a name has a leaf of another, at which expansion does not stop. -/
def LeadsOn (resolve : String → Except TreeError (Option Tree)) (stop : List String)
    (name other : String) : Prop :=
  LeadsTo resolve name other ∧ other ∉ stop

/-! ### Leaves -/

theorem not_hasLeaf_atom {l : Literal} {name : String} : ¬ (atom l).HasLeaf name := nofun

theorem hasLeaf_leaf {items : List Tree} {name other : String} (h : leafName? items = some name) :
    (list items).HasLeaf other ↔ other = name := by
  constructor
  · intro hleaf
    cases hleaf with
    | leaf h' => exact Option.some.inj (h'.symm.trans h)
    | item h' => exact absurd (h'.symm.trans h) nofun
  · rintro rfl
    exact .leaf h

theorem hasLeaf_list {items : List Tree} {name : String} (h : leafName? items = none) :
    (list items).HasLeaf name ↔ ∃ t ∈ items, t.HasLeaf name := by
  constructor
  · intro hleaf
    cases hleaf with
    | leaf h' => exact absurd (h'.symm.trans h) nofun
    | item _ ht hleaf => exact ⟨_, ht, hleaf⟩
  · rintro ⟨t, ht, hleaf⟩
    exact .item h ht hleaf

theorem HasLeaf.exists_node {t : Tree} {name : String} (h : t.HasLeaf name) :
    ∃ items, list items ∈ t.nodes ∧ leafName? items = some name := by
  induction h with
  | leaf h => exact ⟨_, self_mem_nodes _, h⟩
  | item _ ht _ ih =>
    obtain ⟨items, hmem, hname⟩ := ih
    exact ⟨items, mem_nodes_list.2 (Or.inr ⟨_, ht, hmem⟩), hname⟩

/-- A formula refers to its leaves. -/
theorem HasLeaf.mem_references {t : Tree} {name : String} (h : t.HasLeaf name)
    (ht : t.Everywhere IsFormulaNode) : name ∈ t.references .builtin := by
  obtain ⟨items, hmem, hname⟩ := h.exists_node
  exact Tree.mem_references ht hmem hname

theorem str?_canonical (t : Tree) : t.canonical.str? = t.str? := by
  cases t with
  | list items => rw [canonical_list]; rfl
  | atom l =>
    cases l with
    | float x =>
      rw [canonical_atom, Literal.canonical]
      split <;> rfl
    | _ => rfl

/-- What is written in another way has the same operator. -/
theorem headSymbol?_map_canonical {items : List Tree} (h : isHeaded items = true) :
    headSymbol? (items.map canonical) = headSymbol? items := by
  cases items with
  | nil => cases h
  | cons head args =>
    cases head with
    | list items => cases h
    | atom l => cases l <;> first | rfl | cases h

/-- What is written in another way has the same name after its operator. -/
theorem firstName?_map_canonical {items : List Tree} (h : isHeaded items = true)
    (operator : String) :
    (list (items.map canonical)).firstName? operator = (list items).firstName? operator := by
  unfold firstName?
  rw [operator?, operator?, headSymbol?_map_canonical h, args, args, ← List.map_tail]
  cases items.tail with
  | nil => rfl
  | cons a rest =>
    change (if _ then a.canonical.str? else none) = if _ then a.str? else none
    rw [str?_canonical]

theorem leafName?_map_canonical {items : List Tree} (h : isHeaded items = true) :
    leafName? (items.map canonical) = leafName? items := firstName?_map_canonical h seriesOperator

/-- What is written in another way has the same leaves. -/
theorem hasLeaf_canonical {t : Tree} (ht : t.Everywhere IsReadableNode) {name : String} :
    t.canonical.HasLeaf name ↔ t.HasLeaf name := by
  induction t using inductionOn with
  | atom l => exact ⟨fun h => absurd h not_hasLeaf_atom, fun h => absurd h not_hasLeaf_atom⟩
  | list items ih =>
    obtain ⟨hheaded, hitems⟩ := everywhere_list.1 ht
    rw [canonical_list]
    have hname := leafName?_map_canonical hheaded
    cases h : leafName? items with
    | some n => rw [hasLeaf_leaf (hname.trans h), hasLeaf_leaf h]
    | none =>
      rw [hasLeaf_list (hname.trans h), hasLeaf_list h]
      constructor
      · rintro ⟨u, hu, hleaf⟩
        obtain ⟨t, ht, rfl⟩ := List.mem_map.1 hu
        exact ⟨t, ht, (ih t ht (hitems t ht)).1 hleaf⟩
      · rintro ⟨t, ht, hleaf⟩
        exact ⟨_, List.mem_map_of_mem ht, (ih t ht (hitems t ht)).2 hleaf⟩

/-! ### Renamed leaves -/

/-- The name of a leaf after renaming. -/
def renamed (old new name : String) : String := if name = old then new else name

section

variable {old new name : String}

theorem renamed_old (old new : String) : renamed old new old = new := if_pos rfl

theorem renamed_of_ne (h : name ≠ old) (new : String) : renamed old new name = name := if_neg h

/-- No name is the old one after renaming. -/
theorem renamed_ne (h : old ≠ new) (name : String) : renamed old new name ≠ old := by
  unfold renamed
  split
  · exact h.symm
  · assumption

/-- Renaming back gives the names that there were, if the new one was not among them. -/
theorem renamed_renamed (h : name ≠ new) : renamed new old (renamed old new name) = name := by
  by_cases hold : name = old
  · rw [hold, renamed_old, renamed_old]
  · rw [renamed_of_ne hold, renamed_of_ne h]

theorem renamed_inj {other : String} (h : name ≠ new) (hother : other ≠ new)
    (heq : renamed old new name = renamed old new other) : name = other := by
  rw [← renamed_renamed h, heq, renamed_renamed hother]

theorem renamed_self (old name : String) : renamed old old name = name := by
  by_cases h : name = old
  · rw [h, renamed_old]
  · exact renamed_of_ne h old

end

/-- The operator of a call stays. -/
theorem headSymbol?_renameItems (old new : String) (items : List Tree) :
    headSymbol? (renameItems old new false items) = headSymbol? items := by
  cases items with
  | nil => rfl
  | cons head args =>
    rw [renameItems]
    cases head with
    | atom l => cases l <;> rfl
    | list items =>
      rw [renameItem_list, renameSeries]
      rfl

theorem leafName?_renameItems (old new : String) (items : List Tree) :
    leafName? (renameItems old new false items) = (leafName? items).map (renamed old new) := by
  cases items with
  | nil => rfl
  | cons head args =>
    unfold leafName? seriesName? firstName?
    rw [operator?, operator?, headSymbol?_renameItems]
    split
    · rename_i hoperator
      rw [head_of_headSymbol? hoperator]
      cases args with
      | nil => rfl
      | cons a rest =>
        cases a with
        | list items =>
          simp only [renameItems, renameItem_list, renameSeries]
          rfl
        | atom l =>
          cases l with
          | str name =>
            simp only [renameItems, renameItem]
            unfold renamed
            by_cases hname : name = old
            · subst hname
              rw [if_pos (by simp [symbol, isSeriesSymbol])]
              exact (congrArg some (if_pos rfl)).symm
            · rw [if_neg (by simp [hname])]
              exact (congrArg some (if_neg hname)).symm
          | _ => rfl
    · rfl

/-- Only literals are alike to literals. -/
theorem alike_atom {l : Literal} {t : Tree} (h : Alike (atom l) t) : ∃ m, t = atom m := by
  cases h
  exact ⟨_, rfl⟩

/-- **The leaves of a formula after renaming** are its leaves, renamed. -/
theorem exists_of_hasLeaf_renameSeries {old new : String} {t : Tree} {name : String}
    (h : (t.renameSeries old new).HasLeaf name) : ∃ n, t.HasLeaf n ∧ name = renamed old new n := by
  have hitems : ∀ (items : List Tree) (named : Bool),
      (∀ t ∈ items, (t.renameSeries old new).HasLeaf name →
        ∃ n, t.HasLeaf n ∧ name = renamed old new n) →
      ∀ u ∈ renameItems old new named items, u.HasLeaf name →
        ∃ t ∈ items, ∃ n, t.HasLeaf n ∧ name = renamed old new n := by
    intro items
    induction items with
    | nil => exact fun _ _ u hu => by cases hu
    | cons t rest ih =>
      intro named hall u hu hleaf
      rw [renameItems] at hu
      rcases List.mem_cons.1 hu with rfl | hu
      · cases t with
        | atom l =>
          obtain ⟨m, hm⟩ := alike_atom (alike_renameItem_atom old new named l)
          rw [hm] at hleaf
          exact absurd hleaf not_hasLeaf_atom
        | list items =>
          rw [renameItem_list] at hleaf
          exact ⟨_, List.mem_cons_self, hall _ List.mem_cons_self hleaf⟩
      · obtain ⟨s, hs, hn⟩ := ih _ (fun s hs => hall s (List.mem_cons_of_mem _ hs)) u hu hleaf
        exact ⟨s, List.mem_cons_of_mem _ hs, hn⟩
  induction t using inductionOn with
  | atom l => exact absurd h not_hasLeaf_atom
  | list items ih =>
    rw [renameSeries] at h
    have hname := leafName?_renameItems old new items
    cases hn : leafName? items with
    | some n =>
      rw [hn] at hname
      exact ⟨n, .leaf hn, (hasLeaf_leaf hname).1 h⟩
    | none =>
      rw [hn] at hname
      obtain ⟨u, hu, hleaf⟩ := (hasLeaf_list hname).1 h
      obtain ⟨t, ht, n, htn, rfl⟩ := hitems items false ih u hu hleaf
      exact ⟨n, .item hn ht htn, rfl⟩

/-! ### Leaves and images -/

section

variable {f : String → List Tree → Except TreeError Tree}

theorem HasLeaf.image_ok {t u : Tree} {name : String} (hleaf : t.HasLeaf name)
    (h : t.mapLeaves f = .ok u) : ∃ items v, f name items = .ok v := by
  induction hleaf generalizing u with
  | leaf hname =>
    rw [mapLeaves_leaf hname] at h
    exact ⟨_, u, h⟩
  | item hname ht _ ih =>
    obtain ⟨others, -, hall⟩ := mapLeaves_list hname h
    obtain ⟨v, -, hv⟩ := Result.exists_of_mem_left hall ht
    exact ih hv

/-- Only a leaf can make the mapping of leaves fail. -/
theorem exists_hasLeaf_of_error {t : Tree} {cause : TreeError}
    (h : t.mapLeaves f = .error cause) : ∃ name items, t.HasLeaf name ∧ f name items = .error cause := by
  have hitems : ∀ items : List Tree,
      (∀ t ∈ items, t.mapLeaves f = .error cause →
        ∃ name others, t.HasLeaf name ∧ f name others = .error cause) →
      mapLeavesOfAll f items = .error cause →
      ∃ t ∈ items, ∃ name others, t.HasLeaf name ∧ f name others = .error cause := by
    intro items
    induction items with
    | nil =>
      intro _ h
      rw [mapLeavesOfAll] at h
      cases h
    | cons t rest ih =>
      intro hall h
      rw [mapLeavesOfAll] at h
      cases ht : t.mapLeaves f with
      | error cause' =>
        rw [ht] at h
        obtain rfl := Except.error.inj h
        exact ⟨t, List.mem_cons_self, hall t List.mem_cons_self ht⟩
      | ok u =>
        rw [ht] at h
        cases hrest : mapLeavesOfAll f rest with
        | error cause' =>
          rw [hrest] at h
          obtain rfl := Except.error.inj h
          obtain ⟨s, hs, hleaf⟩ := ih (fun s hs => hall s (List.mem_cons_of_mem _ hs)) hrest
          exact ⟨s, List.mem_cons_of_mem _ hs, hleaf⟩
        | ok us =>
          rw [hrest] at h
          cases h
  induction t using inductionOn with
  | atom l =>
    rw [mapLeaves] at h
    cases h
  | list items ih =>
    cases hname : leafName? items with
    | some name =>
      rw [mapLeaves_leaf hname] at h
      exact ⟨name, items, .leaf hname, h⟩
    | none =>
      rw [mapLeaves, hname] at h
      cases hall : mapLeavesOfAll f items with
      | ok others =>
        rw [hall] at h
        cases h
      | error cause' =>
        rw [hall] at h
        obtain rfl := Except.error.inj h
        obtain ⟨t, ht, name, others, hleaf, hcause⟩ := hitems items ih hall
        exact ⟨name, others, .item hname ht hleaf, hcause⟩

end

/-! ### Expansion -/

section

variable {resolve : String → Except TreeError (Option Tree)} {limit : Nat}

/-- **What an expanded formula leads to comes to an end**, where expansion does not stop. -/
theorem acc_of_expandBelow_upTo {stop : List String} {levels : Nat} {path : List String} {t u : Tree}
    (h : expandBelow resolve stop limit levels path t = .ok u) {name : String}
    (hname : t.HasLeaf name) (hstop : name ∉ stop) : Acc (flip (LeadsOn resolve stop)) name := by
  induction levels using Nat.strong_induction_on generalizing path t u name with
  | _ levels ih =>
    rw [expandBelow_eq_mapLeaves] at h
    obtain ⟨items, v, hv⟩ := hname.image_ok h
    refine .intro _ fun other ⟨⟨r, hr, hleaf⟩, hother⟩ => ?_
    rcases expandLeafBelow_ok hv with hmem | ⟨-, hnone⟩ | @⟨below, s, body, -, rfl, hs, hbody⟩
    · exact absurd hmem hstop
    · cases hnone.symm.trans hr
    · obtain rfl := Option.some.inj (Except.ok.inj (hs.symm.trans hr))
      exact ih below below.lt_succ_self hbody hleaf hother

/-- **What an expanded formula leads to comes to an end.** -/
theorem acc_of_expandBelow {levels : Nat} {path : List String} {t u : Tree}
    (h : expandBelow resolve [] limit levels path t = .ok u) {name : String}
    (hname : t.HasLeaf name) : Acc (flip (LeadsTo resolve)) name :=
  Subrelation.accessible (fun hleads => ⟨hleads, List.not_mem_nil⟩)
    (acc_of_expandBelow_upTo h hname List.not_mem_nil)

/-- What a leaf can fail with, if all formulas can be found. -/
theorem expandLeafBelow_cycle {stop : List String}
    (hresolve : ∀ name cause, resolve name ≠ .error cause) {levels : Nat} {path : List String}
    {name : String} {items : List Tree} {closed : List String}
    (h : expandLeafBelow resolve stop limit levels path name items = .error (.cycle closed)) :
    name ∈ path ∨ ∃ below t, levels = below + 1 ∧ resolve name = .ok (some t) ∧
      expandBelow resolve stop limit below (path ++ [name]) t = .error (.cycle closed) := by
  obtain ⟨-, ⟨hpath, -⟩ | ⟨-, ⟨-, hdeep⟩ | ⟨below, hlevels, hcause | ⟨t, ht, hbody⟩⟩⟩⟩ :=
    expandLeafBelow_error h
  · exact Or.inl hpath
  · cases hdeep
  · exact absurd hcause (hresolve name _)
  · exact Or.inr ⟨below, t, hlevels, ht, hbody⟩

/-- **Where all that is led to comes to an end, expansion closes no cycle**, whatever names it stops
at. -/
theorem expand_ne_cycle (hresolve : ∀ name cause, resolve name ≠ .error cause)
    (hends : WellFounded (flip (LeadsTo resolve))) (stop : List String) (t : Tree)
    (closed : List String) : t.expand resolve stop limit ≠ .error (.cycle closed) := by
  -- Every name on the path leads to every leaf below it.
  have hbelow : ∀ (levels : Nat) (path : List String) (t : Tree),
      (∀ name ∈ path, ∀ other, t.HasLeaf other →
        Relation.TransGen (LeadsTo resolve) name other) →
      expandBelow resolve stop limit levels path t ≠ .error (.cycle closed) := by
    intro levels
    induction levels using Nat.strong_induction_on with
    | _ levels ih =>
      intro path t hpath h
      rw [expandBelow_eq_mapLeaves] at h
      obtain ⟨name, items, hleaf, h⟩ := exists_hasLeaf_of_error h
      rcases expandLeafBelow_cycle hresolve h with hmem | ⟨below, s, rfl, hs, hbody⟩
      · exact hends.transGen.irrefl.irrefl name
          (Relation.transGen_swap.2 (hpath name hmem name hleaf))
      · refine ih below below.lt_succ_self (path ++ [name]) s (fun n hn other hother => ?_) hbody
        have hlast : LeadsTo resolve name other := ⟨s, hs, hother⟩
        rcases List.mem_append.1 hn with hn | hn
        · exact (hpath n hn name hleaf).tail hlast
        · obtain rfl := List.mem_singleton.1 hn
          exact .single hlast
  exact hbelow limit [] t fun _ h => absurd h List.not_mem_nil

end

end Tree

end SeriesAlgebra
