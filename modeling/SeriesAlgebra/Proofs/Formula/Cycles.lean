import SeriesAlgebra.Proofs.Formula.StopNames

/-!
# Cycles of references

Formulas may refer to each other in cycles. Expansion nevertheless always ends: its rules say
what becomes of a formula below the names that are being inlined, in terms of smaller formulas
below the same names and of whole formulas below one name more (`Tree.Expands`), and there may
be only so many names. So every formula has one outcome by these rules, and it is the one that
expansion gives (`Tree.expands_expandBelow`, `Tree.expandBelow_of_expands`).

A cycle that is reported is one: its names lead from one to the next, beginning at a leaf of the
formula, and the last has occurred before (`Tree.ClosesCycle`). And if a cycle can be reached
from a formula, expansion does not succeed (`Tree.expand_reports_cycles`).
-/

namespace SeriesAlgebra

namespace Tree

variable {resolve : String → Except TreeError (Option Tree)} {stop : List String}
  {limit levels : Nat} {path : List String} {t : Tree} {items : List Tree} {name : String}

/-! ### The rules of expansion -/

mutual

/-- **The rules of expansion** of a formula below the names that are being inlined. -/
inductive Expands (resolve : String → Except TreeError (Option Tree)) (stop : List String)
    (limit : Nat) : List String → Tree → Except TreeError Tree → Prop
  /-- A literal stays. -/
  | literal {path : List String} (l : Literal) :
      Expands resolve stop limit path (atom l) (.ok (atom l))
  /-- A list that is no leaf is expanded item by item. -/
  | items {path : List String} {items : List Tree} {r : Except TreeError (List Tree)}
      (hname : leafName? items = none) (h : ExpandsAll resolve stop limit path items r) :
      Expands resolve stop limit path (list items) (list <$> r)
  /-- A leaf of a name to stop at stays. -/
  | stops {path : List String} {items : List Tree} {name : String}
      (hname : leafName? items = some name) (hstop : name ∈ stop) :
      Expands resolve stop limit path (list items) (.ok (list items))
  /-- A leaf of a name that is being inlined closes a cycle. -/
  | cycle {path : List String} {items : List Tree} {name : String}
      (hname : leafName? items = some name) (hstop : name ∉ stop) (hpath : name ∈ path) :
      Expands resolve stop limit path (list items) (.error (.cycle (path ++ [name])))
  /-- There may be only so many names. -/
  | tooDeep {path : List String} {items : List Tree} {name : String}
      (hname : leafName? items = some name) (hstop : name ∉ stop) (hpath : name ∉ path)
      (hlimit : limit ≤ path.length) :
      Expands resolve stop limit path (list items) (.error (.tooDeep limit))
  /-- What a name stands for may not be found. -/
  | fails {path : List String} {items : List Tree} {name : String} {cause : TreeError}
      (hname : leafName? items = some name) (hstop : name ∉ stop) (hpath : name ∉ path)
      (hlimit : path.length < limit) (hcause : resolve name = .error cause) :
      Expands resolve stop limit path (list items) (.error cause)
  /-- A leaf of a name that is no formula stays. -/
  | primary {path : List String} {items : List Tree} {name : String}
      (hname : leafName? items = some name) (hstop : name ∉ stop) (hpath : name ∉ path)
      (hlimit : path.length < limit) (hnone : resolve name = .ok none) :
      Expands resolve stop limit path (list items) (.ok (list items))
  /-- A formula is inlined below its name, and carries what the leaf does. -/
  | inlines {path : List String} {items : List Tree} {name : String} {t : Tree}
      {r : Except TreeError Tree} (hname : leafName? items = some name) (hstop : name ∉ stop)
      (hpath : name ∉ path) (hlimit : path.length < limit) (ht : resolve name = .ok (some t))
      (h : Expands resolve stop limit (path ++ [name]) t r) :
      Expands resolve stop limit path (list items) (withCarried items <$> r)

/-- The rules for several formulas: the first that fails counts. -/
inductive ExpandsAll (resolve : String → Except TreeError (Option Tree)) (stop : List String)
    (limit : Nat) : List String → List Tree → Except TreeError (List Tree) → Prop
  | nil {path : List String} : ExpandsAll resolve stop limit path [] (.ok [])
  | fails {path : List String} {t : Tree} {rest : List Tree} {cause : TreeError}
      (h : Expands resolve stop limit path t (.error cause)) :
      ExpandsAll resolve stop limit path (t :: rest) (.error cause)
  | cons {path : List String} {t u : Tree} {rest : List Tree} {r : Except TreeError (List Tree)}
      (h : Expands resolve stop limit path t (.ok u))
      (hrest : ExpandsAll resolve stop limit path rest r) :
      ExpandsAll resolve stop limit path (t :: rest) ((u :: ·) <$> r)

end

theorem expandsAll_mapLeavesOfAll {f : String → List Tree → Except TreeError Tree}
    (h : ∀ t ∈ items, Expands resolve stop limit path t (t.mapLeaves f)) :
    ExpandsAll resolve stop limit path items (mapLeavesOfAll f items) := by
  induction items with
  | nil =>
    rw [mapLeavesOfAll]
    exact .nil
  | cons t rest ih =>
    have ht := h t List.mem_cons_self
    have hrest := ih fun u hu => h u (List.mem_cons_of_mem _ hu)
    rw [mapLeavesOfAll]
    cases hu : t.mapLeaves f with
    | error cause => exact .fails (hu ▸ ht)
    | ok u =>
      have hcons := ExpandsAll.cons (hu ▸ ht) hrest
      cases hus : mapLeavesOfAll f rest with
      | error cause => exact hus ▸ hcons
      | ok us => exact hus ▸ hcons

/-- Where leaves follow the rules, formulas do. -/
theorem expands_mapLeaves {f : String → List Tree → Except TreeError Tree}
    (hf : ∀ name items, leafName? items = some name →
      Expands resolve stop limit path (list items) (f name items)) (t : Tree) :
    Expands resolve stop limit path t (t.mapLeaves f) := by
  induction t using inductionOn with
  | atom l =>
    rw [mapLeaves]
    exact .literal l
  | list items ih =>
    cases hname : leafName? items with
    | some name =>
      rw [mapLeaves_leaf hname]
      exact hf name items hname
    | none =>
      rw [mapLeaves, hname]
      exact .items hname (expandsAll_mapLeavesOfAll ih)

/-- Where one name more may be inlined, there is a level below for its formula. -/
theorem exists_below (hlevels : path.length + levels = limit) (hlimit : path.length < limit)
    (name : String) : ∃ below, levels = below + 1 ∧ (path ++ [name]).length + below = limit := by
  refine ⟨levels - 1, by omega, ?_⟩
  rw [List.length_append, List.length_singleton]
  omega

/-- **Expansion ends with what its rules give**, whatever the formulas refer to. -/
theorem expands_expandBelow (h : path.length + levels = limit) (t : Tree) :
    Expands resolve stop limit path t (expandBelow resolve stop limit levels path t) := by
  -- The levels go down with what is inlined, and within one level the formula is gone through.
  induction levels using Nat.strong_induction_on generalizing path t with
  | _ levels ih =>
    rw [expandBelow_eq_mapLeaves]
    refine expands_mapLeaves (fun name items hname => ?_) t
    rw [expandLeafBelow_eq]
    by_cases hstop : name ∈ stop
    · rw [if_pos hstop]
      exact .stops hname hstop
    rw [if_neg hstop]
    by_cases hpath : name ∈ path
    · rw [if_pos hpath]
      exact .cycle hname hstop hpath
    rw [if_neg hpath]
    by_cases hlimit : path.length < limit
    · obtain ⟨below, rfl, hlength⟩ := exists_below h hlimit name
      dsimp only
      cases hformula : resolve name with
      | error cause => exact .fails hname hstop hpath hlimit hformula
      | ok formula =>
        cases formula with
        | none => exact .primary hname hstop hpath hlimit hformula
        | some t =>
          exact .inlines hname hstop hpath hlimit hformula
            (ih below (Nat.lt_succ_self _) hlength t)
    · obtain rfl : levels = 0 := by omega
      exact .tooDeep hname hstop hpath (Nat.not_lt.1 hlimit)

/-- The rules give one outcome for several formulas if they do for each. -/
theorem mapLeavesOfAll_of_expandsAll {f : String → List Tree → Except TreeError Tree}
    (hitems : ∀ t ∈ items, ∀ r, Expands resolve stop limit path t r → t.mapLeaves f = r)
    {r : Except TreeError (List Tree)} (h : ExpandsAll resolve stop limit path items r) :
    mapLeavesOfAll f items = r := by
  induction items generalizing r with
  | nil =>
    cases h
    rw [mapLeavesOfAll]
    rfl
  | cons t rest ih =>
    rw [mapLeavesOfAll]
    cases h with
    | fails h =>
      rw [hitems t List.mem_cons_self _ h]
      rfl
    | @cons _ _ _ _ r h hrest =>
      rw [hitems t List.mem_cons_self _ h,
        ih (fun u hu => hitems u (List.mem_cons_of_mem _ hu)) hrest]
      cases r <;> rfl

/-- The rules give one outcome. -/
theorem expandBelow_of_expands (hlevels : path.length + levels = limit) {r : Except TreeError Tree}
    (h : Expands resolve stop limit path t r) :
    expandBelow resolve stop limit levels path t = r := by
  induction levels using Nat.strong_induction_on generalizing path t r with
  | _ levels ih =>
    induction t using inductionOn generalizing r with
    | atom l =>
      cases h
      exact expandBelow_literal rfl
    | list items ihitems =>
      -- Each rule for a leaf tells how the checks turn out, in their order.
      cases h with
      | items hname h =>
        simp only [expandBelow_eq_mapLeaves] at ihitems
        rw [expandBelow_eq_mapLeaves, mapLeaves, hname]
        exact congrArg (list <$> ·) (mapLeavesOfAll_of_expandsAll ihitems h)
      | stops hname hstop =>
        rw [expandBelow_leaf hname, expandLeafBelow_eq]
        exact if_pos hstop
      | cycle hname hstop hpath =>
        rw [expandBelow_leaf hname, expandLeafBelow_eq, if_neg hstop, if_pos hpath]
      | tooDeep hname hstop hpath hlimit =>
        obtain rfl : levels = 0 := by omega
        rw [expandBelow_leaf hname, expandLeafBelow_eq, if_neg hstop, if_neg hpath]
      | @fails _ _ name _ hname hstop hpath hlimit hcause =>
        obtain ⟨below, rfl, -⟩ := exists_below hlevels hlimit name
        rw [expandBelow_leaf hname, expandLeafBelow_eq, if_neg hstop, if_neg hpath, hcause]
        rfl
      | @primary _ _ name hname hstop hpath hlimit hnone =>
        obtain ⟨below, rfl, -⟩ := exists_below hlevels hlimit name
        rw [expandBelow_leaf hname, expandLeafBelow_eq, if_neg hstop, if_neg hpath, hnone]
        rfl
      | @inlines _ _ name _ _ hname hstop hpath hlimit ht h =>
        obtain ⟨below, rfl, hlength⟩ := exists_below hlevels hlimit name
        rw [expandBelow_leaf hname, expandLeafBelow_eq, if_neg hstop, if_neg hpath, ht]
        exact congrArg (withCarried items <$> ·) (ih below (Nat.lt_succ_self _) hlength h)

/-! ### Cycles that are reported -/

/-- **Whether a name is reached from a formula**: a leaf of the formula leads on to it. -/
def IsReached (resolve : String → Except TreeError (Option Tree)) (stop : List String) (t : Tree)
    (name : String) : Prop :=
  ∃ first, t.HasLeaf first ∧ first ∉ stop ∧ Relation.ReflTransGen (LeadsOn resolve stop) first name

/-- What is reached from a formula is reached from one that leads to it. -/
theorem IsReached.of_formula {u : Tree} {n : String} (h : IsReached resolve stop u n)
    (hname : t.HasLeaf name) (hstop : name ∉ stop) (hu : resolve name = .ok (some u)) :
    IsReached resolve stop t n := by
  obtain ⟨first, hfirst, hfirst', hreached⟩ := h
  exact ⟨name, hname, hstop, .head ⟨⟨u, hu, hfirst⟩, hfirst'⟩ hreached⟩

/-- **Whether names close a cycle in what a formula leads to**: the first is that of a leaf, each
leads on to the next, and the last has occurred before. -/
structure ClosesCycle (resolve : String → Except TreeError (Option Tree)) (stop : List String)
    (t : Tree) (names : List String) : Prop where
  first : ∃ name, names.head? = some name ∧ t.HasLeaf name ∧ name ∉ stop
  next : names.IsChain (LeadsOn resolve stop)
  last : ∃ before name, names = before ++ [name] ∧ name ∈ before

/-- A cycle that is reported below a path goes on from the path, unless what a name stands for is
not found for this reason. -/
theorem cycle_of_expandBelow {closed : List String}
    (h : expandBelow resolve stop limit levels path t = .error (.cycle closed)) :
    (∃ name, IsReached resolve stop t name ∧ resolve name = .error (.cycle closed)) ∨
      ∃ name rest, closed = path ++ name :: rest ∧ t.HasLeaf name ∧ name ∉ stop ∧
        (name :: rest).IsChain (LeadsOn resolve stop) ∧
        ∃ before last, closed = before ++ [last] ∧ last ∈ before := by
  induction levels using Nat.strong_induction_on generalizing path t with
  | _ levels ih =>
    rw [expandBelow_eq_mapLeaves] at h
    obtain ⟨name, items, hleaf, h⟩ := exists_hasLeaf_of_error h
    obtain ⟨hstop, ⟨hpath, heq⟩ | ⟨-, ⟨-, hdeep⟩ | ⟨below, rfl, hcause | ⟨u, hu, hbody⟩⟩⟩⟩ :=
      expandLeafBelow_error h
    · obtain rfl := TreeError.cycle.inj heq
      exact Or.inr ⟨name, [], rfl, hleaf, hstop, .singleton name, path, name, rfl, hpath⟩
    · cases hdeep
    · exact Or.inl ⟨name, ⟨name, hleaf, hstop, .refl⟩, hcause⟩
    · rcases ih below (Nat.lt_succ_self _) hbody with
        ⟨n, hn, hcause⟩ | ⟨next, rest, rfl, hnext, hstop', hchain, hlast⟩
      · exact Or.inl ⟨n, hn.of_formula hleaf hstop hu, hcause⟩
      · refine Or.inr ⟨name, next :: rest, List.append_assoc _ _ _, hleaf, hstop, ?_, hlast⟩
        exact hchain.cons_cons ⟨⟨u, hu, hnext⟩, hstop'⟩

/-- What is reached from an expanded formula comes to an end. -/
theorem acc_of_isReached {u : Tree} (h : t.expand resolve stop limit = .ok u)
    (hname : IsReached resolve stop t name) : Acc (flip (LeadsOn resolve stop)) name := by
  obtain ⟨first, hfirst, hstop, hreached⟩ := hname
  induction hreached with
  -- The leaves of the formula itself come to an end, or they would not have been expanded.
  | refl => exact acc_of_expandBelow_upTo h hfirst hstop
  | tail _ hlast ih => exact ih.inv hlast

/-- **Expansion reports cycles.** It ends with the one outcome that its rules give. If it reports a
cycle, the names that it gives close one in what the formula leads to, unless it is passing on what
it was told instead of a formula for a name that is reached. And if a name that is reached can be
reached from itself, expansion does not succeed. -/
theorem expand_reports_cycles (resolve : String → Except TreeError (Option Tree))
    (stop : List String) (limit : Nat) (t : Tree) :
    (∀ r, Expands resolve stop limit [] t r ↔ t.expand resolve stop limit = r) ∧
    (∀ closed, t.expand resolve stop limit = .error (.cycle closed) →
      (∃ name, IsReached resolve stop t name ∧ resolve name = .error (.cycle closed)) ∨
        ClosesCycle resolve stop t closed) ∧
    ∀ name, IsReached resolve stop t name → Relation.TransGen (LeadsOn resolve stop) name name →
      ∀ u, t.expand resolve stop limit ≠ .ok u := by
  refine ⟨fun r => ⟨expandBelow_of_expands (Nat.zero_add limit), ?_⟩, fun closed h => ?_, ?_⟩
  · rintro rfl
    exact expands_expandBelow (Nat.zero_add limit) t
  · rcases cycle_of_expandBelow h with hcause | ⟨name, rest, rfl, hleaf, hstop, hchain, hlast⟩
    · exact Or.inl hcause
    · exact Or.inr ⟨⟨name, rfl, hleaf, hstop⟩, hchain, hlast⟩
  · intro name hname hcycle u hu
    have hends := (acc_of_isReached hu hname).transGen
    -- What a name on a cycle leads to never comes to an end.
    exact (acc_iff_isEmpty_descending_chain.1 hends).false
      ⟨fun _ => name, rfl, fun _ => Relation.transGen_swap.2 hcycle⟩

/-- Formulas of which two refer to each other, and a third that refers to them. -/
def cyclicFormulas : List (String × Tree) :=
  [("f", list [symbol "*", atom (.int 2), bareLeaf "g"]),
    ("g", list [symbol "add", bareLeaf "x", bareLeaf "h"]), ("h", bareLeaf "g")]

theorem expand_cyclicFormulas :
    (bareLeaf "f").expand (namedIn cyclicFormulas) [] 16 = .error (.cycle ["f", "g", "h", "g"]) ∧
      ClosesCycle (namedIn cyclicFormulas) [] (bareLeaf "f") ["f", "g", "h", "g"] ∧
      ∀ u, (bareLeaf "f").expand (namedIn cyclicFormulas) [] 2 ≠ .ok u := by
  have hcycle : (bareLeaf "f").expand (namedIn cyclicFormulas) [] 16 =
      .error (.cycle ["f", "g", "h", "g"]) := rfl
  have hfg : LeadsOn (namedIn cyclicFormulas) [] "f" "g" :=
    ⟨⟨_, rfl, .item rfl (List.mem_of_getElem? (i := 2) rfl) (.leaf rfl)⟩, List.not_mem_nil⟩
  have hgh : LeadsOn (namedIn cyclicFormulas) [] "g" "h" :=
    ⟨⟨_, rfl, .item rfl (List.mem_of_getElem? (i := 2) rfl) (.leaf rfl)⟩, List.not_mem_nil⟩
  have hhg : LeadsOn (namedIn cyclicFormulas) [] "h" "g" :=
    ⟨⟨_, rfl, .leaf rfl⟩, List.not_mem_nil⟩
  obtain ⟨-, hreports, -⟩ := expand_reports_cycles (namedIn cyclicFormulas) [] 16 (bareLeaf "f")
  obtain ⟨-, -, hfails⟩ := expand_reports_cycles (namedIn cyclicFormulas) [] 2 (bareLeaf "f")
  refine ⟨hcycle, (hreports _ hcycle).resolve_left nofun, hfails "g" ?_ (.tail (.single hgh) hhg)⟩
  exact ⟨"f", .leaf rfl, List.not_mem_nil, .single hfg⟩

end Tree

end SeriesAlgebra
