import SeriesAlgebra.Formula.Tree
import SeriesAlgebra.Proofs.Double

/-!
# Induction on formulas

A property of formulas holds if it holds of leaves and of every list whose items have it
(`Tree.inductionOn`). A property of all nodes of a formula (`Tree.Everywhere`) is a property
of the formula itself and of all nodes of its items.
-/

namespace SeriesAlgebra

namespace Tree

/-- **Induction on formulas.** -/
theorem inductionOn {P : Tree → Prop} (atom : ∀ l, P (atom l))
    (list : ∀ items, (∀ t ∈ items, P t) → P (list items)) : ∀ t, P t
  | .atom l => atom l
  | .list items => list items fun t ht =>
    have : sizeOf t < sizeOf (Tree.list items) := by
      have := List.sizeOf_lt_of_mem ht
      simp only [Tree.list.sizeOf_spec]
      omega
    inductionOn atom list t
termination_by t => sizeOf t

/-! ### Equality -/

deriving instance DecidableEq for Literal

mutual

/-- Whether two formulas are equal. -/
def decideEq : (t u : Tree) → Decidable (t = u)
  | atom l, atom m => decidable_of_iff (l = m) ⟨congrArg atom, atom.inj⟩
  | atom _, list _ => isFalse nofun
  | list _, atom _ => isFalse nofun
  | list items, list others =>
    match decideAllEq items others with
    | isTrue h => isTrue (congrArg list h)
    | isFalse h => isFalse fun heq => h (list.inj heq)

/-- Whether two lists of formulas are equal. -/
def decideAllEq : (items others : List Tree) → Decidable (items = others)
  | [], [] => isTrue rfl
  | [], _ :: _ => isFalse nofun
  | _ :: _, [] => isFalse nofun
  | t :: rest, u :: others =>
    match decideEq t u, decideAllEq rest others with
    | isTrue h, isTrue h' => isTrue (h ▸ h' ▸ rfl)
    | isFalse h, _ => isFalse fun heq => h (List.cons.inj heq).1
    | _, isFalse h => isFalse fun heq => h (List.cons.inj heq).2

end

instance : DecidableEq Tree := decideEq

/-! ### Nodes -/

theorem mem_nodesOfAll {u : Tree} {items : List Tree} :
    u ∈ nodesOfAll items ↔ ∃ t ∈ items, u ∈ t.nodes := by
  induction items with
  | nil => simp [nodesOfAll]
  | cons t rest ih => simp [nodesOfAll, ih]

theorem self_mem_nodes (t : Tree) : t ∈ t.nodes := by
  cases t with
  | atom l => simp [nodes]
  | list items => simp [nodes]

theorem mem_nodes_list {u : Tree} {items : List Tree} :
    u ∈ (list items).nodes ↔ u = list items ∨ ∃ t ∈ items, u ∈ t.nodes := by
  rw [nodes, List.mem_cons, mem_nodesOfAll]

/-- The nodes of a node are nodes of the whole. -/
theorem nodes_trans {s t u : Tree} (hst : s ∈ t.nodes) (htu : t ∈ u.nodes) : s ∈ u.nodes := by
  induction u using inductionOn with
  | atom l =>
    simp only [nodes, List.mem_singleton] at htu
    exact htu ▸ hst
  | list items ih =>
    rcases mem_nodes_list.1 htu with rfl | ⟨v, hv, htv⟩
    · exact hst
    · exact mem_nodes_list.2 (Or.inr ⟨v, hv, ih v hv htv⟩)

theorem mem_nodes_of_mem_args {t call : Tree} (h : t ∈ call.args) : t ∈ call.nodes := by
  cases call with
  | atom l => cases h
  | list items => exact mem_nodes_list.2 (Or.inr ⟨t, List.mem_of_mem_tail h, t.self_mem_nodes⟩)

/-- Whether all nodes of a formula have a property. -/
def Everywhere (P : Tree → Prop) (t : Tree) : Prop := ∀ u ∈ t.nodes, P u

section

variable {P Q : Tree → Prop}

@[simp] theorem everywhere_atom {l : Literal} : Everywhere P (atom l) ↔ P (atom l) := by
  simp [Everywhere, nodes]

theorem everywhere_list {items : List Tree} :
    Everywhere P (list items) ↔ P (list items) ∧ ∀ t ∈ items, Everywhere P t := by
  simp only [Everywhere, mem_nodes_list]
  constructor
  · intro h
    exact ⟨h _ (Or.inl rfl), fun t ht u hu => h u (Or.inr ⟨t, ht, hu⟩)⟩
  · rintro ⟨hself, hitems⟩ u (rfl | ⟨t, ht, hu⟩)
    · exact hself
    · exact hitems t ht u hu

theorem Everywhere.self {t : Tree} (h : Everywhere P t) : P t := h t t.self_mem_nodes

theorem Everywhere.item {items : List Tree} (h : Everywhere P (list items)) {t : Tree}
    (ht : t ∈ items) : Everywhere P t := (everywhere_list.1 h).2 t ht

theorem Everywhere.node {t u : Tree} (h : Everywhere P t) (hu : u ∈ t.nodes) : Everywhere P u :=
  fun _ hs => h _ (nodes_trans hs hu)

theorem Everywhere.mono {t : Tree} (h : Everywhere P t) (himp : ∀ u, P u → Q u) :
    Everywhere Q t := fun u hu => himp u (h u hu)

end

/-! ### Depth -/

theorem depth_le_depthOfAll {t : Tree} {items : List Tree} (h : t ∈ items) :
    t.depth ≤ depthOfAll items := by
  induction items with
  | nil => cases h
  | cons u rest ih =>
    simp only [depthOfAll]
    rcases List.mem_cons.1 h with rfl | h
    · exact Nat.le_max_left _ _
    · exact Nat.le_trans (ih h) (Nat.le_max_right _ _)

/-- A node is no deeper than the whole. -/
theorem depth_le_of_mem_nodes {t u : Tree} (h : t ∈ u.nodes) : t.depth ≤ u.depth := by
  induction u using inductionOn with
  | atom l => exact List.mem_singleton.1 h ▸ Nat.le_refl _
  | list items ih =>
    rcases mem_nodes_list.1 h with rfl | ⟨v, hv, htv⟩
    · exact Nat.le_refl _
    · have hle := Nat.le_trans (ih v hv htv) (depth_le_depthOfAll hv)
      rw [depth]
      omega

end Tree

end SeriesAlgebra
