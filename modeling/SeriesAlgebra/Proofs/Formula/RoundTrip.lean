import SeriesAlgebra.Proofs.Formula.Codec

/-!
# Writing and reading again

Where a formula was written its canonical form is read, so what is read is the formula itself if
and only if all its doubles are finite (`Tree.canonical_eq_self_iff`); it is the same formula in no
other case either (`Tree.same_canonical_iff`). Both forms have one text (`Tree.text_canonical`).

Main statement: a well-formed formula is read back from its text as it is, unless it nests too
deep, which is what the reader then says (`Tree.parse_text_wellFormed`).
-/

namespace SeriesAlgebra

namespace Literal

/-- Whether a literal is no double, or a finite one. -/
def IsFinite : Literal → Prop
  | float x => x.isNaN = false ∧ x.isInf = false
  | _ => True

/-- What is no finite double changes its kind. -/
theorem canonical_float_of_not_finite {x : Float} (h : ¬ (float x).IsFinite) :
    (float x).canonical = symbol (Decimal.exactText x) := by
  refine if_pos ?_
  by_contra hfinite
  exact h (Bool.or_eq_false_iff.1 (Bool.eq_false_iff.2 hfinite))

theorem canonical_of_isFinite {l : Literal} (h : l.IsFinite) : l.canonical = l := by
  cases l with
  | float x =>
    obtain ⟨hnan, hinf⟩ := h
    exact if_neg (by rw [hnan, hinf]; decide)
  | _ => rfl

theorem canonical_eq_self_iff {l : Literal} : l.canonical = l ↔ l.IsFinite := by
  refine ⟨fun h => ?_, canonical_of_isFinite⟩
  by_contra hfinite
  cases l with
  | float x =>
    rw [canonical_float_of_not_finite hfinite] at h
    cases h
  | _ => exact hfinite trivial

theorem same_self {l : Literal} (h : l.IsFinite) : l.same l = true := by
  cases l with
  | float x => exact Bool.or_eq_true_iff.2 (Or.inr (Double.beq_self h.1))
  | str text => exact beq_self_eq_true text
  | int n => exact beq_self_eq_true n
  | symbol name => exact beq_self_eq_true name

/-- A literal is the same as what is read for it if it is what is read for it. -/
theorem same_canonical_iff {l : Literal} : l.canonical.same l = true ↔ l.IsFinite := by
  constructor
  · intro h
    by_contra hfinite
    cases l with
    | float x =>
      rw [canonical_float_of_not_finite hfinite] at h
      cases h
    | _ => exact hfinite trivial
  · intro h
    rw [canonical_of_isFinite h]
    exact same_self h

/-- The word for what is no finite double is written as it is. -/
theorem writeLiteral_canonical (l : Literal) :
    Tree.writeLiteral l.canonical = Tree.writeLiteral l := by
  by_cases h : l.IsFinite
  · rw [canonical_of_isFinite h]
  · cases l with
    | float x =>
      rw [canonical_float_of_not_finite h]
      rfl
    | _ => exact absurd trivial h

end Literal

namespace Tree

/-! ### What a formula and its canonical form have in common -/

/-- **Whether all doubles of a formula are finite.** -/
def IsFinite (t : Tree) : Prop := t.Everywhere fun u => ∀ l, u = atom l → l.IsFinite

theorem isFinite_atom {l : Literal} : (atom l).IsFinite ↔ l.IsFinite := by
  rw [IsFinite, everywhere_atom]
  constructor
  · intro h
    exact h l rfl
  · rintro h m hm
    rw [← atom.inj hm]
    exact h

theorem isFinite_list {items : List Tree} : (list items).IsFinite ↔ ∀ t ∈ items, t.IsFinite := by
  rw [IsFinite, everywhere_list]
  constructor
  · exact And.right
  · intro h
    exact ⟨nofun, h⟩

/-- **A formula is canonical if all its doubles are finite**, and only then. -/
theorem canonical_eq_self_iff {t : Tree} : t.canonical = t ↔ t.IsFinite := by
  induction t using inductionOn with
  | atom l =>
    rw [canonical_atom, isFinite_atom, ← Literal.canonical_eq_self_iff]
    exact ⟨atom.inj, congrArg atom⟩
  | list items ih =>
    have hid : items.map canonical = items ↔ ∀ t ∈ items, t.canonical = t := by
      conv_lhs => rhs; rw [← List.map_id items]
      exact List.map_inj_left
    rw [canonical_list, isFinite_list, list.injEq, hid]
    exact forall₂_congr ih

theorem sameAll_canonical_iff {items : List Tree}
    (ih : ∀ t ∈ items, (t.canonical.same t = true ↔ t.IsFinite)) :
    sameAll (items.map canonical) items = true ↔ ∀ t ∈ items, t.IsFinite := by
  induction items with
  | nil => exact ⟨fun _ => nofun, fun _ => rfl⟩
  | cons t rest ihr =>
    rw [List.map_cons, sameAll, Bool.and_eq_true, ih t List.mem_cons_self,
      ihr fun u hu => ih u (List.mem_cons_of_mem _ hu), List.forall_mem_cons]

/-- **A formula is the same as its canonical form if all its doubles are finite**, and only then. -/
theorem same_canonical_iff {t : Tree} : t.canonical.same t = true ↔ t.IsFinite := by
  induction t using inductionOn with
  | atom l => rw [canonical_atom, isFinite_atom, same, Literal.same_canonical_iff]
  | list items ih => rw [canonical_list, isFinite_list, same, sameAll_canonical_iff ih]

theorem write_canonical (t : Tree) : t.canonical.write = t.write := by
  have hmore (items : List Tree) (ih : ∀ t ∈ items, t.canonical.write = t.write) :
      writeMore (items.map canonical) = writeMore items := by
    induction items with
    | nil => rfl
    | cons t rest ihr =>
      rw [List.map_cons, writeMore, writeMore, ih t List.mem_cons_self,
        ihr fun u hu => ih u (List.mem_cons_of_mem _ hu)]
  induction t using inductionOn with
  | atom l => exact Literal.writeLiteral_canonical l
  | list items ih =>
    rw [canonical_list, write, write]
    cases items with
    | nil => rfl
    | cons t rest =>
      rw [List.map_cons, writeAll, writeAll, ih t List.mem_cons_self,
        hmore rest fun u hu => ih u (List.mem_cons_of_mem _ hu)]

/-- **A formula and its canonical form have one text.** -/
theorem text_canonical (t : Tree) : t.canonical.text = t.text := by
  rw [text, text, write_canonical]

/-! ### Well-formed formulas -/

/-- **Whether a formula is well formed**: its lists are headed by symbols that are no keywords, its
symbols are words that do not look like numbers, and its doubles are finite. -/
structure IsWellFormed (t : Tree) : Prop where
  nodes : t.Everywhere IsReadableNode
  finite : t.IsFinite

/-- **Reading undoes writing**: a well-formed formula is read back from its text as it is, and if it
nests too deep the reader says so. -/
theorem parse_text_wellFormed {t : Tree} (h : t.IsWellFormed) : parse t.text =
    if t.depth ≤ maxNesting then .ok t else .error (.tooDeep maxNesting) := by
  rw [parse_text_eq h.nodes, canonical_eq_self_iff.2 h.finite]

/-- A call with a string of what is escaped and with numbers, inside as many other calls. -/
def nested : Nat → Tree
  | 0 => list [symbol "f", str "(\"\\\n\t", atom (.float (-0.5)), atom (.int (-7))]
  | n + 1 => list [symbol "abs", nested n]

theorem depth_nested (n : Nat) : (nested n).depth = n + 1 := by
  induction n with
  | zero => rfl
  | succ n ih =>
    have hdepth : (nested (n + 1)).depth = 1 + max 0 (max (nested n).depth 0) := rfl
    omega

theorem isWellFormed_nested (n : Nat) : (nested n).IsWellFormed := by
  have hsymbol (name : String) (hne : name.toList ≠ [])
      (hends : (name.toList.all fun c => !Token.endsWord c) = true)
      (hnumeric : looksNumeric name.toList = false) :
      (symbol name).Everywhere IsReadableNode ∧ (symbol name).IsFinite :=
    ⟨everywhere_atom.2 ⟨isWord_of_all hne hends, hnumeric⟩, isFinite_atom.2 trivial⟩
  induction n with
  | zero =>
    have hf := hsymbol "f" (by decide) (by decide) (by decide)
    have hfinite : (Literal.float (-0.5)).IsFinite := ⟨by decide +kernel, by decide +kernel⟩
    constructor
    · refine everywhere_list.2 ⟨rfl, ?_⟩
      simp only [List.forall_mem_cons]
      exact ⟨hf.1, everywhere_atom.2 trivial, everywhere_atom.2 trivial, everywhere_atom.2 trivial,
        nofun⟩
    · refine isFinite_list.2 ?_
      simp only [List.forall_mem_cons]
      exact ⟨hf.2, isFinite_atom.2 trivial, isFinite_atom.2 hfinite, isFinite_atom.2 trivial, nofun⟩
  | succ n ih =>
    have habs := hsymbol "abs" (by decide) (by decide) (by decide)
    constructor
    · refine everywhere_list.2 ⟨rfl, ?_⟩
      simp only [List.forall_mem_cons]
      exact ⟨habs.1, ih.nodes, nofun⟩
    · refine isFinite_list.2 ?_
      simp only [List.forall_mem_cons]
      exact ⟨habs.2, ih.finite, nofun⟩

/-- A formula that nests as deep as it may, and one that nests one list deeper. -/
theorem parse_text_nested :
    (nested 511).IsWellFormed ∧ parse (nested 511).text = .ok (nested 511) ∧
      (nested 512).IsWellFormed ∧ parse (nested 512).text = .error (.tooDeep maxNesting) := by
  have hdeepest := parse_text_wellFormed (isWellFormed_nested 511)
  have hdeeper := parse_text_wellFormed (isWellFormed_nested 512)
  rw [depth_nested, if_pos (by decide)] at hdeepest
  rw [depth_nested, if_neg (by decide)] at hdeeper
  exact ⟨isWellFormed_nested 511, hdeepest, isWellFormed_nested 512, hdeeper⟩

end Tree

end SeriesAlgebra
