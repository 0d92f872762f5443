import SeriesAlgebra.Proofs.Formula.Codec
import SeriesAlgebra.Proofs.Formula.Expansion

/-!
# Formulas that are told by their texts

Two formulas with one text are read as the same formula, but a formula that nests too deep is
not read at all, and an expanded one may. So the grammar is looked at instead: what is spelt
is told by what spells it, whatever follows (`Tree.Spells.unambiguous`), and therefore
formulas that are written as they are – their literals are canonical and their lists headed
(`Tree.IsWritten`) – are equal if their texts are (`Tree.IsWritten.text_inj`), however deep
they nest. Expansion makes such formulas of such formulas
(`Tree.IsWritten.expandBelow`).
-/

namespace SeriesAlgebra

namespace Tree

/-! ### Spelling is unambiguous -/

/-- **Whether kinds of tokens spell one formula only**, and end where it ends, whatever follows. -/
def SpellsOnly (kinds : List TokenKind) (t : Tree) : Prop :=
  ∀ ⦃kinds' u rest rest'⦄, Spells kinds' u → kinds ++ rest = kinds' ++ rest' → t = u ∧ rest = rest'

/-- No formula starts where a list ends. -/
theorem Spells.ne_closing {kinds rest rest' : List TokenKind} {t : Tree} (h : Spells kinds t) :
    kinds ++ rest ≠ .closing :: rest' := by
  cases h <;> simp

theorem spellsOnly_items {args others : List (List TokenKind × Tree)}
    (hargs : ∀ arg ∈ args, Spells arg.1 arg.2 ∧ SpellsOnly arg.1 arg.2)
    (hothers : ∀ arg ∈ others, Spells arg.1 arg.2) {rest rest' : List TokenKind}
    (h : args.flatMap (·.1) ++ .closing :: rest = others.flatMap (·.1) ++ .closing :: rest') :
    args.map (·.2) = others.map (·.2) ∧ rest = rest' := by
  induction args generalizing others with
  | nil =>
    cases others with
    | nil => exact ⟨rfl, (List.cons.inj h).2⟩
    | cons other others =>
      rw [List.flatMap_cons, List.append_assoc] at h
      exact absurd h.symm (hothers other List.mem_cons_self).ne_closing
  | cons arg args ih =>
    obtain ⟨harg, honly⟩ := hargs arg List.mem_cons_self
    rw [List.flatMap_cons, List.append_assoc] at h
    cases others with
    | nil => exact absurd h harg.ne_closing
    | cons other others =>
      rw [List.flatMap_cons, List.append_assoc] at h
      obtain ⟨hhead, htail⟩ := honly (hothers other List.mem_cons_self) h
      obtain ⟨hitems, hrest⟩ := ih (fun a ha => hargs a (List.mem_cons_of_mem _ ha))
        (fun a ha => hothers a (List.mem_cons_of_mem _ ha)) htail
      exact ⟨by rw [List.map_cons, List.map_cons, hhead, hitems], hrest⟩

/-- **Spelling is unambiguous**: no spelling of a formula is the beginning of that of another. -/
theorem Spells.unambiguous {kinds : List TokenKind} {t : Tree} (h : Spells kinds t) :
    SpellsOnly kinds t := by
  induction h with
  | quoted text =>
    intro kinds' u rest rest' hu heq
    cases hu with
    | quoted text' =>
      obtain ⟨htext, hrest⟩ := List.cons.inj heq
      exact ⟨by rw [TokenKind.quoted.inj htext], hrest⟩
    | bare _ => cases heq
    | list _ _ _ => cases heq
  | @bare word l hl =>
    intro kinds' u rest rest' hu heq
    cases hu with
    | quoted text' => cases heq
    | bare hl' =>
      obtain ⟨hword, hrest⟩ := List.cons.inj heq
      obtain rfl := TokenKind.bare.inj hword
      exact ⟨by rw [Except.ok.inj (hl.symm.trans hl')], hrest⟩
    | list _ _ _ => cases heq
  | @list word name args hhead hkeyword hargs ih =>
    intro kinds' u rest rest' hu heq
    cases hu with
    | quoted text' => cases heq
    | bare _ => cases heq
    | @list word' name' others hhead' hkeyword' hothers =>
      simp only [List.cons_append, List.append_assoc, List.nil_append, List.cons.injEq,
        TokenKind.bare.injEq, true_and] at heq
      obtain ⟨rfl, hitems⟩ := heq
      obtain rfl : name = name' := Literal.symbol.inj (Except.ok.inj (hhead.symm.trans hhead'))
      obtain ⟨hitems, hrest⟩ := spellsOnly_items (fun a ha => ⟨hargs a ha, ih a ha⟩) hothers hitems
      exact ⟨by rw [hitems], hrest⟩

/-- Formulas that are spelt the same are the same. -/
theorem Spells.unique {kinds : List TokenKind} {t u : Tree} (ht : Spells kinds t)
    (hu : Spells kinds u) : t = u := by
  have h : kinds ++ [] = kinds ++ [] := rfl
  exact (ht.unambiguous hu h).1

/-- **Formulas with one text are written the same.** -/
theorem canonical_eq_of_text_eq {t u : Tree} (ht : t.Everywhere IsReadableNode)
    (hu : u.Everywhere IsReadableNode) (h : t.text = u.text) : t.canonical = u.canonical := by
  obtain ⟨kinds, hkinds, hspells⟩ := tokenKinds?_text ht
  obtain ⟨kinds', hkinds', hspells'⟩ := tokenKinds?_text hu
  obtain rfl : kinds = kinds' := Option.some.inj (hkinds.symm.trans (h ▸ hkinds'))
  exact hspells.unique hspells'

/-! ### Written formulas -/

/-- Whether a node is written as it is: its literal is read as it is, or it is a headed list. -/
def IsWrittenNode : Tree → Prop
  | atom l => l.IsReadable ∧ l.canonical = l
  | list items => isHeaded items = true

/-- **Whether a formula is written as it is.** -/
def IsWritten (t : Tree) : Prop := t.Everywhere IsWrittenNode

theorem isWritten_list {items : List Tree} :
    (list items).IsWritten ↔ isHeaded items = true ∧ ∀ t ∈ items, t.IsWritten := everywhere_list

theorem IsWritten.isReadable {t : Tree} (h : t.IsWritten) : t.Everywhere IsReadableNode :=
  Everywhere.mono h fun u hu => by
    cases u with
    | atom l => exact hu.1
    | list items => exact hu

theorem IsWritten.canonical {t : Tree} (h : t.IsWritten) : t.canonical = t := by
  induction t using inductionOn with
  | atom l => rw [canonical_atom, (everywhere_atom.1 h).2]
  | list items ih =>
    rw [canonical_list, List.map_congr_left fun t ht => ih t ht ((isWritten_list.1 h).2 t ht),
      List.map_id']

/-- Formulas that can be read are written as they are if they are canonical. -/
theorem isWritten_of_canonical {t : Tree} (ht : t.Everywhere IsReadableNode)
    (h : t.canonical = t) : t.IsWritten := by
  intro u hu
  have hreadable := ht u hu
  cases u with
  | atom l => exact ⟨hreadable, atom.inj (canonical_node h hu)⟩
  | list items => exact hreadable

/-- **Written formulas are told by their texts.** -/
theorem IsWritten.text_inj {t u : Tree} (ht : t.IsWritten) (hu : u.IsWritten)
    (h : t.text = u.text) : t = u := by
  rw [← ht.canonical, ← hu.canonical]
  exact canonical_eq_of_text_eq ht.isReadable hu.isReadable h

/-! ### Expanded formulas -/

/-- Lists with the same head are headed alike. -/
theorem isHeaded_mapLeaves {f : String → List Tree → Except TreeError Tree} {items others : List Tree}
    (hitems : isHeaded items = true)
    (h : List.Forall₂ (fun t u => t.mapLeaves f = .ok u) items others) : isHeaded others = true := by
  obtain ⟨name, args, rfl, hkeyword⟩ := isHeaded_iff.1 hitems
  cases h with
  | cons hhead _ =>
    rw [symbol, mapLeaves] at hhead
    obtain rfl := Except.ok.inj hhead
    exact isHeaded_iff.2 ⟨name, _, rfl, hkeyword⟩

theorem IsWritten.mapLeaves {f : String → List Tree → Except TreeError Tree}
    (hf : ∀ name items v, (list items).IsWritten → f name items = .ok v → v.IsWritten) {t u : Tree}
    (ht : t.IsWritten) (h : t.mapLeaves f = .ok u) : u.IsWritten := by
  induction t using inductionOn generalizing u with
  | atom l =>
    rw [Tree.mapLeaves] at h
    exact Except.ok.inj h ▸ ht
  | list items ih =>
    cases hname : leafName? items with
    | some name =>
      rw [mapLeaves_leaf hname] at h
      exact hf name items u ht h
    | none =>
      obtain ⟨others, rfl, hall⟩ := mapLeaves_list hname h
      obtain ⟨hheaded, hitems⟩ := isWritten_list.1 ht
      refine isWritten_list.2 ⟨isHeaded_mapLeaves hheaded hall, fun v hv => ?_⟩
      obtain ⟨t, ht, htv⟩ := Result.exists_of_mem_right hall hv
      exact ih t ht (hitems t ht) htv

theorem IsWritten.withCarried {items : List Tree} (hitems : (list items).IsWritten) {body : Tree}
    (hbody : body.IsWritten) : (withCarried items body).IsWritten := by
  have hoptions : (symbol optionsOperator).IsWritten :=
    everywhere_atom.2 ⟨⟨isWord_of_all (by decide) (by decide), by decide⟩, rfl⟩
  unfold Tree.withCarried
  split
  · exact hbody
  · refine isWritten_list.2 ⟨rfl, fun t ht => ?_⟩
    rcases List.mem_cons.1 ht with rfl | ht
    · exact hoptions
    · rcases List.mem_cons.1 ht with rfl | ht
      · exact hbody
      · exact (isWritten_list.1 hitems).2 t (List.mem_of_mem_drop ht)

/-- **An expanded formula is written as it is** if all formulas are, wherever expansion stops. -/
theorem IsWritten.expandBelow {resolve : String → Except TreeError (Option Tree)}
    (hresolve : ∀ name t, resolve name = .ok (some t) → t.IsWritten) {stop : List String}
    {limit levels : Nat} {path : List String} {t u : Tree} (ht : t.IsWritten)
    (h : expandBelow resolve stop limit levels path t = .ok u) : u.IsWritten := by
  -- A formula that is inlined is expanded one level below.
  induction levels using Nat.strong_induction_on generalizing path t u with
  | _ levels ih =>
    rw [expandBelow_eq_mapLeaves] at h
    refine ht.mapLeaves (fun name items v hitems hv => ?_) h
    rcases expandLeafBelow_ok hv with - | - | ⟨-, hlevels, hformula, hbody⟩
    · exact hitems
    · exact hitems
    · exact hitems.withCarried (ih _ (hlevels ▸ Nat.lt_succ_self _) (hresolve name _ hformula) hbody)

end Tree

end SeriesAlgebra
