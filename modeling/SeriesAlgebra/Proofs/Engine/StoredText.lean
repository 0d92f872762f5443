import SeriesAlgebra.Proofs.Engine.Reachable
import SeriesAlgebra.Proofs.Formula.RoundTrip

/-!
# Formulas as they are stored

An engine keeps a formula as the text that is written for it, whatever text it was
registered with. What is read back from there on is the canonical form of the formula
(`Engine.parse_text_of_read`), so nothing but the spelling is lost if all doubles of the
formula are finite.

A word such as `1e999` looks like a number and is read as an infinite double. It is written
as a word that does not look like a number any more, and is a symbol from then on
(`Engine.parse_text_ne`).
-/

namespace SeriesAlgebra

namespace Engine

variable {e : Engine} {name text : String} {t : Tree} {options : RegisterOptions}

/-- The formula that is kept in a record is read back as its canonical form. -/
theorem treeOf?_newRecord (ht : Tree.parse text = .ok t) (name : String) (aware : Option Bool)
    (previous : Option FormulaRecord) :
    treeOf? (some (newRecord name t aware previous)) = .ok (some t.canonical) := by
  rw [treeOf?_some]
  show (Tree.parse t.text).map some = .ok (some t.canonical)
  rw [Tree.parse_text_of_parse ht]
  rfl

theorem formulaTree?_registerFormula (ht : Tree.parse text = .ok t)
    (hanswer : (e.registerFormula name text options).answer = .ok ()) :
    (e.registerFormula name text options).engine.formulaTree? name = .ok (some t.canonical) := by
  rcases e.ends_registerFormula name text options with
    ⟨records, cause, heq, -⟩ | ⟨e', records, heq, heffect, -⟩
  · rw [heq] at hanswer
    cases hanswer
  · rw [heq]
    cases heffect with
    | bind _ hbuilds _ _ _ => exact hbuilds.elim
    | @registerFormula _ _ _ _ aware ht' _ _ =>
      obtain rfl := Except.ok.inj (ht'.symm.trans ht)
      show treeOf? ((e.formulas.insert name _).find? name) = _
      rw [OrderedMap.find?_insert_self]
      exact treeOf?_newRecord ht name aware _

theorem groupTree?_registerGroupFormula (ht : Tree.parse text = .ok t)
    (hanswer : (e.registerGroupFormula name text options).answer = .ok ()) :
    (e.registerGroupFormula name text options).engine.groupTree? name =
      .ok (some t.canonical) := by
  rcases e.ends_registerGroupFormula name text options with
    ⟨records, cause, heq, -⟩ | ⟨e', records, heq, heffect, -⟩
  · rw [heq] at hanswer
    cases hanswer
  · rw [heq]
    cases heffect with
    | bind _ hbuilds _ _ _ => exact hbuilds.elim
    | @registerGroupFormula _ _ _ _ aware ht' _ _ _ =>
      obtain rfl := Except.ok.inj (ht'.symm.trans ht)
      show treeOf? ((e.groupFormulas.insert name _).find? name) = _
      rw [OrderedMap.find?_insert_self]
      exact treeOf?_newRecord ht name aware _

/-- **What was read from a text is read back from what is written for it**, and written in the same
way again, and engines read nothing else under the names it is registered with. It is the same
formula if all its doubles are finite, and only then. -/
theorem parse_text_of_read (ht : Tree.parse text = .ok t) :
    ∃ u, Tree.parse t.text = .ok u ∧ u.text = t.text ∧ (u.same t = true ↔ t.IsFinite) ∧
      (∀ (e : Engine) (name : String) (options : RegisterOptions),
        (e.registerFormula name text options).answer = .ok () →
        (e.registerFormula name text options).engine.formulaTree? name = .ok (some u)) ∧
      ∀ (e : Engine) (name : String) (options : RegisterOptions),
        (e.registerGroupFormula name text options).answer = .ok () →
        (e.registerGroupFormula name text options).engine.groupTree? name = .ok (some u) :=
  ⟨t.canonical, Tree.parse_text_of_parse ht, Tree.text_canonical t, Tree.same_canonical_iff,
    fun _ _ _ => formulaTree?_registerFormula ht, fun _ _ _ => groupTree?_registerGroupFormula ht⟩

/-- A product whose numbers and strings are not spelt as they are written. -/
def unusualProduct : String :=
  "( *\n-007.50e1 (+ 99999999999999999999 (series \"a\\x\" #:fill .5)))"

/-- The text that is written for it. -/
def usualProduct : String := "(* -75.0 (+ 1e20 (series \"ax\" #:fill 0.5)))"

/-- An engine with the series of the product. -/
def multiplying : Engine :=
  ((overNothing .initial).updateSeries "ax" (.ofPoints "ax" [(dayOf2024 0, 1.0)]) (dayOf2024 0)
    false).engine

/-- The product is registered, and is the same in its usual spelling. -/
theorem parse_usualProduct : ∃ t u, Tree.parse unusualProduct = .ok t ∧ t.text = usualProduct ∧
    Tree.parse usualProduct = .ok u ∧ u.same t = true ∧ u.text = usualProduct ∧
    (multiplying.registerFormula "f" unusualProduct ⟨none, false⟩).engine.formulaTree? "f" =
      .ok (some u) := by
  have hread : (Tree.parse unusualProduct).toOption.any
      (fun t => t.text == usualProduct && t.canonical.same t) = true := by decide +kernel
  obtain ⟨t, ht, h⟩ := Result.exists_ok_any hread
  obtain ⟨htext, hsame⟩ := Bool.and_eq_true_iff.1 h
  have htext := beq_iff_eq.1 htext
  obtain ⟨_, hanswer⟩ := Result.exists_ok
    (x := (multiplying.registerFormula "f" unusualProduct ⟨none, false⟩).answer) (by decide +kernel)
  obtain ⟨u, hu, hagain, hiff, hregistered, -⟩ := parse_text_of_read ht
  rw [htext] at hu hagain
  exact ⟨t, u, ht, htext, hu, hiff.2 (Tree.same_canonical_iff.1 hsame), hagain,
    hregistered multiplying "f" ⟨none, false⟩ hanswer⟩

/-- **Writing does not keep all that was read**: a number that is too great for a double is written
as a word, and the word is read as a symbol. -/
theorem parse_text_ne : ¬ ∀ text t, Tree.parse text = .ok t →
    ∃ u, Tree.parse t.text = .ok u ∧ u.same t = true ∧ u.text = t.text := by
  intro hall
  have hread : (Tree.parse "1e999").toOption.any (fun t =>
      (Tree.parse t.text).toOption.all fun u => !u.same t) = true := by decide +kernel
  obtain ⟨t, ht, hdiffer⟩ := Result.exists_ok_any hread
  obtain ⟨u, hu, hsame, -⟩ := hall "1e999" t ht
  rw [hu] at hdiffer
  have hdiffer : (!u.same t) = true := hdiffer
  rw [hsame] at hdiffer
  cases hdiffer

end Engine

end SeriesAlgebra
