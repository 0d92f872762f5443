import SeriesAlgebra.Proofs.Engine.Inlining
import SeriesAlgebra.Proofs.Evaluation.Windows

/-!
# Reading a window

What an engine reads in a window is what it reads in full, cut to the window
(`Engine.samePoints_window_of_read`). A stored series is cut so when it is read. A formula is
read through the formulas it refers to, each for windows that its place in the others has
changed; by induction on the levels below it, two readings of it at one revision are cut alike
for any two windows (`Engine.cutAlike_of_plainReader`), if no formula that it leads to looks
beyond the window (`Engine.CanBeCut`).
-/

namespace SeriesAlgebra

open Evaluation Reading Series

/-! ### Stored series -/

/-- A stored series is cut alike for two windows at one revision. -/
theorem Store.Consistent.cutAlike_of_read? {store : Store} (h : store.Consistent) {name : String}
    {q q' : Query} (hq : q.revision = q'.revision) {s r : Series}
    (hs : store.read? name q = some s) (hr : store.read? name q' = some r) :
    CutAlike q.window q'.window s r := by
  obtain ⟨stored, hstored, rfl⟩ := Option.map_eq_some_iff.1 hs
  obtain ⟨stored', hstored', rfl⟩ := Option.map_eq_some_iff.1 hr
  obtain rfl := Option.some.inj (hstored.symm.trans hstored')
  rw [← hq]
  cases hversion : History.version? stored.versions q.revision with
  | some version =>
    exact cutAlike_window (isStored_of_version? (h.stored name stored hstored) _ hversion).sorted _ _
  | none => exact ⟨.nil, .nil, fun _ _ => rfl, fun _ _ => rfl, fun _ _ _ => rfl⟩

namespace Engine

/-- **Whether a formula can be cut**: no node of a formula that it leads to looks beyond the
window. -/
def CanBeCut (e : Engine) (name : String) : Prop :=
  ∀ other, Relation.ReflTransGen e.RefersTo name other → ∀ t, e.formulaTree? other = .ok (some t) →
    t.Everywhere Tree.IsCuttable

variable {e : Engine}

theorem CanBeCut.below {name other : String} (h : e.CanBeCut name) (hother : e.RefersTo name other) :
    e.CanBeCut other := fun _ hreaches => h _ (.head hother hreaches)

/-- All formulas can be cut if no node of any looks beyond the window. -/
theorem canBeCut_of_all (h : ∀ entry ∈ e.formulas.entries, ∀ t, Tree.parse entry.2.text = .ok t →
    t.Everywhere Tree.IsCuttable) (name : String) : e.CanBeCut name := by
  intro other _ t ht
  obtain ⟨record, hrecord, hparse⟩ := formulaTree?_some ht
  exact h (other, record) (OrderedMap.mem_of_find? hrecord) t hparse

/-- What is no formula is cut alike for two windows. -/
theorem cutAlike_of_readPrimary (he : e.Consistent) {name : String} {q q' : Query}
    (hq : q.revision = q'.revision) {s r : Series} (hs : e.readPrimary name q = .ok s)
    (hr : e.readPrimary name q' = .ok r) : CutAlike q.window q'.window s r := by
  have hstored {q : Query} {s : Series} (hs : e.readPrimary name q = .ok s) :
      e.store.read? name q = some s := by
    unfold readPrimary sourceOf? at hs
    rw [he.sources] at hs
    split at hs
    · rename_i r hr
      rw [hr, Except.ok.inj hs]
    · cases hs
  exact he.store.cutAlike_of_read? hq (hstored hs) (hstored hr)

/-- **Two readings of a formula at one revision are cut alike.** -/
theorem cutAlike_of_plainReader (he : e.Consistent) (n : Nat) {name : String}
    (hcut : e.CanBeCut name) {q q' : Query} (hq : q.revision = q'.revision) :
    (Comparison.agree Unit Unit).Holds (CutAlike q.window q'.window)
      ((e.plainReader n).series name q) fun _ => (e.plainReader n).series name q' := by
  induction n using Nat.strong_induction_on generalizing name q q' with
  | _ n ih =>
    intro _ s _ _ r _ hs hr
    cases hname : e.formulaTree? name with
    | error cause => exact absurd hname (he.formulas.formulaTree?_ne_error name cause)
    | ok tree =>
      cases tree with
      | none =>
        rw [plainReader_primary hname] at hs hr
        exact cutAlike_of_readPrimary he hq (gives_settle.1 hs).1 (gives_settle.1 hr).1
      | some t =>
        -- Both readings enter the formula one level below, each for its own window.
        obtain ⟨l, s, rfl, hvalue, rfl⟩ := exists_of_plainReader he hname hs
        obtain ⟨l', r, hl, hvalue', rfl⟩ := exists_of_plainReader he hname hr
        obtain rfl := Nat.succ.inj hl
        have hformula := (he.isKept hname).formula.nodes
        have hvalues := (Comparison.agree Unit Unit).holds_cutAlike (A := e.plainReader l)
          (B := fun _ => e.plainReader l) hformula (hcut name .refl t hname)
          (fun items leaf c c' hitems hleaf hc => ?_) hq
        · cases hvalues _ _ _ _ _ _ hvalue hvalue' with
          | series h => exact ⟨h.left, h.right, h.leftInside, h.rightInside, h.same⟩
        · have hreference : leaf ∈ t.seriesReferences e.registry := by
            rw [he.registry]
            exact mem_sortedSet.2 (Tree.mem_references hformula hitems hleaf)
          exact ih l (Nat.lt_succ_self l) (hcut.below ⟨t, hname, hreference⟩) hc

/-- An engine with a series of three hours, between which the clocks of Paris are put back, a slice
of it, and the slice by these clocks. -/
def puttingBack : Engine :=
  let e := overNothing .initial
  let e := (e.updateSeries "a" (.ofPoints "a" [(dayOf2024 300, 1.0),
    ((dayOf2024 300).shift (.seconds 3600), 2.0), ((dayOf2024 300).shift (.seconds 7200), 3.0)])
    (dayOf2024 0) false).engine
  let e := (e.registerFormula "late" "(slice (series \"a\") #:fromdate (date \"2024-10-27\"))"
    ⟨none, false⟩).engine
  (e.registerFormula "shown" "(naive (series \"late\") \"Europe/Paris\")" ⟨none, false⟩).engine

theorem reachable_puttingBack : puttingBack.Reachable :=
  .registerFormula (.registerFormula (.updateSeries (reachable_overNothing rfl) _ _ _ _) _ _ _) _ _ _

end Engine

end SeriesAlgebra
