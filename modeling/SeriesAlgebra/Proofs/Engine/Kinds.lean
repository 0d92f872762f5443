import SeriesAlgebra.Engine.Replay
import SeriesAlgebra.Engine.Staircase
import SeriesAlgebra.Proofs.Engine.Reachable
import SeriesAlgebra.Proofs.Engine.Remembering
import SeriesAlgebra.Proofs.Evaluation.Kinds

/-!
# What the formulas of an engine give

A formula is registered if its type is that of a series, and a group formula if it is that of
a table. Both are kept as texts, and what is read back need not have that type any more: an
infinite double is written as a word. But it is alike to what was registered
(`Tree.IsTypedAs`), whatever is renamed in it later, so its value is of the same kind
(`Engine.fits_of_gives`).
-/

namespace SeriesAlgebra

open Evaluation Reading

/-- Whether a formula is kept that is alike to one of a certain type. -/
structure Tree.IsTypedAs (type : TypeTag) (t : Tree) : Prop where
  canonical : t.canonical = t
  typed : ∃ original, Tree.Alike original t ∧ Typing.infer .builtin original = .ok type

theorem Tree.canBeKept_isTypedAs (type : TypeTag) : CanBeKept (IsTypedAs type) where
  canonical h := h.canonical
  renameSeries h old new := by
    obtain ⟨original, halike, htype⟩ := h.typed
    exact ⟨canonical_renameSeries h.canonical old new, original,
      halike.trans (alike_renameSeries old new _), htype⟩

/-! ### Expansion -/

namespace Tree

/-- What leaves of a formula are replaced by stands for them, if it gives series. -/
theorem standsFor_mapLeaves {f : String → List Tree → Except TreeError Tree}
    (hf : ∀ name items u, leafName? items = some name → f name items = .ok u → u.GivesSeries)
    {original t u : Tree} (halike : Alike original t) (h : t.mapLeaves f = .ok u) :
    StandsFor original u := by
  induction t using inductionOn generalizing original u with
  | atom l =>
    rw [mapLeaves] at h
    obtain rfl := Except.ok.inj h
    exact halike.standsFor
  | list items ih =>
    cases halike with
    | @list others items hitems =>
      cases hname : leafName? items with
      | some name =>
        rw [mapLeaves_leaf hname] at h
        refine .leaf (fun b hb => ?_) (hf name items u hname h)
        exact Calls.unique (headSymbol?_of_alike hitems hb) (calls_of_leafName? hname)
      | none =>
        obtain ⟨images, rfl, himages⟩ := mapLeaves_list hname h
        exact .list (Result.forall₂_comp hitems himages
          fun original _ t ht u halike hu => ih t ht halike hu)

variable {resolve : String → Except TreeError (Option Tree)} {stop : List String} {limit : Nat}

theorem givesSeries_withCarried {body : Tree} (h : body.GivesSeries) (items : List Tree) :
    (withCarried items body).GivesSeries := by
  unfold withCarried
  split
  · exact h
  · refine givesSeries_of_calls (?_ : Calls _ .options) rfl
    rfl

/-- **The expansion of a formula that has the type of series gives series**, if all formulas
have. -/
theorem givesSeries_expandBelow
    (hresolve : ∀ name t, resolve name = .ok (some t) → t.IsTypedAs .series) {levels : Nat}
    {path : List String} {t u : Tree} (ht : t.IsTypedAs .series)
    (h : expandBelow resolve stop limit levels path t = .ok u) : u.GivesSeries := by
  induction levels using Nat.strong_induction_on generalizing path t u with
  | _ levels ih =>
    obtain ⟨original, halike, htype⟩ := ht.typed
    rw [expandBelow_eq_mapLeaves] at h
    -- Leaves stand for what they are replaced by, as far as kinds go.
    refine Typing.givesSeries_of_infer (standsFor_mapLeaves (fun name items u hname hu => ?_)
      halike h) htype
    have hleaf : (list items).GivesSeries := givesSeries_of_calls (calls_of_leafName? hname) rfl
    rcases expandLeafBelow_ok hu with hstop | ⟨-, hnone⟩ | ⟨hstop, hlevels, hformula, hbody⟩
    · exact hleaf
    · exact hleaf
    · exact givesSeries_withCarried (ih _ (by omega) (hresolve _ _ hformula) hbody) items

end Tree

namespace Engine

variable {e e' : Engine}

/-! ### Formulas and group formulas that are kept -/

/-- What passes the checks has the type that it is checked against. -/
theorem isTypedAs_of_validate (hregistry : e.registry = .builtin) {name text : String} {t : Tree}
    (ht : Tree.parse text = .ok t) {expected : TypeTag} (hexpected : expected ≠ .any)
    (hnumber : expected ≠ .number) {options : RegisterOptions} {aware : Option Bool}
    (h : (e.validate name t expected options).answer = .ok aware) :
    t.canonical.IsTypedAs expected := by
  obtain ⟨hoperators, ⟨type, htype⟩, -⟩ := checks_of_validate h
  rw [hregistry] at hoperators htype
  refine ⟨Tree.canonical_canonical t, t, Tree.alike_canonical t, ?_⟩
  unfold Typing.check at htype
  obtain ⟨actual, hactual, htype⟩ := Result.bind_ok htype
  have hknown := Tree.isKnown_of_check (Tree.isReadable_of_parse ht) hoperators
  have hany := (Tree.fitsType_of_infer hknown hactual).ne_any
  split at htype
  · rename_i haccepts
    have heq : expected = actual := by
      cases expected <;> cases actual <;> first | rfl | contradiction
    rw [heq]
    exact hactual
  · cases htype

/-- Whether formulas are kept that give series, and group formulas that give tables. -/
structure KeepsTypes (e : Engine) : Prop where
  registry : e.registry = .builtin
  formulas : AllKept (Tree.IsTypedAs .series) e.formulas
  groups : AllKept (Tree.IsTypedAs .table) e.groupFormulas

theorem KeepsTypes.effect {c : Call} (h : e.KeepsTypes) (heffect : e.Effect c e') :
    e'.KeepsTypes where
  registry := heffect.registry.trans h.registry
  formulas := h.formulas.effect (Tree.canBeKept_isTypedAs _)
    (fun ht hanswer => isTypedAs_of_validate h.registry ht nofun nofun hanswer) heffect
  groups := h.groups.effect_groups (Tree.canBeKept_isTypedAs _)
    (fun ht hanswer => isTypedAs_of_validate h.registry ht nofun nofun hanswer) heffect

/-- **What is registered keeps its type**, over any store and with any sources. -/
theorem keepsTypes_of_reaches {store : Store} {config : Config} {first : Engine}
    (hfirst : create store config .builtin = .ok first) (he : Reaches (fun _ _ => True) first e) :
    e.KeepsTypes := by
  have hcreated : first.KeepsTypes := by
    obtain ⟨c, -, hfirst⟩ := Result.bind_ok hfirst
    obtain rfl := Except.ok.inj hfirst
    exact ⟨rfl, areKept_empty, areKept_empty⟩
  exact he.invariant (fun _ _ h => ⟨h.registry, h.formulas, h.groups⟩)
    (fun _ _ h => ⟨h.registry, h.formulas, h.groups⟩)
    (fun _ _ _ _ heffect h => h.effect heffect) hcreated

/-! ### The resolvers of an engine -/

/-- **No resolver of an engine answers an autotrophic call with anything but a series**: readers and
what is put in front of them for bound groups, for histories and for staircases. -/
theorem answersSeries (e : Engine) (levels : Nat) (path : List String) {σ : Type}
    (reader : Resolver σ) (bound stairs : OrderedMap String Series) (known : Replayed) :
    (e.readerBelow levels path).AnswersSeries ∧ (withBound reader bound).AnswersSeries ∧
      (climbing reader stairs).AnswersSeries ∧ (replaying reader known).AnswersSeries := by
  refine ⟨?_, Resolver.answersSeries_of_noAutotrophic rfl,
    Resolver.answersSeries_of_noAutotrophic rfl, ?_⟩
  · cases levels <;> exact Resolver.answersSeries_of_noAutotrophic rfl
  · intro call q s v s' hv
    simp only [replaying] at hv
    split at hv
    · obtain ⟨heq, -⟩ := gives_pure.1 hv
      exact ⟨_, (Option.some.inj heq).symm⟩
    · cases (gives_pure.1 hv).1

/-! ### Values -/

/-- The calls that make a formula of a stored series, and a group formula of that. -/
def typedCalls : List Call :=
  [.updateSeries "a" (.ofPoints "a" [(dayOf2024 0, 1.0)]) (dayOf2024 0) false,
    .registerFormula "f" "(abs (series \"a\"))" ⟨none, false⟩,
    .registerGroupFormula "g" "(group-add (series \"f\") 1)" ⟨none, false⟩]

/-- The engine after these calls. -/
def typed : Engine := (overNothing .initial).performAll typedCalls

end Engine

end SeriesAlgebra
