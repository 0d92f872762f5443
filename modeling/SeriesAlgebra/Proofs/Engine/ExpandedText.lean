import SeriesAlgebra.Proofs.Engine.StaleReferences
import SeriesAlgebra.Proofs.Engine.StoredText
import SeriesAlgebra.Proofs.Formula.Written

/-!
# Texts of expanded formulas

An expanded formula is put together from formulas that have been read, and what is put together
from those is written as it is. So its text is read back as the very formula that it was written
for, wherever expansion stopped, and can be registered in another engine – if the formula nests no
deeper than the reader admits (`Engine.parse_expandedFormula`).

Expansion does not look at that. It limits how many formulas stand inside one another, and the
reader how many lists do. So an expanded formula may be refused by the reader though its parts are
not (`Engine.parse_expandedFormula_ne`).
-/

namespace SeriesAlgebra

namespace Engine

open SeriesAlgebra.Tree

variable {registry : Registry} {e : Engine} {name text : String} {stop : List String} {t u : Tree}

/-- What the text of an expanded formula is written for. -/
theorem expandedFormula_iff : e.expandedFormula name stop = .ok (some text) ↔
    ∃ t u, e.formulaTree? name = .ok (some t) ∧ e.expand stop t = .ok u ∧ text = u.text := by
  unfold expandedFormula
  constructor
  · intro h
    obtain ⟨found, hfound, h⟩ := Result.bind_ok h
    cases found with
    | none => cases h
    | some t =>
      obtain ⟨u, hu, h⟩ := Result.bind_ok h
      exact ⟨t, u, Result.mapError_ok hfound, hu, (Option.some.inj (Except.ok.inj h)).symm⟩
  · rintro ⟨t, u, ht, hu, rfl⟩
    rw [ht]
    show (e.expand stop t >>= _) = _
    rw [hu]
    rfl

/-- The formulas that are kept are written as they are. -/
theorem KeepsCanonical.isWritten (he : e.KeepsCanonical)
    (ht : e.formulaTree? name = .ok (some t)) : t.IsWritten := by
  obtain ⟨record, -, hparse⟩ := formulaTree?_some ht
  exact isWritten_of_canonical (isReadable_of_parse hparse).nodes (he.formulas.of_treeOf? ht)

/-- So are the formulas that are expanded. -/
theorem KeepsCanonical.isWritten_expand (he : e.KeepsCanonical)
    (ht : e.formulaTree? name = .ok (some t)) (hu : e.expand stop t = .ok u) : u.IsWritten :=
  (he.isWritten ht).expandBelow (fun _ _ => he.isWritten) (Result.mapError_ok hu)

/-- **The text of an expanded formula is read back** as the formula that it was written for, and as
that it is kept by every engine that registers it, if the formula nests no deeper than it may; if it
nests deeper, the text is refused. -/
theorem parse_expandedFormula {store : Store} {config : Config} {first : Engine}
    (hfirst : create store config registry = .ok first) (he : Reaches (fun _ _ => True) first e)
    (h : e.expandedFormula name stop = .ok (some text)) :
    ∃ t u, e.formulaTree? name = .ok (some t) ∧ e.expand stop t = .ok u ∧ text = u.text ∧
      (u.depth ≤ maxNesting → Tree.parse text = .ok u ∧ u.same u = true ∧
        ∀ (e' : Engine) (other : String) (options : RegisterOptions),
          (e'.registerFormula other text options).answer = .ok () →
          (e'.registerFormula other text options).engine.formulaTree? other = .ok (some u)) ∧
      (maxNesting < u.depth → Tree.parse text = .error (.tooDeep maxNesting)) := by
  obtain ⟨-, hkeeps, -⟩ := keepsCanonical_of_reaches hfirst he
  obtain ⟨t, u, ht, hu, rfl⟩ := expandedFormula_iff.1 h
  have hwritten := hkeeps.isWritten_expand ht hu
  refine ⟨t, u, ht, hu, rfl, fun hdepth => ?_, fun hdepth => ?_⟩
  · have hparse : Tree.parse u.text = .ok u := by
      rw [parse_text_eq hwritten.isReadable, if_pos hdepth, hwritten.canonical]
    have hsame := same_canonical_iff.2 (canonical_eq_self_iff.1 hwritten.canonical)
    rw [hwritten.canonical] at hsame
    refine ⟨hparse, hsame, fun e' other options hanswer => ?_⟩
    rw [formulaTree?_registerFormula hparse hanswer, hwritten.canonical]
  · rw [parse_text_eq hwritten.isReadable, if_neg (Nat.not_le.2 hdepth)]

/-! ### Formulas that nest half as deep as they may -/

/-- A formula inside as many calls. -/
def wrapped (t : Tree) : Nat → Tree
  | 0 => t
  | n + 1 => list [symbol "abs", wrapped t n]

/-- A reference inside half as many calls as may stand inside one another. -/
def halfDeep (name : String) : Tree := wrapped (list [symbol "series", str name]) 256

theorem wrapped_wrapped (t : Tree) (m n : Nat) : wrapped (wrapped t m) n = wrapped t (m + n) := by
  induction n with
  | zero => rfl
  | succ n ih => exact congrArg (fun u => list [symbol "abs", u]) ih

theorem depth_wrapped (t : Tree) (n : Nat) : (wrapped t n).depth = t.depth + n := by
  induction n with
  | zero => rfl
  | succ n ih =>
    have hdepth : (wrapped t (n + 1)).depth = 1 + max 0 (max (wrapped t n).depth 0) := rfl
    omega

theorem isWritten_wrapped (ht : t.IsWritten) (n : Nat) : (wrapped t n).IsWritten := by
  induction n with
  | zero => exact ht
  | succ n ih =>
    refine isWritten_list.2 ⟨rfl, ?_⟩
    rw [List.forall_mem_cons, List.forall_mem_singleton]
    exact ⟨everywhere_atom.2 ⟨⟨isWord_of_all (by decide) (by decide), by decide⟩, rfl⟩, ih⟩

theorem isWritten_reference (name : String) : (list [symbol "series", str name]).IsWritten := by
  refine isWritten_list.2 ⟨rfl, ?_⟩
  rw [List.forall_mem_cons, List.forall_mem_singleton]
  exact ⟨everywhere_atom.2 ⟨⟨isWord_of_all (by decide) (by decide), by decide⟩, rfl⟩,
    everywhere_atom.2 ⟨trivial, rfl⟩⟩

theorem parse_halfDeep (name : String) : Tree.parse (halfDeep name).text = .ok (halfDeep name) := by
  have hwritten : (halfDeep name).IsWritten := isWritten_wrapped (isWritten_reference name) 256
  have hdepth : (halfDeep name).depth = 257 := depth_wrapped _ 256
  rw [parse_text_eq hwritten.isReadable, if_pos (by rw [hdepth]; decide), hwritten.canonical]

theorem mapLeaves_wrapped {f : String → List Tree → Except TreeError Tree}
    (h : t.mapLeaves f = .ok u) (n : Nat) : (wrapped t n).mapLeaves f = .ok (wrapped u n) := by
  induction n with
  | zero => exact h
  | succ n ih =>
    have hname : leafName? [symbol "abs", wrapped t n] = none := rfl
    rw [wrapped, mapLeaves, hname]
    simp only [mapLeavesOfAll, ih]
    rfl

/-- A formula whose name is free is registered if its checks succeed. -/
theorem registerFormula_of_validate {options : RegisterOptions} {aware : Option Bool}
    (ht : Tree.parse text = .ok t) (hstore : e.store.contains name = false)
    (hformulas : e.formulas.contains name = false)
    (hanswer : (e.validate name t .series options).answer = .ok aware) :
    e.registerFormula name text options =
      ⟨{ e.noteAll (e.validate name t .series options).records with
          formulas := e.formulas.insert name (newRecord name t aware none) }.accept
        .registered name "formula", .ok ()⟩ := by
  unfold registerFormula
  rw [ht]
  dsimp only
  rw [hstore, hformulas, hanswer]
  show Outcome.mk _ _ = _
  rw [show (e.noteAll _).formulas.find? name = none from
    OrderedMap.contains_eq_false_iff.1 hformulas]
  rfl

/-- The calls that register a formula of this kind and the one that it refers to. -/
def toweringCalls : List Call :=
  [.registerFormula "whole" (halfDeep "half").text ⟨some false, false⟩,
    .registerFormula "half" (halfDeep "a").text ⟨some false, false⟩]

/-- The engine after these calls. -/
def towering : Engine := (overNothing .initial).performAll toweringCalls

theorem reachable_towering : towering.Reachable := (reachable_overNothing rfl).performAll _

theorem formulas_towering : towering.config = .initial ∧ towering.formulas =
    (OrderedMap.empty.insert "whole" (newRecord "whole" (halfDeep "half") none none)).insert "half"
      (newRecord "half" (halfDeep "a") none none) := by
  obtain ⟨e, hwhole, hconfig, hstore, hformulas, hanswer⟩ : ∃ e : Engine,
      (overNothing .initial).registerFormula "whole" (halfDeep "half").text ⟨some false, false⟩ =
        ⟨e, .ok ()⟩ ∧ e.config = .initial ∧ e.store.contains "half" = false ∧
      e.formulas = OrderedMap.empty.insert "whole" (newRecord "whole" (halfDeep "half") none none) ∧
      (e.validate "half" (halfDeep "a") .series ⟨some false, false⟩).answer = .ok none :=
    ⟨_, registerFormula_of_validate (parse_halfDeep "half") rfl rfl
      (Result.ok_of_toOption (by decide +kernel)), rfl, rfl, rfl,
      Result.ok_of_toOption (by decide +kernel)⟩
  have hhalf := registerFormula_of_validate (parse_halfDeep "a") hstore (by rw [hformulas]; rfl)
    hanswer
  rw [towering, toweringCalls, performAll_cons, performAll_cons, perform, perform, hwhole]
  dsimp only
  rw [hhalf, ← hformulas, ← hconfig]
  exact ⟨rfl, rfl⟩

theorem formulaTree?_towering :
    towering.formulaTree? "whole" = .ok (some (halfDeep "half")) ∧
      towering.formulaTree? "half" = .ok (some (halfDeep "a")) ∧
      towering.formulaTree? "a" = .ok none := by
  have hcanonical (name : String) : (halfDeep name).canonical = halfDeep name :=
    (isWritten_wrapped (isWritten_reference name) 256).canonical
  unfold formulaTree?
  rw [formulas_towering.2]
  refine ⟨?_, ?_, ?_⟩
  · rw [OrderedMap.find?_insert_of_ne _ (by decide), OrderedMap.find?_insert_self,
      treeOf?_newRecord (parse_halfDeep "half"), hcanonical]
  · rw [OrderedMap.find?_insert_self, treeOf?_newRecord (parse_halfDeep "a"), hcanonical]
  · rw [OrderedMap.find?_insert_of_ne _ (by decide), OrderedMap.find?_insert_of_ne _ (by decide)]
    rfl

/-- What is expanded in such a formula is its reference, inside its calls. -/
theorem expandBelow_halfDeep {resolve : String → Except TreeError (Option Tree)}
    {limit levels : Nat} {path : List String}
    (h : expandLeafBelow resolve stop limit levels path name [symbol "series", str name] = .ok t) :
    expandBelow resolve stop limit levels path (halfDeep name) = .ok (wrapped t 256) := by
  rw [expandBelow_eq_mapLeaves]
  refine mapLeaves_wrapped ?_ 256
  rw [mapLeaves_leaf rfl]
  exact h

theorem withCarried_reference (name : String) (body : Tree) :
    withCarried [symbol "series", str name] body = body := rfl

/-- **The formula is expanded to one that nests deeper than it may**, unless expansion stops. -/
theorem expand_towering :
    towering.expand ["half"] (halfDeep "half") = .ok (halfDeep "half") ∧
      towering.expand [] (halfDeep "half") =
        .ok (wrapped (list [symbol "series", str "a"]) 512) := by
  obtain ⟨-, hhalf, ha⟩ := formulaTree?_towering
  have hdepth : towering.config.maxDepth = 64 := congrArg Config.maxDepth formulas_towering.1
  simp only [expand, Tree.expand, hdepth]
  constructor
  · rw [expandBelow_halfDeep (expandLeafBelow_iff.2 (Or.inl ⟨by decide, rfl⟩))]
    rfl
  · have hreference : expandBelow towering.formulaTree? [] 64 63 ["half"] (halfDeep "a") =
        .ok (wrapped (list [symbol "series", str "a"]) 256) :=
      expandBelow_halfDeep (expandLeafBelow_iff.2
        (Or.inr ⟨List.not_mem_nil, 62, rfl, by decide, Or.inl ⟨ha, rfl⟩⟩))
    have hinlined : expandLeafBelow towering.formulaTree? [] 64 64 [] "half"
        [symbol "series", str "half"] = .ok (wrapped (list [symbol "series", str "a"]) 256) :=
      expandLeafBelow_iff.2 (Or.inr ⟨List.not_mem_nil, 63, rfl, List.not_mem_nil,
        Or.inr ⟨_, _, hhalf, hreference, by rw [withCarried_reference]⟩⟩)
    rw [expandBelow_halfDeep hinlined, wrapped_wrapped]
    rfl

theorem expandedFormula_towering :
    towering.expandedFormula "whole" ["half"] = .ok (some (halfDeep "half").text) ∧
      towering.expandedFormula "whole" [] =
        .ok (some (wrapped (list [symbol "series", str "a"]) 512).text) :=
  ⟨expandedFormula_iff.2 ⟨_, _, formulaTree?_towering.1, expand_towering.1, rfl⟩,
    expandedFormula_iff.2 ⟨_, _, formulaTree?_towering.1, expand_towering.2, rfl⟩⟩

/-- The text is read back if expansion stops at the reference, and is refused if it does not. -/
theorem parse_expandedFormula_towering : ∃ text deep,
    towering.expandedFormula "whole" ["half"] = .ok (some text) ∧
    Tree.parse text = .ok (halfDeep "half") ∧
    towering.expandedFormula "whole" [] = .ok (some deep) ∧
    Tree.parse deep = .error (.tooDeep maxNesting) := by
  obtain ⟨hstops, hdeep⟩ := expandedFormula_towering
  have hreaches : Reaches (fun _ _ => True) (overNothing .initial) towering :=
    Reaches.refl.performAll toweringCalls fun _ _ _ => trivial
  refine ⟨_, _, hstops, ?_, hdeep, ?_⟩
  · obtain ⟨t, u, ht, hu, -, hread, -⟩ := parse_expandedFormula create_initial hreaches hstops
    obtain rfl := Option.some.inj (Except.ok.inj (ht.symm.trans formulaTree?_towering.1))
    obtain rfl := Except.ok.inj (hu.symm.trans expand_towering.1)
    have hdepth : (halfDeep "half").depth = 257 := depth_wrapped _ 256
    exact (hread (by rw [hdepth]; decide)).1
  · obtain ⟨t, u, ht, hu, -, -, hrefused⟩ := parse_expandedFormula create_initial hreaches hdeep
    obtain rfl := Option.some.inj (Except.ok.inj (ht.symm.trans formulaTree?_towering.1))
    obtain rfl := Except.ok.inj (hu.symm.trans expand_towering.2)
    exact hrefused (by rw [depth_wrapped]; decide)

/-- **Not every text of an expanded formula is read back.** -/
theorem parse_expandedFormula_ne : ¬ ∀ e : Engine, e.Reachable → ∀ name stop text,
    e.expandedFormula name stop = .ok (some text) → ∃ t u v, e.formulaTree? name = .ok (some t) ∧
      e.expand stop t = .ok u ∧ Tree.parse text = .ok v ∧ v.same u = true := by
  intro hall
  obtain ⟨-, -, v, -, -, hv, -⟩ := hall towering reachable_towering "whole" [] _
    expandedFormula_towering.2
  have hdepth : ¬ (wrapped (list [symbol "series", str "a"]) 512).depth ≤ maxNesting := by
    rw [depth_wrapped]
    decide
  rw [parse_text_eq (isWritten_wrapped (isWritten_reference "a") 512).isReadable, if_neg hdepth] at hv
  cases hv

end Engine

end SeriesAlgebra
