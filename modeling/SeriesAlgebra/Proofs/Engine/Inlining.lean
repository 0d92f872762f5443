import SeriesAlgebra.Proofs.Engine.Plain
import SeriesAlgebra.Proofs.Evaluation.Carrying
import SeriesAlgebra.Proofs.Formula.Expansion

/-!
# Inlined formulas

A formula is read by evaluating the formulas it refers to where they stand, while
histories, insertion dates and staircases work on the formula in which all others are
inlined. The two need not mean the same: a nested formula drops the options of its
value at the reference, and an inlined one hands them on (`Engine.read_ne_expanded`). If
no formula that is referred to carries options, both give the same points
(`Engine.read_eq_expanded`).
-/

namespace SeriesAlgebra

open Evaluation Reading Value Series

namespace Engine

open SeriesAlgebra.Tree

/-- Whether the formula of a name refers to a series. -/
def RefersTo (e : Engine) (name other : String) : Prop :=
  ∃ t, e.formulaTree? name = .ok (some t) ∧ other ∈ t.seriesReferences e.registry

/-- Whether no formula that a formula leads to carries options. -/
def HasPlainReferences (e : Engine) (t : Tree) : Prop :=
  ∀ name ∈ t.seriesReferences e.registry, ∀ other, Relation.ReflTransGen e.RefersTo name other →
    ∀ u, e.formulaTree? other = .ok (some u) → ¬ u.CarriesOptions

variable {e : Engine}

theorem HasPlainReferences.not_carries {t : Tree} (h : e.HasPlainReferences t) {name : String}
    (hname : name ∈ t.seriesReferences e.registry) {u : Tree}
    (hu : e.formulaTree? name = .ok (some u)) : ¬ u.CarriesOptions :=
  h name hname name .refl u hu

theorem HasPlainReferences.below {t : Tree} (h : e.HasPlainReferences t) {name : String}
    (hname : name ∈ t.seriesReferences e.registry) {u : Tree}
    (hu : e.formulaTree? name = .ok (some u)) : e.HasPlainReferences u :=
  fun _ hother _ hreaches => h name hname _ (.head ⟨u, hu, hother⟩ hreaches)

/-! ### Inlined leaves -/

/-- The keywords of a leaf are what it carries. -/
theorem scalarKeywords_leaf {items : List Tree} {name : String} (h : leafName? items = some name) :
    scalarKeywords items.tail = scalarKeywords (items.drop 2) := by
  conv_lhs => rw [leaf_eq h]
  rw [List.tail_cons, scalarKeywords, evaluateKeywords_positional silent rfl]
  rfl

theorem convert_ok {α : Type} {v : Option Value} {f g : Value → Except EngineError α}
    (hfg : ∀ v a, f v = .ok a → g v = .ok a) {a : Option α}
    (h : SeriesOptions.convert v f = .ok a) : SeriesOptions.convert v g = .ok a := by
  cases v with
  | none => exact h
  | some v =>
    obtain ⟨b, hb, rfl⟩ := Result.map_ok h
    rw [SeriesOptions.convert, hfg v b hb]
    rfl

theorem asFloat_ok {operator operator' : String} {v : Value} {x : Float}
    (h : v.asFloat operator = .ok x) : v.asFloat operator' = .ok x := by
  cases v <;> first | exact h | cases h

theorem asInt_ok {operator operator' : String} {v : Value} {n : Int64}
    (h : v.asInt operator = .ok n) : v.asInt operator' = .ok n := by
  cases v with
  | int m => exact h
  | number x =>
    rw [Value.asInt] at h ⊢
    split at h
    · rename_i hwhole
      rw [if_pos hwhole]
      exact h
    · cases h
  | _ => cases h

/-- Options are set alike by all operators that set them. -/
theorem update_ok {o o' : SeriesOptions} {operator operator' : String}
    {m : OrderedMap String Value} (h : o.update operator m = .ok o') :
    o.update operator' m = .ok o' := by
  obtain ⟨fill, hfill, h⟩ := Result.bind_ok h
  obtain ⟨prune, hprune, h⟩ := Result.bind_ok h
  obtain ⟨weight, hweight, h⟩ := Result.bind_ok h
  have hfill' : SeriesOptions.convert (m.find? "fill") (SeriesOptions.fillOf operator') = .ok fill := by
    refine convert_ok (fun v policy hv => ?_) hfill
    cases v with
    | str text => exact hv
    | int n => exact hv
    | number x => exact hv
    | _ => cases hv
  have hprune' :
      SeriesOptions.convert (m.find? "prune") (SeriesOptions.pruneOf operator') = .ok prune := by
    refine convert_ok (fun v count hv => ?_) hprune
    obtain ⟨n, hn, hv⟩ := Result.bind_ok hv
    rw [SeriesOptions.pruneOf, asInt_ok hn]
    change (if n.toInt < 0 then _ else _) = _ at hv
    change (if n.toInt < 0 then _ else _) = _
    split at hv
    · cases hv
    · rename_i hcount
      rw [if_neg hcount]
      exact hv
  have hweight' :
      SeriesOptions.convert (m.find? "weight") (·.asFloat operator') = .ok weight :=
    convert_ok (fun _ _ => asFloat_ok) hweight
  rw [SeriesOptions.update, hfill', hprune', hweight']
  exact h

/-- An inlined leaf means what the leaf means, where the formula has a value without options. -/
theorem agree_withCarried {σ τ : Type} {A : Resolver σ} {B : Resolver τ} {items : List Tree}
    {name : String} (h : IsNamed items name) {body : Tree} (hbody : body.literal? = none)
    {q : Query}
    (hagree : (Comparison.agree σ τ).Holds (fun s v => s.options = .unset ∧
      Related Similar (.series s) v) (A.series name q) fun _ => evaluate .builtin B body q) :
    (Comparison.agree σ τ).Holds (Related Similar) (evaluate .builtin A (list items) q)
      fun _ => evaluate .builtin B (withCarried items body) q := by
  intro m v m' n w n' hv hw
  rw [evaluate_series A h.calls h.scalar h.name] at hv
  obtain ⟨o, _, ho, hv⟩ := gives_bind.1 hv
  obtain ⟨s, _, hs, hv⟩ := gives_bind.1 hv
  obtain ⟨rfl, -⟩ := gives_pure.1 hv
  obtain ⟨hoptions, rfl⟩ := gives_settle.1 ho
  cases hcarried : items.drop 2 with
  | nil =>
    rw [withCarried, hcarried] at hw
    obtain ⟨hunset, hsimilar⟩ := hagree _ s _ n w n' hs hw
    have hnames : keywordNames items.tail = [] := by
      rw [leaf_eq h.name, hcarried]
      rfl
    have heq : s.withOptions o = s := by
      rw [unset_of_leafOptions hnames hoptions, ← hunset]
      rfl
    rw [heq]
    exact hsimilar
  | cons c cs =>
    rw [withCarried, hcarried] at hw
    have hscalar : ∀ t ∈ c :: cs, t.IsScalar := by
      intro t ht
      refine h.scalar t ?_
      rw [leaf_eq h.name, hcarried]
      exact List.mem_cons_of_mem _ ht
    have hlist : body.keywordName? = none := by
      rw [Tree.keywordName?, hbody]
      rfl
    change Gives (evaluate .builtin B (list (symbol optionsOperator :: body :: c :: cs)) q) n w n' at hw
    have hcalls : Calls (symbol optionsOperator :: body :: c :: cs) .options := rfl
    rw [evaluate_call B hcalls rfl] at hw
    obtain ⟨_, _, -, hw⟩ := gives_bind.1 hw
    obtain ⟨keywords, _, hkeywords, hw⟩ := gives_bind.1 hw
    obtain ⟨q', _, hq', hw⟩ := gives_bind.1 hw
    obtain ⟨vs, _, hvs, hw⟩ := gives_bind.1 hw
    obtain ⟨entries, _, hentries, hkeywords⟩ := gives_bind.1 hkeywords
    obtain ⟨rfl, -⟩ := gives_pure.1 hkeywords
    rw [List.tail_cons, evaluateKeywords_positional B hlist,
      evaluateKeywords_scalar B hscalar] at hentries
    obtain ⟨hentries, -⟩ := gives_settle.1 hentries
    obtain ⟨hq', -⟩ := gives_settle.1 hq'
    obtain rfl : q = q' := Except.ok.inj hq'
    rw [List.tail_cons, evaluatePositional_positional B hlist] at hvs
    obtain ⟨x, _, hx, hvs⟩ := gives_bind.1 hvs
    obtain ⟨xs, _, -, hvs⟩ := gives_bind.1 hvs
    obtain ⟨rfl, -⟩ := gives_pure.1 hvs
    obtain ⟨happly, -⟩ := gives_settle.1 hw
    obtain ⟨hunset, hsimilar⟩ := hagree _ s _ _ x _ hs hx
    obtain ⟨_, -, hoptions⟩ := Result.bind_ok hoptions
    rw [scalarKeywords_leaf h.name, hcarried, hentries] at hoptions
    cases hsimilar with
    | @series _ r hr =>
      change (do
        let o ← r.options.update Builtin.options.name (.ofList entries)
        return Value.series (r.withOptions o)) = .ok w at happly
      rw [← hr.options, hunset, update_ok hoptions] at happly
      obtain rfl := Except.ok.inj happly
      exact .series (hr.withOptions o)

/-! ### Inlined formulas -/

/-- What the plain reader gives for a formula is the value of the formula. -/
theorem exists_of_plainReader (he : e.Consistent) {m : Nat} {name : String} {t : Tree}
    (ht : e.formulaTree? name = .ok (some t)) {q : Query} {s : Series}
    (h : Gives ((e.plainReader m).series name q) () s ()) :
    ∃ l r, m = l + 1 ∧ Gives (evaluate .builtin (e.plainReader l) t q) () (.series r) () ∧
      s = r.withName name := by
  cases m with
  | zero =>
    rw [plainReader_series_zero] at h
    obtain ⟨below, _, _, hbelow, -⟩ := (gives_readSeries_formula ht).1 h
    cases hbelow
  | succ l =>
    rw [plainReader_series_succ] at h
    obtain ⟨below, _, r, hbelow, hv, rfl, rfl⟩ := (gives_readSeries_formula ht).1 h
    obtain rfl := Except.ok.inj hbelow
    rw [he.registry] at hv
    exact ⟨l, r, rfl, hv, rfl⟩

/-- **A formula and its expansion have similar values**, if what it leads to carries no options. -/
theorem agree_inlined (he : e.Consistent) {limit levels : Nat} {path : List String} {t u : Tree}
    (ht : t.Everywhere IsFormulaNode) (hplain : e.HasPlainReferences t)
    (h : expandBelow e.formulaTree? [] limit levels path t = .ok u) (m n : Nat) (q : Query) :
    (Comparison.agree Unit Unit).Holds (Related Similar) (evaluate .builtin (e.plainReader m) t q)
      fun _ => evaluate .builtin (e.plainReader n) u q := by
  induction levels using Nat.strong_induction_on generalizing path t u m n q with
  | _ levels ih =>
    rw [expandBelow_eq] at h
    let L (items : List Tree) (v : Tree) : Prop :=
      list items ∈ t.nodes ∧ IsImage (leafExpansion e.formulaTree? limit levels path) items v
    have hL : Corresponds L Stands t u := corresponds_mapLeaves ht h
      (fun _ _ _ hv => isList_expandLeafBelow he.isList hv) fun items v hmem hv => ⟨hmem, hv⟩
    refine (Compares.similar (L := L) fun {items v q} hv => ?_).evaluate hL q q rfl
    obtain ⟨hmem, himage⟩ := hv
    cases himage with
    | nameless hcalls hname others =>
      exact Comparison.holds_nameless _ hcalls hname _
    | constant hcalls hscalar =>
      exact Comparison.holds_constant _ hcalls hscalar (plainReader_autotrophic m)
        fun _ => plainReader_autotrophic n
    | @named name hnamed _ hexpand =>
      have hreference : name ∈ t.seriesReferences e.registry := by
        rw [he.registry]
        exact (mem_sortedSet).2 (mem_references ht hmem hnamed.name)
      rcases leafExpansion_ok hexpand with ⟨hnone, rfl⟩ | ⟨below, t', body, hlevels, ht', hbody, rfl⟩
      · refine Comparison.holds_series _ hnamed.calls hnamed.scalar hnamed.name hnamed.calls
          hnamed.scalar hnamed.name rfl ?_
        simp only [plainReader_primary hnone]
        refine Comparison.agree_settle fun a b ha hb o _ => ?_
        obtain rfl := Except.ok.inj (ha.symm.trans hb)
        exact .series (Series.Similar.refl _)
      · refine agree_withCarried hnamed ?_ fun _ s _ _ w _ hs hw => ?_
        · exact isList_expandBelow he.isList (he.isList name t' ht') hbody
        · obtain ⟨l, r, rfl, hr, rfl⟩ := exists_of_plainReader he ht' hs
          have hkept := he.isKept ht'
          have hcarries := hplain.not_carries hreference ht'
          have hunset : r.options = .unset :=
            unset_of_gives (plainReader_autotrophic l) hkept.formula.nodes hcarries ⟨_, _, hr⟩
          refine ⟨hunset, ?_⟩
          have hvalue := ih below (by omega) hkept.formula.nodes (hplain.below hreference ht') hbody
            l n q _ _ _ _ _ _ hr hw
          cases hvalue with
          | series hr => exact .series ⟨hr.points, hr.options⟩

/-- What is read of a formula is a value of it. -/
theorem exists_of_read (he : e.Consistent) {name : String} {t : Tree}
    (ht : e.formulaTree? name = .ok (some t)) {q : Query} {s : Series}
    (h : e.read name q = .ok (some s)) :
    ∃ m r, s.points = r.points ∧
      Gives (evaluate .builtin (e.plainReader m) t q) () (.series r) () := by
  obtain ⟨s', hsimilar, k, hk⟩ := reads_of_read he h
  obtain ⟨l, r, -, hr, rfl⟩ := exists_of_plainReader he ht (hk k le_rfl)
  exact ⟨l, r, hsimilar.points, hr⟩

/-- **A formula is read as its expansion is evaluated**, if nothing that it leads to carries
options. -/
theorem read_eq_expanded (he : e.Reachable) {name : String} {t u : Tree}
    (ht : e.formulaTree? name = .ok (some t)) (hu : e.expand [] t = .ok u)
    (hplain : e.HasPlainReferences t) {q : Query} {s : Series} {v : Value}
    (hread : e.read name q = .ok (some s))
    (hvalue : answerOf (evaluate e.registry e.reader u q) = .ok v) :
    ∃ r, v = .series r ∧ s.samePoints r = true := by
  have he := he.consistent
  have hkept := he.isKept ht
  have hexpand := Result.mapError_ok hu
  have hformula := (everywhere_expandBelow (K := fun _ => True) he.isFormula
    (fun _ _ _ _ _ _ => trivial) hkept.formula.nodes (fun _ _ _ => trivial) hexpand).mono
    fun _ h => h.formula
  obtain ⟨m, r, hpoints, hr⟩ := exists_of_read he ht hread
  obtain ⟨w, hvw, n, hw⟩ := means_of_evaluate he hformula hvalue
  have hsimilar := agree_inlined he hkept.formula.nodes hplain hexpand m n q _ _ _ _ _ _ hr
    (hw n le_rfl)
  cases hsimilar with
  | @series _ r' hr' =>
    cases hvw with
    | @series r'' _ hr'' =>
      exact ⟨r'', rfl, samePoints_of_eq (hpoints.trans (hr'.points.trans hr''.points.symm))⟩

/-! ### Nested options -/

/-- An engine with two stored series, and a sum in which a formula is nested. -/
def nesting (inner : String) : Engine :=
  let e := overNothing .initial
  let e := (e.updateSeries "a" (.ofPoints "a" [(dayOf2024 0, 1.0), (dayOf2024 1, 2.0)])
    (dayOf2024 0) false).engine
  let e := (e.updateSeries "b" (.ofPoints "b" [(dayOf2024 1, 10.0), (dayOf2024 2, 20.0)])
    (dayOf2024 0) false).engine
  let e := (e.registerFormula "inner" inner ⟨none, false⟩).engine
  (e.registerFormula "outer" "(add (series \"inner\") (series \"b\"))" ⟨none, false⟩).engine

theorem reachable_nesting (inner : String) : (nesting inner).Reachable :=
  .registerFormula (.registerFormula (.updateSeries (.updateSeries (reachable_overNothing rfl)
    _ _ _ _) _ _ _ _) _ _ _) _ _ _

/-- The sum of two series. -/
def sumOf (left : Tree) : Tree := list [symbol "add", left, list [symbol "series", str "b"]]

/-- A series without keywords carries no options, and arithmetic on it adds none. -/
theorem not_carries_succ (name : String) :
    ¬ (list [symbol "+", atom (.int 1), list [symbol "series", str name]]).CarriesOptions := by
  have hplus : Calls [symbol "+", atom (.int 1), list [symbol "series", str name]] .plus := rfl
  have hseries : Calls [symbol "series", str name] .series := rfl
  have hleaf : ¬ (list [symbol "series", str name]).CarriesOptions := by
    rintro (⟨-, -, hkeyword⟩ | ⟨hb, hkeep, -, -⟩ | ⟨hb, hscale, -, -, -, -⟩)
    · exact hkeyword rfl
    · obtain rfl := hb.unique hseries
      exact absurd hkeep (by decide)
    · obtain rfl := hb.unique hseries
      cases hscale
  rintro (⟨hb, hset, -⟩ | ⟨hb, hkeep, -, -⟩ | ⟨hb, -, ht, h, -, -⟩)
  · obtain rfl := hb.unique hplus
    exact absurd hset (by decide)
  · obtain rfl := hb.unique hplus
    exact absurd hkeep (by decide)
  · rcases List.mem_cons.1 ht with rfl | ht
    · cases h
    · obtain rfl := List.mem_singleton.1 ht
      exact hleaf h

/-- The expansion means the same where the nested formula carries no options. -/
theorem read_nested_eq_expanded : ∃ s r,
    (nesting "(+ 1 (series \"a\"))").read "outer" .latest = .ok (some s) ∧
    answerOf (evaluate (nesting "(+ 1 (series \"a\"))").registry
      (nesting "(+ 1 (series \"a\"))").reader
      (sumOf (list [symbol "+", atom (.int 1), list [symbol "series", str "a"]])) .latest) =
        .ok (.series r) ∧ s.samePoints r = true := by
  have hinner : (nesting "(+ 1 (series \"a\"))").formulaTree? "inner" =
      .ok (some (list [symbol "+", atom (.int 1), list [symbol "series", str "a"]])) :=
    Result.ok_of_toOption (by decide +kernel)
  have houter : (nesting "(+ 1 (series \"a\"))").formulaTree? "outer" =
      .ok (some (sumOf (list [symbol "series", str "inner"]))) :=
    Result.ok_of_toOption (by decide +kernel)
  have hstored (name : String) (h : name = "a" ∨ name = "b") :
      (nesting "(+ 1 (series \"a\"))").formulaTree? name = .ok none := by
    rcases h with rfl | rfl <;> exact Result.ok_of_toOption (by decide +kernel)
  have hreferences : (sumOf (list [symbol "series", str "inner"])).seriesReferences
      (nesting "(+ 1 (series \"a\"))").registry = ["b", "inner"] := by decide +kernel
  have hnested : (list [symbol "+", atom (.int 1), list [symbol "series", str "a"]]).seriesReferences
      (nesting "(+ 1 (series \"a\"))").registry = ["a"] := by decide +kernel
  obtain ⟨s, hs⟩ := Result.exists_ok_some
    (x := (nesting "(+ 1 (series \"a\"))").read "outer" .latest) (by decide +kernel)
  obtain ⟨v, hv⟩ := Result.exists_ok (x := answerOf (evaluate
    (nesting "(+ 1 (series \"a\"))").registry (nesting "(+ 1 (series \"a\"))").reader
    (sumOf (list [symbol "+", atom (.int 1), list [symbol "series", str "a"]])) .latest))
    (by decide +kernel)
  have hplain : (nesting "(+ 1 (series \"a\"))").HasPlainReferences
      (sumOf (list [symbol "series", str "inner"])) := by
    intro name hname other hreaches u hu
    rw [hreferences] at hname
    -- Only the two stored series and the inner formula are reached.
    have hreached : other = "a" ∨ other = "b" ∨ other = "inner" := by
      clear hu
      induction hreaches with
      | refl =>
        rcases List.mem_cons.1 hname with rfl | hname
        · exact Or.inr (Or.inl rfl)
        · exact Or.inr (Or.inr (List.mem_singleton.1 hname))
      | @tail middle last _ hrefers ih =>
        obtain ⟨t, ht, hmem⟩ := hrefers
        rcases ih with rfl | rfl | rfl
        · cases (hstored "a" (Or.inl rfl)).symm.trans ht
        · cases (hstored "b" (Or.inr rfl)).symm.trans ht
        · obtain rfl := Option.some.inj (Except.ok.inj (hinner.symm.trans ht))
          rw [hnested] at hmem
          exact Or.inl (List.mem_singleton.1 hmem)
    rcases hreached with rfl | rfl | rfl
    · cases (hstored "a" (Or.inl rfl)).symm.trans hu
    · cases (hstored "b" (Or.inr rfl)).symm.trans hu
    · obtain rfl := Option.some.inj (Except.ok.inj (hinner.symm.trans hu))
      exact not_carries_succ "a"
  obtain ⟨r, rfl, hsame⟩ := read_eq_expanded (reachable_nesting _) houter
    (Result.ok_of_toOption (by decide +kernel)) hplain hs hv
  exact ⟨s, r, hs, hv, hsame⟩

/-- **A nested formula that carries options is not read as its expansion is evaluated**: there the
options reach the sum around it. -/
theorem read_ne_expanded : ¬ ∀ e : Engine, e.Reachable → ∀ name t u q s v,
    e.formulaTree? name = .ok (some t) → e.expand [] t = .ok u → e.read name q = .ok (some s) →
    answerOf (evaluate e.registry e.reader u q) = .ok v →
    ∃ r, v = .series r ∧ s.samePoints r = true := by
  intro h
  have houter : (nesting "(series \"a\" #:fill 0)").formulaTree? "outer" =
      .ok (some (sumOf (list [symbol "series", str "inner"]))) :=
    Result.ok_of_toOption (by decide +kernel)
  have hexpanded : (nesting "(series \"a\" #:fill 0)").expand []
      (sumOf (list [symbol "series", str "inner"])) =
      .ok (sumOf (list [symbol "series", str "a", symbol "#:fill", atom (.int 0)])) :=
    Result.ok_of_toOption (by decide +kernel)
  obtain ⟨s, hs⟩ := Result.exists_ok_some
    (x := (nesting "(series \"a\" #:fill 0)").read "outer" .latest) (by decide +kernel)
  obtain ⟨v, hv⟩ := Result.exists_ok (x := answerOf (evaluate
    (nesting "(series \"a\" #:fill 0)").registry (nesting "(series \"a\" #:fill 0)").reader
    (sumOf (list [symbol "series", str "a", symbol "#:fill", atom (.int 0)])) .latest))
    (by decide +kernel)
  obtain ⟨r, rfl, hsame⟩ := h _ (reachable_nesting _) "outer" _ _ .latest s v houter hexpanded hs hv
  have hdiffer : agreeWherever ((nesting "(series \"a\" #:fill 0)").read "outer" .latest)
      (answerOf (evaluate (nesting "(series \"a\" #:fill 0)").registry
        (nesting "(series \"a\" #:fill 0)").reader
        (sumOf (list [symbol "series", str "a", symbol "#:fill", atom (.int 0)])) .latest)) =
      false := by decide +kernel
  rw [hs, hv] at hdiffer
  exact Bool.false_ne_true (hdiffer.symm.trans hsame)

end Engine

end SeriesAlgebra
