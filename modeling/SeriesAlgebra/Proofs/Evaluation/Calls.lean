import SeriesAlgebra.Evaluation.Interpreter
import SeriesAlgebra.Formula.Expansion
import SeriesAlgebra.Proofs.Formula.Shape

/-!
# Evaluating calls

What an evaluation gives (`Reading.Gives`), and what the evaluation of a call is, by the
kind of its operator. A scalar has the same value for all resolvers and queries
(`Evaluation.evaluate_scalar`). So a series leaf is its options and one question to the
resolver (`Evaluation.evaluate_series`), a constant call is known but for an answer of
the resolver (`Evaluation.evaluate_constant`), and any other call evaluates its
keywords, then its other arguments, and applies its operator
(`Evaluation.evaluate_call`).
-/

namespace SeriesAlgebra

variable {σ τ α β : Type}

/-! ### Readings -/

namespace Reading

/-- Whether a reading gives a value and a state. -/
def Gives (x : Reading σ α) (s : σ) (a : α) (s' : σ) : Prop := x.run s = (.ok a, s')

@[simp] theorem gives_pure {a b : α} {s s' : σ} :
    Gives (pure a : Reading σ α) s b s' ↔ a = b ∧ s = s' := by
  constructor
  · intro h
    obtain ⟨ha, hs⟩ := Prod.mk.inj h
    exact ⟨Except.ok.inj ha, hs⟩
  · rintro ⟨rfl, rfl⟩
    rfl

@[simp] theorem gives_throw {e : EngineError} {s s' : σ} {a : α} :
    Gives (throw e : Reading σ α) s a s' ↔ False := by
  refine ⟨fun h => ?_, False.elim⟩
  cases (Prod.mk.inj h).1

@[simp] theorem gives_get {a s s' : σ} : Gives (get : Reading σ σ) s a s' ↔ s = a ∧ s = s' := by
  constructor
  · intro h
    obtain ⟨ha, hs⟩ := Prod.mk.inj h
    exact ⟨Except.ok.inj ha, hs⟩
  · rintro ⟨rfl, rfl⟩
    rfl

@[simp] theorem gives_modify {f : σ → σ} {s s' : σ} {u : Unit} :
    Gives (modify f : Reading σ Unit) s u s' ↔ f s = s' :=
  ⟨fun h => (Prod.mk.inj h).2, fun h => h ▸ rfl⟩

/-- What is read after something else is read from the state that it leaves. -/
theorem run_bind (x : Reading σ α) (f : α → Reading σ β) (s : σ) :
    (x >>= f).run s = match x.run s with
      | (.ok a, s') => (f a).run s'
      | (.error e, s') => (.error e, s') := by
  change (ExceptT.bind x f).run s = _
  rw [ExceptT.bind, ExceptT.run_mk]
  change (do let r ← x.run; ExceptT.bindCont f r : StateM σ (Except EngineError β)) s = _
  change (match x.run s with | (r, s') => ExceptT.bindCont f r s') = _
  rcases x.run s with ⟨_ | a, s'⟩ <;> rfl

theorem gives_bind {x : Reading σ α} {f : α → Reading σ β} {s s'' : σ} {b : β} :
    Gives (x >>= f) s b s'' ↔ ∃ a s', Gives x s a s' ∧ Gives (f a) s' b s'' := by
  unfold Gives
  rw [run_bind]
  rcases x.run s with ⟨e | a, s'⟩
  · constructor
    · intro h
      cases (Prod.mk.inj h).1
    · rintro ⟨a, t, h, -⟩
      cases (Prod.mk.inj h).1
  · constructor
    · intro h
      exact ⟨a, s', rfl, h⟩
    · rintro ⟨b, t, h, hf⟩
      obtain ⟨ha, rfl⟩ := Prod.mk.inj h
      obtain rfl := Except.ok.inj ha
      exact hf

/-- A reading gives one value and one state. -/
theorem Gives.unique {x : Reading σ α} {s s' s'' : σ} {a b : α} (ha : Gives x s a s')
    (hb : Gives x s b s'') : a = b ∧ s' = s'' := by
  obtain ⟨hab, hs⟩ := Prod.mk.inj (ha.symm.trans hb)
  exact ⟨Except.ok.inj hab, hs⟩

/-- Two readings are the same if they go on alike after whatever the first part gives. -/
theorem bind_congr_of_gives {x : Reading σ α} {f g : α → Reading σ β}
    (h : ∀ a s s', Gives x s a s' → f a = g a) : x >>= f = x >>= g := by
  funext s
  show (x >>= f).run s = (x >>= g).run s
  rw [run_bind, run_bind]
  cases hx : x.run s with
  | mk r s' =>
    cases r with
    | error e => rfl
    | ok a => exact congrArg (fun y => y.run s') (h a s s' hx)

/-- Two readings for all elements of a list are the same if they are for each of them. -/
theorem mapM_congr {f g : α → Reading σ β} {as : List α} (h : ∀ a ∈ as, f a = g a) :
    as.mapM f = as.mapM g := by
  induction as with
  | nil => rw [List.mapM_nil, List.mapM_nil]
  | cons a as ih =>
    rw [List.mapM_cons, List.mapM_cons, h a List.mem_cons_self,
      ih fun b hb => h b (List.mem_cons_of_mem _ hb)]

end Reading

namespace Evaluation

open Reading SeriesAlgebra.Tree

@[simp] theorem gives_settle {x : Except EngineError α} {s s' : σ} {a : α} :
    Gives (settle x : Reading σ α) s a s' ↔ x = .ok a ∧ s = s' := by
  cases x with
  | ok b =>
    rw [settle, gives_pure]
    exact and_congr_left fun _ => ⟨fun h => h ▸ rfl, Except.ok.inj⟩
  | error e =>
    rw [settle, gives_throw]
    exact ⟨False.elim, fun h => by cases h.1⟩

/-- What is read one by one for the elements of a list. -/
theorem forall₂_of_gives_mapM {f : α → Reading σ β} {as : List α} {bs : List β} {s s' : σ}
    (h : Gives (as.mapM f) s bs s') :
    List.Forall₂ (fun a b => ∃ t t', Gives (f a) t b t') as bs := by
  induction as generalizing bs s s' with
  | nil =>
    rw [List.mapM_nil] at h
    obtain ⟨rfl, -⟩ := gives_pure.1 h
    exact .nil
  | cons a as ih =>
    rw [List.mapM_cons] at h
    obtain ⟨b, t, hb, h⟩ := gives_bind.1 h
    obtain ⟨bs', _, hbs, h⟩ := gives_bind.1 h
    obtain ⟨rfl, -⟩ := gives_pure.1 h
    exact .cons ⟨s, t, hb⟩ (ih hbs)

/-- What is read one by one for the elements of a list, if each reading keeps an invariant. -/
theorem forall₂_of_gives_mapM_of {J : σ → Prop} {P : α → β → Prop} {f : α → Reading σ β}
    {as : List α} (hf : ∀ a ∈ as, ∀ s b s', J s → Gives (f a) s b s' → P a b ∧ J s') {bs : List β}
    {s s' : σ} (hs : J s) (h : Gives (as.mapM f) s bs s') : List.Forall₂ P as bs ∧ J s' := by
  induction as generalizing bs s s' with
  | nil =>
    rw [List.mapM_nil] at h
    obtain ⟨rfl, rfl⟩ := gives_pure.1 h
    exact ⟨.nil, hs⟩
  | cons a as ih =>
    rw [List.mapM_cons] at h
    obtain ⟨b, t, hb, h⟩ := gives_bind.1 h
    obtain ⟨bs', t', hbs, h⟩ := gives_bind.1 h
    obtain ⟨rfl, rfl⟩ := gives_pure.1 h
    obtain ⟨hab, ht⟩ := hf a List.mem_cons_self _ _ _ hs hb
    obtain ⟨hall, ht'⟩ := ih (fun a ha => hf a (List.mem_cons_of_mem _ ha)) ht hbs
    exact ⟨.cons hab hall, ht'⟩

theorem settle_bind (x : Except EngineError α) (f : α → Except EngineError β) :
    (settle (x >>= f) : Reading σ β) = settle x >>= fun a => settle (f a) := by
  cases x <;> rfl

theorem settle_pure (a : α) : (settle (pure a) : Reading σ α) = pure a := rfl

/-! ### Arguments -/

/-- The check of a call before its arguments are evaluated. -/
def checked (t : Tree) : Except EngineError Unit :=
  match t.callArgs with
  | .ok _ => .ok ()
  | .error e => .error (.tree e)

theorem checkCall_eq (t : Tree) : (checkCall t : Reading σ Unit) = settle (checked t) := by
  unfold checkCall checked
  cases t.callArgs <;> rfl

variable {registry : Registry} (A : Resolver σ)

theorem evaluateKeywords_keyword {a b : Tree} {name : String} (h : a.keywordName? = some name)
    (rest : List Tree) (q : Query) :
    evaluateKeywords registry A (a :: b :: rest) q = (do
      let v ← evaluate registry A b q
      return (name, v) :: (← evaluateKeywords registry A rest q)) := by
  rw [evaluateKeywords, h]

theorem evaluateKeywords_positional {a : Tree} (h : a.keywordName? = none) (rest : List Tree)
    (q : Query) :
    evaluateKeywords registry A (a :: rest) q = evaluateKeywords registry A rest q := by
  cases rest with
  | nil => rw [evaluateKeywords, evaluateKeywords]
  | cons b rest => rw [evaluateKeywords, h]

theorem evaluatePositional_keyword {a b : Tree} {name : String} (h : a.keywordName? = some name)
    (rest : List Tree) (q : Query) :
    evaluatePositional registry A (a :: b :: rest) q = evaluatePositional registry A rest q := by
  rw [evaluatePositional, h]

theorem evaluatePositional_positional {a : Tree} (h : a.keywordName? = none) (rest : List Tree)
    (q : Query) :
    evaluatePositional registry A (a :: rest) q = (do
      let v ← evaluate registry A a q
      return v :: (← evaluatePositional registry A rest q)) := by
  cases rest with
  | nil =>
    rw [evaluatePositional, evaluatePositional, h]
    rfl
  | cons b rest => rw [evaluatePositional, h]

/-- Induction along the arguments of a call: keywords go with their values. -/
theorem args_induct {P : List Tree → Prop} (nil : P [])
    (dangling : ∀ a name, a.keywordName? = some name → P [a])
    (keyword : ∀ a b rest name, a.keywordName? = some name → P rest → P (a :: b :: rest))
    (positional : ∀ a rest, a.keywordName? = none → P rest → P (a :: rest)) :
    ∀ args, P args
  | [] => nil
  | [a] =>
    match h : a.keywordName? with
    | some name => dangling a name h
    | none => positional a [] h nil
  | a :: b :: rest =>
    match h : a.keywordName? with
    | some name => keyword a b rest name h (args_induct nil dangling keyword positional rest)
    | none =>
      positional a (b :: rest) h (args_induct nil dangling keyword positional (b :: rest))

/-! ### Calls -/

/-- Whether the operator of a call is applied to the values of its arguments. -/
def isApplied : Builtin → Bool
  | .series | .group | .constant => false
  | _ => true

theorem list_of_calls {items : List Tree} {b : Builtin} (h : Calls items b) :
    ∃ args, items = symbol b.name :: args := by
  cases items with
  | nil => cases h
  | cons head args => exact ⟨args, by rw [head_of_headSymbol? h]⟩

/-- **A call whose operator is applied.** -/
theorem evaluate_call {items : List Tree} {b : Builtin} (h : Calls items b)
    (happlied : isApplied b = true) (q : Query) :
    evaluate .builtin A (list items) q = (do
      settle (checked (list items))
      let keywords ← OrderedMap.ofList <$> evaluateKeywords .builtin A items.tail q
      let positional ← evaluatePositional .builtin A items.tail
        (← settle (b.childQuery keywords q))
      settle (b.apply ⟨positional, keywords⟩ q)) := by
  obtain ⟨args, rfl⟩ := list_of_calls h
  rw [evaluate, h.operatorOf?]
  simp only [checkCall_eq]
  cases b <;> first | rfl | cases happlied

/-- The question of a series leaf to the resolver comes after its keywords. -/
theorem evaluate_leaf {items : List Tree} (h : Calls items .series) {name : String}
    (hname : leafName? items = some name) (q : Query) :
    evaluate .builtin A (list items) q = (do
      settle (checked (list items))
      let keywords ← evaluateKeywords .builtin A items.tail q
      readSeries A name (.ofList keywords) q) := by
  obtain ⟨args, rfl⟩ := list_of_calls h
  rw [evaluate, h.operatorOf?]
  have hseries : (list (symbol Builtin.series.name :: args)).seriesName? = some name := hname
  simp only [checkCall_eq, hseries]
  rfl

/-- A series leaf must have a name. -/
theorem evaluate_nameless {items : List Tree} (h : Calls items .series)
    (hname : leafName? items = none) (q : Query) :
    evaluate .builtin A (list items) q =
      throw (.invalidArgument Builtin.series.name .noSeriesName) := by
  obtain ⟨args, rfl⟩ := list_of_calls h
  rw [evaluate, h.operatorOf?]
  have hseries : (list (symbol Builtin.series.name :: args)).seriesName? = none := hname
  simp only [hseries]
  rfl

/-- A constant call is what the resolver answers, or else what it is itself. -/
theorem evaluate_autotrophic {items : List Tree} (h : Calls items .constant) (q : Query) :
    evaluate .builtin A (list items) q = (do
      match ← A.autotrophic (list items) q with
      | some v => pure v
      | none =>
        settle (checked (list items))
        let keywords ← OrderedMap.ofList <$> evaluateKeywords .builtin A items.tail q
        let positional ← evaluatePositional .builtin A items.tail q
        settle (Builtin.constant.apply ⟨positional, keywords⟩ q)) := by
  obtain ⟨args, rfl⟩ := list_of_calls h
  rw [evaluate, h.operatorOf?]
  simp only [checkCall_eq]
  refine congrArg (A.autotrophic _ q >>= ·) (funext fun known => ?_)
  cases known <;> rfl

/-! ### Scalars -/

/-- The resolver that knows nothing. -/
def silent : Resolver Unit where
  series name _ := throw (.unknownName name)
  group name _ := throw (.unknownGroup name)
  autotrophic := Resolver.noAutotrophic

/-- The answer of a reading without a state. -/
def outcome (x : Reading Unit α) : Except EngineError α := (x.run ()).1

theorem outcome_settle (x : Except EngineError α) : outcome (settle x) = x := by
  cases x <;> rfl

theorem gives_of_outcome {x : Reading Unit α} {a : α} (h : outcome x = .ok a) : Gives x () a () :=
  Prod.ext h rfl

/-- The value of a scalar. -/
def scalarValue (t : Tree) : Except EngineError Value := outcome (evaluate .builtin silent t .latest)

/-- The keywords of a call whose arguments are scalars. -/
def scalarKeywords (args : List Tree) : Except EngineError (List (String × Value)) :=
  outcome (evaluateKeywords .builtin silent args .latest)

/-- The values of the other arguments of a call whose arguments are scalars. -/
def scalarPositional (args : List Tree) : Except EngineError (List Value) :=
  outcome (evaluatePositional .builtin silent args .latest)

/-- Whether the value of a tree depends on nothing. -/
def IsFixed (t : Tree) : Prop :=
  ∃ r, ∀ (σ : Type) (A : Resolver σ) (q : Query), evaluate .builtin A t q = settle r

theorem exists_keywords {args : List Tree} (h : ∀ a ∈ args, IsFixed a) :
    ∃ r, ∀ (σ : Type) (A : Resolver σ) (q : Query),
      evaluateKeywords .builtin A args q = settle r := by
  induction args using args_induct with
  | nil => exact ⟨.ok [], fun σ A q => by rw [evaluateKeywords]; rfl⟩
  | dangling a name ha => exact ⟨.ok [], fun σ A q => by rw [evaluateKeywords]; rfl⟩
  | keyword a b rest name ha ih =>
    obtain ⟨v, hv⟩ := h b (by simp)
    obtain ⟨vs, hvs⟩ := ih fun c hc => h c (by simp [hc])
    refine ⟨do let v ← v; return (name, v) :: (← vs), fun σ A q => ?_⟩
    rw [evaluateKeywords_keyword A ha, hv, hvs, settle_bind]
    simp only [settle_bind, settle_pure]
  | positional a rest ha ih =>
    obtain ⟨vs, hvs⟩ := ih fun c hc => h c (List.mem_cons_of_mem _ hc)
    exact ⟨vs, fun σ A q => by rw [evaluateKeywords_positional A ha, hvs]⟩

theorem exists_positional {args : List Tree} (h : ∀ a ∈ args, IsFixed a) :
    ∃ r, ∀ (σ : Type) (A : Resolver σ) (q : Query),
      evaluatePositional .builtin A args q = settle r := by
  induction args using args_induct with
  | nil => exact ⟨.ok [], fun σ A q => by rw [evaluatePositional]; rfl⟩
  | dangling a name ha => exact ⟨.ok [], fun σ A q => by rw [evaluatePositional, ha]; rfl⟩
  | keyword a b rest name ha ih =>
    obtain ⟨vs, hvs⟩ := ih fun c hc => h c (by simp [hc])
    exact ⟨vs, fun σ A q => by rw [evaluatePositional_keyword A ha, hvs]⟩
  | positional a rest ha ih =>
    obtain ⟨v, hv⟩ := h a List.mem_cons_self
    obtain ⟨vs, hvs⟩ := ih fun c hc => h c (List.mem_cons_of_mem _ hc)
    refine ⟨do let v ← v; return v :: (← vs), fun σ A q => ?_⟩
    rw [evaluatePositional_positional A ha, hv, hvs, settle_bind]
    simp only [settle_bind, settle_pure]

theorem isFixed_of_isScalar {t : Tree} (h : t.IsScalar) : IsFixed t := by
  induction t using inductionOn with
  | atom l => exact ⟨.ok (.ofLiteral l), fun σ A q => by rw [evaluate]; rfl⟩
  | list items ih =>
    obtain ⟨⟨b, hb, hscalar⟩, hitems⟩ := everywhere_list.1 h
    have hfixed (a : Tree) (ha : a ∈ items.tail) : IsFixed a :=
      ih a (List.mem_of_mem_tail ha) (hitems a (List.mem_of_mem_tail ha))
    obtain ⟨keywords, hkeywords⟩ := exists_keywords hfixed
    obtain ⟨positional, hpositional⟩ := exists_positional hfixed
    refine ⟨do
      checked (list items)
      let keywords ← keywords
      let positional ← positional
      b.apply ⟨positional, .ofList keywords⟩ .latest, fun σ A q => ?_⟩
    have happlied : isApplied b = true := by cases b <;> first | rfl | cases hscalar
    have hquery (keywords : OrderedMap String Value) : b.childQuery keywords q = .ok q := by
      cases b <;> first | rfl | cases hscalar
    have happly (args : Args) : b.apply args q = b.apply args .latest := by
      cases b <;> first | rfl | cases hscalar
    rw [evaluate_call A hb happlied]
    simp only [hkeywords, hquery, hpositional, happly, settle_bind]
    cases checked (list items) with
    | error e => rfl
    | ok _ => cases keywords <;> rfl

/-- **A scalar has one value**, whatever is asked and whoever answers. -/
theorem evaluate_scalar {t : Tree} (h : t.IsScalar) (q : Query) :
    evaluate .builtin A t q = settle (scalarValue t) := by
  obtain ⟨r, hr⟩ := isFixed_of_isScalar h
  rw [hr, scalarValue, hr, outcome_settle]

theorem evaluateKeywords_scalar {args : List Tree} (h : ∀ a ∈ args, a.IsScalar) (q : Query) :
    evaluateKeywords .builtin A args q = settle (scalarKeywords args) := by
  obtain ⟨r, hr⟩ := exists_keywords fun a ha => isFixed_of_isScalar (h a ha)
  rw [hr, scalarKeywords, hr, outcome_settle]

theorem evaluatePositional_scalar {args : List Tree} (h : ∀ a ∈ args, a.IsScalar) (q : Query) :
    evaluatePositional .builtin A args q = settle (scalarPositional args) := by
  obtain ⟨r, hr⟩ := exists_positional fun a ha => isFixed_of_isScalar (h a ha)
  rw [hr, scalarPositional, hr, outcome_settle]

/-! ### Leaves -/

/-- The options that a series leaf sets. -/
def leafOptions (items : List Tree) : Except EngineError SeriesOptions := do
  checked (list items)
  SeriesOptions.unset.update Builtin.series.name (.ofList (← scalarKeywords items.tail))

/-- **A series leaf**: what the resolver answers, with the options of the leaf. -/
theorem evaluate_series {items : List Tree} (h : Calls items .series)
    (hscalar : ∀ t ∈ items.tail, t.IsScalar) {name : String}
    (hname : leafName? items = some name) (q : Query) :
    evaluate .builtin A (list items) q = (do
      let options ← settle (leafOptions items)
      return .series ((← A.series name q).withOptions options)) := by
  rw [evaluate_leaf A h hname, evaluateKeywords_scalar A hscalar, leafOptions]
  cases checked (list items) with
  | error e => rfl
  | ok _ => cases scalarKeywords items.tail <;> rfl

/-- The constant series of a call. -/
def constantOf (items : List Tree) : Except EngineError Constant := do
  checked (list items)
  let _ ← scalarKeywords items.tail
  Constant.ofArgs ⟨← scalarPositional items.tail, .empty⟩

/-- The arguments of a call whose arguments are scalars. -/
theorem evaluateArgs_scalar {items : List Tree} (hscalar : ∀ t ∈ items.tail, t.IsScalar) (q : Query) :
    evaluateArgs .builtin A (list items) q = settle (do
      checked (list items)
      let keywords ← scalarKeywords items.tail
      let positional ← scalarPositional items.tail
      return ⟨positional, .ofList keywords⟩) := by
  have hargs : (list items).args = items.tail := by
    cases items <;> rfl
  rw [evaluateArgs, checkCall_eq, hargs, evaluateKeywords_scalar A hscalar,
    evaluatePositional_scalar A hscalar]
  cases checked (list items) with
  | error e => rfl
  | ok _ =>
    cases scalarKeywords items.tail with
    | error e => rfl
    | ok _ => cases scalarPositional items.tail <;> rfl

/-- **A constant call** that the resolver does not answer. -/
theorem evaluate_constant {items : List Tree} (h : Calls items .constant)
    (hscalar : ∀ t ∈ items.tail, t.IsScalar) (q : Query) :
    evaluate .builtin A (list items) q = (do
      match ← A.autotrophic (list items) q with
      | some v => pure v
      | none => settle (do return .series (← (← constantOf items).read q))) := by
  rw [evaluate_autotrophic A h]
  congr 1
  funext known
  cases known with
  | some v => rfl
  | none =>
    simp only [evaluateKeywords_scalar A hscalar, evaluatePositional_scalar A hscalar, constantOf]
    cases checked (list items) with
    | error e => rfl
    | ok _ =>
      cases scalarKeywords items.tail with
      | error e => rfl
      | ok _ => cases scalarPositional items.tail <;> rfl

end Evaluation

end SeriesAlgebra
