import SeriesAlgebra.Proofs.Evaluation.Comparison
import SeriesAlgebra.Proofs.Series.Combining
import SeriesAlgebra.Proofs.Series.Similar

/-!
# Related values

A relation between series becomes one between values: scalars are related if they are
equal, series if they are, and tables never (`Value.Related`). Whatever an operator
asks of its arguments besides series is then the same on both sides. If what operators do
with series keeps the relation (`KeptByOperators`), they make related series of related ones
(`Builtin.yields_apply`).
-/

namespace SeriesAlgebra

namespace Value

/-- **Related values**: equal scalars, or related series. -/
inductive Related (S : Series → Series → Prop) : Value → Value → Prop
  | int (n : Int64) : Related S (int n) (int n)
  | number (x : Float) : Related S (number x) (number x)
  | str (text : String) : Related S (str text) (str text)
  | timestamp (t : Stamp) : Related S (timestamp t) (timestamp t)
  | series {s t : Series} (h : S s t) : Related S (series s) (series t)

variable {S : Series → Series → Prop} {v w : Value}

theorem related_ofLiteral (S : Series → Series → Prop) (l : Literal) :
    Related S (ofLiteral l) (ofLiteral l) := by
  cases l with
  | str text => exact .str text
  | int n => exact .int n
  | float x => exact .number x
  | symbol name => exact .str name

namespace Related

/-! ### Conversions -/

theorem asFloat (h : Related S v w) (operator : String) : v.asFloat operator = w.asFloat operator := by
  cases h <;> rfl

theorem asInt (h : Related S v w) (operator : String) : v.asInt operator = w.asInt operator := by
  cases h <;> rfl

theorem asString (h : Related S v w) (operator : String) :
    v.asString operator = w.asString operator := by
  cases h <;> rfl

theorem asStamp (h : Related S v w) (operator : String) :
    v.asStamp operator = w.asStamp operator := by
  cases h <;> rfl

theorem asSeries (h : Related S v w) (operator : String) :
    Yields S (v.asSeries operator) (w.asSeries operator) := by
  cases h with
  | series h => exact Yields.ok h
  | _ => exact Yields.error

theorem mono {S' : Series → Series → Prop} (h : Related S v w) (hS : ∀ s t, S s t → S' s t) :
    Related S' v w := by
  cases h with
  | int n => exact .int n
  | number x => exact .number x
  | str text => exact .str text
  | timestamp t => exact .timestamp t
  | series h => exact .series (hS _ _ h)

theorem fillOf (h : Related S v w) (operator : String) :
    SeriesOptions.fillOf operator v = SeriesOptions.fillOf operator w := by
  cases h <;> rfl

theorem pruneOf (h : Related S v w) (operator : String) :
    SeriesOptions.pruneOf operator v = SeriesOptions.pruneOf operator w := by
  rw [SeriesOptions.pruneOf, SeriesOptions.pruneOf, h.asInt]

end Related

end Value

open Value Application

variable {S : Series → Series → Prop}

/-! ### Keywords -/

section Keywords

variable {m m' : OrderedMap String Value} (h : RelatedMaps (Related S) m m')

include h

theorem optional_congr {α : Type} (name : String) {f : Value → Except EngineError α}
    (hf : ∀ v w, Related S v w → f v = f w) : Application.optional m name f = Application.optional m' name f := by
  have hname := h name
  unfold Application.optional SeriesOptions.convert
  generalize m.find? name = a at hname
  generalize m'.find? name = b at hname
  cases hname with
  | none => rfl
  | some hvw => exact congrArg (Except.map some) (hf _ _ hvw)

theorem update_congr (o : SeriesOptions) (operator : String) :
    o.update operator m = o.update operator m' := by
  have hfill := optional_congr h "fill" fun v w hvw => hvw.fillOf operator
  have hprune := optional_congr h "prune" fun v w hvw => hvw.pruneOf operator
  have hweight := optional_congr h "weight" fun v w hvw => hvw.asFloat operator
  unfold Application.optional at hfill hprune hweight
  rw [SeriesOptions.update, SeriesOptions.update, hfill, hprune, hweight]

theorem sliceWindow_congr : sliceWindow m = sliceWindow m' := by
  rw [sliceWindow, sliceWindow,
    optional_congr h "fromdate" fun v w hvw => hvw.asStamp Builtin.slice.name,
    optional_congr h "todate" fun v w hvw => hvw.asStamp Builtin.slice.name]

theorem childQuery_congr (b : Builtin) (q : Query) : b.childQuery m q = b.childQuery m' q := by
  cases b with
  | slice =>
    change (do return { q with window := q.window.intersect (← sliceWindow m) }) =
      (do return { q with window := q.window.intersect (← sliceWindow m') } :
        Except EngineError Query)
    rw [sliceWindow_congr h]
  | _ => rfl

end Keywords

/-! ### Keywords that look around -/

/-- Whether a call neither fills nor prunes. -/
def Tree.IsPlainCall (items : List Tree) : Prop :=
  "fill" ∉ keywordNames items.tail ∧ "prune" ∉ keywordNames items.tail

/-- What a call that neither fills nor prunes finds among its keywords. -/
theorem Tree.IsPlainCall.find? {items : List Tree} (h : IsPlainCall items)
    {m : OrderedMap String Value} (hm : ∀ name, m.contains name = true → name ∈ keywordNames items.tail) :
    m.find? "fill" = none ∧ m.find? "prune" = none := by
  have hnone {name : String} (hname : name ∉ keywordNames items.tail) : m.find? name = none := by
    rw [← OrderedMap.contains_eq_false_iff, ← Bool.not_eq_true]
    exact fun h => hname (hm name h)
  exact ⟨hnone h.1, hnone h.2⟩

/-- Keywords that set neither a fill policy nor a number of points to leave out. -/
theorem plain_of_update {o o' : SeriesOptions} {operator : String} {m : OrderedMap String Value}
    (hm : m.find? "fill" = none ∧ m.find? "prune" = none) (h : o.update operator m = .ok o') :
    o'.fill = o.fill ∧ o'.prune = o.prune := by
  rw [SeriesOptions.update, hm.1, hm.2] at h
  obtain ⟨fill, hfill, h⟩ := Result.bind_ok h
  obtain ⟨prune, hprune, h⟩ := Result.bind_ok h
  obtain ⟨weight, -, h⟩ := Result.bind_ok h
  obtain rfl := Except.ok.inj hfill
  obtain rfl := Except.ok.inj hprune
  obtain rfl := Except.ok.inj h
  exact ⟨rfl, rfl⟩

/-! ### Arguments -/

section Arguments

variable {args args' : Args} (h : List.Forall₂ (Related S) args.positional args'.positional)

include h

theorem yields_get (position : Nat) (operator : String) :
    Yields (Related S) (args.get position operator) (args'.get position operator) := by
  have hget : Option.Rel (Related S) args.positional[position]? args'.positional[position]? := by
    generalize args.positional = vs at h ⊢
    generalize args'.positional = ws at h ⊢
    induction h generalizing position with
    | nil => exact .none
    | cons hvw _ ih =>
      cases position with
      | zero => exact .some hvw
      | succ n => exact ih n
  unfold Args.get
  generalize args.positional[position]? = a at hget
  generalize args'.positional[position]? = b at hget
  cases hget with
  | none => exact Yields.error
  | some hvw => exact Yields.ok hvw

theorem yields_firstSeries (operator : String) :
    Yields S (firstSeries args operator) (firstSeries args' operator) :=
  Yields.bind (yields_get h 0 operator) fun _ _ hvw => hvw.asSeries operator

theorem yields_allSeries (operator : String) :
    Yields (List.Forall₂ S) (allSeries args operator) (allSeries args' operator) :=
  Yields.mapM h fun _ _ hvw => hvw.asSeries operator

end Arguments

/-! ### Arithmetic -/

/-- Whether arithmetic keeps a relation between series. -/
structure KeptByArithmetic (S : Series → Series → Prop) : Prop where
  combine : ∀ {s s' t t' : Series} (op : Arithmetic), S s s' → S t t' →
    Yields S (s.combine t op) (s'.combine t' op)
  withScalar : ∀ {s s' : Series} (op : Arithmetic) (x : Float) (first : Bool), S s s' →
    S (s.withScalar op x first) (s'.withScalar op x first)

theorem yields_combineNumbers (op : Arithmetic) {v v' w w' : Value} (hv : Related S v v')
    (hw : Related S w w') :
    Yields (Related S) (combineNumbers op v w) (combineNumbers op v' w') := by
  unfold combineNumbers
  rw [hv.asFloat, hw.asFloat]
  exact Yields.bind_of_eq rfl fun x _ => Yields.bind_of_eq rfl fun y _ => Yields.ok (.number _)

theorem yields_combineValues (hS : KeptByArithmetic S) (op : Arithmetic) {v v' w w' : Value}
    (hv : Related S v v') (hw : Related S w w') :
    Yields (Related S) (Value.combine op v w) (Value.combine op v' w') := by
  have hnumbers := yields_combineNumbers op hv hw
  cases hv with
  | int m =>
    cases hw with
    | int n =>
      rw [Value.combine]
      cases combineInts? op m n with
      | some k => exact Yields.ok (.int k)
      | none => exact hnumbers
    | series ht => exact Yields.ok (.series (hS.withScalar op _ true ht))
    | _ => exact hnumbers
  | number x =>
    cases hw with
    | series ht => exact Yields.ok (.series (hS.withScalar op x true ht))
    | _ => exact hnumbers
  | str text =>
    cases hw with
    | series ht => exact Yields.error
    | _ => exact hnumbers
  | timestamp t =>
    cases hw with
    | series ht => exact Yields.error
    | _ => exact hnumbers
  | series hs =>
    cases hw with
    | int n => exact Yields.ok (.series (hS.withScalar op _ false hs))
    | number y => exact Yields.ok (.series (hS.withScalar op y false hs))
    | series ht => exact ((hS.combine op hs ht).map fun _ _ h => .series h).mapError
    | _ => exact Yields.error

theorem yields_arithmetic (hS : KeptByArithmetic S) (op : Arithmetic) {args args' : Args}
    (h : List.Forall₂ (Related S) args.positional args'.positional) :
    Yields (Related S) (arithmetic op args) (arithmetic op args') :=
  (yields_get h 1 op.symbol).bind fun _ _ hright => (yields_get h 0 op.symbol).bind
    fun _ _ hleft => yields_combineValues hS op hleft hright

/-! ### Operators -/

/-- Whether a combination of several series keeps a relation between series. -/
def KeptByCombination (S : Series → Series → Prop)
    (combine : String → List Series → Except FrameError Series) : Prop :=
  ∀ (name : String) (inputs others : List Series), List.Forall₂ S inputs others →
    Yields S (combine name inputs) (combine name others)

/-- **Whether combining series and mapping their values keeps a relation between them.** A map
must leave missing values as they are. -/
structure KeptByCombining (S : Series → Series → Prop) : Prop extends KeptByArithmetic S where
  mapValues : ∀ {s t : Series} {f : Float → Float}, f missing = missing → S s t →
    S (s.mapValues f) (t.mapValues f)
  sum : KeptByCombination S Reduction.sum
  priority : KeptByCombination S Reduction.priority
  least : KeptByCombination S Reduction.least
  greatest : KeptByCombination S Reduction.greatest
  mean : KeptByCombination S Reduction.mean

/-- **Whether everything that operators do with series keeps a relation between them.** -/
structure KeptByOperators (S : Series → Series → Prop) : Prop extends KeptByCombining S where
  options : ∀ {s t : Series}, S s t → s.options = t.options
  withOptions : ∀ {s t : Series} (o : SeriesOptions), S s t → S (s.withOptions o) (t.withOptions o)
  cumulate : ∀ {s t : Series}, S s t → S s.cumulate t.cumulate
  window : ∀ {s t : Series} (w : Window), S s t → S (s.window w) (t.window w)
  toClocks : ∀ {s t : Series} (z : Zone) (w : Window), S s t →
    Yields S (toClocks s z w) (toClocks t z w)

/-- A combination of related arguments. -/
theorem yields_reduction {args args' : Args}
    (h : List.Forall₂ (Related S) args.positional args'.positional) (b : Builtin)
    {combine : String → List Series → Except FrameError Series} (hcombine : KeptByCombination S combine) :
    Yields (Related S) (reduction b args combine) (reduction b args' combine) :=
  (yields_allSeries h b.name).bind fun _ _ hinputs =>
    ((hcombine b.name _ _ hinputs).map fun _ _ hs => .series hs).mapError

/-- A map of the first argument to a series related in another way. -/
theorem yields_map {T : Series → Series → Prop} {args args' : Args}
    (h : List.Forall₂ (Related S) args.positional args'.positional) (operator : String)
    {f : Series → Series} (hf : ∀ s t, S s t → T (f s) (f t)) :
    Yields (Related T) (do return .series (f (← firstSeries args operator)))
      (do return .series (f (← firstSeries args' operator))) :=
  (yields_firstSeries h operator).bind fun _ _ hs => Yields.ok (.series (hf _ _ hs))

/-! ### Maps of values -/

theorem abs_missing : missing.abs = missing := Double.eq_missing (Double.isNaN_abs Double.isNaN_missing)

theorem roundAt_missing (factor : Float) : roundAt factor missing = missing := by
  have hproduct : missing * factor = missing := Series.apply_missing_left .mul factor
  have hwhole : nearestWhole missing = missing := by
    rw [nearestWhole, Double.isNaN_missing, Bool.true_or, if_pos rfl]
  rw [roundAt, hproduct, hwhole]
  exact Series.apply_missing_left .div factor

theorem clamp_missing (lower upper : Option Float) : clamp lower upper missing = missing := by
  rw [clamp, Double.isNaN_missing, if_pos rfl]

/-- Arithmetic with a scalar leaves missing values as they are. -/
theorem withScalar_missing (op : Arithmetic) (x : Float) (first : Bool) :
    op.withScalar x first missing = missing := by
  unfold Arithmetic.withScalar
  split
  · exact Series.apply_missing_right op x
  · exact Series.apply_missing_left op x

/-! ### Operators -/

/-- Whether an operator combines its arguments or maps their values, whatever it is asked for. -/
def Builtin.combines : Builtin → Bool
  | .plus | .times | .divide | .add | .priority | .min | .max | .rowMean => true
  | .abs | .round | .clip | .date => true
  | _ => false

theorem Builtin.childQuery_of_combines {b : Builtin} (hb : b.combines = true)
    (m : OrderedMap String Value) (q : Query) : b.childQuery m q = .ok q := by
  cases b <;> first | rfl | cases hb

/-- **Operators that combine** make related series of related ones, if combining keeps the
relation. -/
theorem Builtin.yields_combining (hS : KeptByCombining S) {b : Builtin} (hb : b.combines = true)
    {args args' : Args} (h : RelatedArgs (Related S) args args') (q q' : Query) :
    Yields (Related S) (b.apply args q) (b.apply args' q') := by
  have hkeywords := h.keywords
  have hpositional := h.positional
  cases b with
  | plus => exact yields_arithmetic hS.toKeptByArithmetic .add hpositional
  | times => exact yields_arithmetic hS.toKeptByArithmetic .mul hpositional
  | divide => exact yields_arithmetic hS.toKeptByArithmetic .div hpositional
  | add => exact yields_reduction hpositional .add hS.sum
  | priority => exact yields_reduction hpositional .priority hS.priority
  | min => exact yields_reduction hpositional .min hS.least
  | max => exact yields_reduction hpositional .max hS.greatest
  | rowMean => exact yields_reduction hpositional .rowMean hS.mean
  | abs => exact yields_map hpositional Builtin.abs.name fun _ _ hs => hS.mapValues abs_missing hs
  | round =>
    refine Yields.bind_of_eq (optional_congr hkeywords "decimals" fun v w hvw => hvw.asInt _)
      fun decimals _ => ?_
    exact yields_map hpositional Builtin.round.name fun _ _ hs => hS.mapValues (roundAt_missing _) hs
  | clip =>
    refine Yields.bind_of_eq (optional_congr hkeywords "min" fun v w hvw => hvw.asFloat _)
      fun lower _ => ?_
    refine Yields.bind_of_eq (optional_congr hkeywords "max" fun v w hvw => hvw.asFloat _)
      fun upper _ => ?_
    exact yields_map hpositional Builtin.clip.name fun _ _ hs => hS.mapValues (clamp_missing _ _) hs
  | date =>
    refine Yields.bind_of_eq (optional_congr hkeywords "tz" fun v w hvw => hvw.asString _)
      fun zoneName _ => ?_
    refine (yields_get hpositional 0 Builtin.date.name).bind fun v v' hv => ?_
    refine Yields.bind_of_eq (hv.asString _) fun text _ => ?_
    exact Yields.bind_of_eq rfl fun t _ => Yields.ok (.timestamp t)
  | _ => cases hb

/-- A change of options, if it keeps the relation for those that the keywords make. -/
theorem yields_options {args args' : Args} (h : RelatedArgs (Related S) args args') (q q' : Query)
    (hoptions : ∀ {s t}, S s t → s.options = t.options)
    (hkept : ∀ {s t} o, S s t → s.options.update Builtin.options.name args.keywords = .ok o →
      S (s.withOptions o) (t.withOptions o)) :
    Yields (Related S) (Builtin.options.apply args q) (Builtin.options.apply args' q') := by
  refine (yields_firstSeries h.positional Builtin.options.name).bind fun s t hs => ?_
  refine Yields.bind_of_eq ?_ fun o ho => Yields.ok (.series (hkept o hs ho))
  rw [← update_congr h.keywords, hoptions hs]

/-- A slice of related series, which may be related in another way. -/
theorem yields_slice {T : Series → Series → Prop} {vs ws : List Value}
    (hpositional : List.Forall₂ (Related S) vs ws) {m m' : OrderedMap String Value}
    (hkeywords : RelatedMaps (Related T) m m') (q q' : Query)
    (hwindow : ∀ w, sliceWindow m = .ok w → ∀ s t, S s t → T (s.window w) (t.window w)) :
    Yields (Related T) (Builtin.slice.apply ⟨vs, m⟩ q) (Builtin.slice.apply ⟨ws, m'⟩ q') := by
  exact Yields.bind_of_eq (sliceWindow_congr hkeywords) fun w hw =>
    yields_map hpositional Builtin.slice.name (hwindow w hw)

/-- Related series by the clocks of a zone, if those are related, maybe in another way. -/
theorem yields_naive {T : Series → Series → Prop} {vs ws : List Value}
    (h : List.Forall₂ (Related S) vs ws) (m m' : OrderedMap String Value) (q q' : Query)
    (hclocks : ∀ s t name z, Zone.find? name = some z → S s t →
      Yields T (toClocks s z q.window) (toClocks t z q'.window)) :
    Yields (Related T) (Builtin.naive.apply ⟨vs, m⟩ q) (Builtin.naive.apply ⟨ws, m'⟩ q') := by
  refine (yields_get h 1 Builtin.naive.name).bind fun v v' hv => ?_
  refine Yields.bind_of_eq (hv.asString _) fun text _ => Yields.bind_of_eq rfl fun z hz => ?_
  have hfind : Zone.find? text = some z := by
    unfold zone at hz
    split at hz
    · rename_i z' hz'
      rw [hz', Except.ok.inj hz]
    · cases hz
  exact (yields_firstSeries h Builtin.naive.name).bind fun s t hs =>
    ((hclocks s t text z hfind hs).map fun _ _ h => .series h).mapError

/-- **Operators make related series of related ones**, if what they do keeps the relation. -/
theorem Builtin.yields_apply (hS : KeptByOperators S) {b : Builtin}
    (happlied : Evaluation.isApplied b = true) (hb : b ≠ .groupAdd) {args args' : Args}
    (h : RelatedArgs (Related S) args args') (q : Query) :
    Yields (Related S) (b.apply args q) (b.apply args' q) := by
  cases b with
  | series => cases happlied
  | group => cases happlied
  | constant => cases happlied
  | groupAdd => exact absurd rfl hb
  | cumsum => exact yields_map h.positional Builtin.cumsum.name fun _ _ hs => hS.cumulate hs
  | options => exact yields_options h q q hS.options fun o hs _ => hS.withOptions o hs
  | slice => exact yields_slice h.positional h.keywords q q fun w _ _ _ hs => hS.window w hs
  | naive => exact yields_naive h.positional _ _ q q fun _ _ _ z _ hs => hS.toClocks z q.window hs
  | _ => exact yields_combining hS.toKeptByCombining rfl h q q

/-! ### Similar series -/

open Series

theorem yields_toClocks {s s' : Series} (h : s.Similar s') (z : Zone) (w : Window) :
    Yields Similar (toClocks s z w) (toClocks s' z w) := by
  unfold toClocks
  rw [h.points]
  exact yields_ofPoints? _ _ _

/-- A combination that does not look at the names of series. -/
theorem keptByCombination_similar {combine : String → List Series → Except FrameError Series}
    (h : ∀ name inputs others, List.Forall₂ Similar inputs others →
      combine name inputs = combine name others) : KeptByCombination Similar combine := by
  intro name inputs others hinputs
  rw [h name inputs others hinputs]
  exact fun s hs => ⟨s, hs, Series.Similar.refl s⟩

/-- **Operators do not look at the names of series.** -/
theorem keptByOperators_similar : KeptByOperators Similar where
  combine op hs ht := yields_combine hs ht op
  withScalar op x first hs := hs.withScalar op x first
  options hs := hs.options
  withOptions o hs := hs.withOptions o
  mapValues _ hs := hs.mapValues _
  cumulate hs := hs.cumulate
  window w hs := hs.window w
  toClocks z w hs := yields_toClocks hs z w
  sum := keptByCombination_similar fun name _ _ hs => sum_congr hs name
  priority := keptByCombination_similar fun name _ _ hs => priority_congr hs name
  least := keptByCombination_similar fun name _ _ hs => least_congr hs name
  greatest := keptByCombination_similar fun name _ _ hs => greatest_congr hs name
  mean := keptByCombination_similar fun name _ _ hs => mean_congr hs name

end SeriesAlgebra
