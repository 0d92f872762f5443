import SeriesAlgebra.Proofs.Evaluation.Kinds

/-!
# Operators and values of the wrong kind

An operator that is given a value of the wrong kind fails with an error of its own
(`EngineError.isTypeError`). If every argument is of a kind that is admitted in its place
(`Builtin.Admits`), no operator fails in this way, whatever else may be wrong
(`Builtin.isSafe_apply`). Two operators want more than the kinds say: a keyword that must be an
integer may be given a double, and only one without a fraction will do, and a sum of tables
wants one operand at least that is no scalar.
-/

namespace SeriesAlgebra

open Application

variable {α β ε : Type}

/-- Whether an error is that of an operator that was given a value of the wrong kind. -/
def EngineError.isTypeError : EngineError → Bool
  | .invalidValue _ _ _ => true
  | _ => false

namespace Result

/-- Whether a result, if it is an error, is another one than a value of the wrong kind. -/
def IsSafe (x : Except EngineError α) : Prop := ∀ e, x = .error e → e.isTypeError = false

theorem isSafe_ok (a : α) : IsSafe (.ok a) := failsOnly_ok a

theorem isSafe_error {e : EngineError} (h : e.isTypeError = false) : IsSafe (.error e : Except _ α) :=
  failsOnly_error h

theorem isSafe_of_ok {x : Except EngineError α} {a : α} (h : x = .ok a) : IsSafe x :=
  h ▸ isSafe_ok a

theorem isSafe_bind {x : Except EngineError α} {f : α → Except EngineError β} (hx : IsSafe x)
    (hf : ∀ a, x = .ok a → IsSafe (f a)) : IsSafe (x >>= f) := failsOnly_bind hx hf

theorem isSafe_map {x : Except EngineError α} (f : α → β) (hx : IsSafe x) : IsSafe (x.map f) :=
  failsOnly_map f hx

theorem isSafe_mapError {f : ε → EngineError} (hf : ∀ e, (f e).isTypeError = false) (x : Except ε α) :
    IsSafe (x.mapError f) := failsOnly_mapError hf x

theorem isSafe_mapM {f : α → Except EngineError β} {as : List α} (h : ∀ a ∈ as, IsSafe (f a)) :
    IsSafe (as.mapM f) := failsOnly_mapM h

end Result

open Result

/-! ### Values -/

namespace Value

/-- Whether a value is of one of several kinds. -/
def FitsSome (v : Value) (expected : List TypeTag) : Prop := ∃ type ∈ expected, v.Fits type

/-- A value is of one of the kinds of a place that accepts its type. -/
theorem Fits.some {v : Value} {type : TypeTag} (h : v.Fits type) {expected : List TypeTag}
    (hany : TypeTag.any ∉ expected) (haccepts : TypeTag.anyAccepts expected type = true) :
    v.FitsSome expected := by
  obtain ⟨tag, htag, haccepts⟩ := List.any_eq_true.1 haccepts
  refine ⟨tag, htag, ?_⟩
  have hne : tag ≠ .any := fun heq => hany (heq ▸ htag)
  have hnotAny : type ≠ .any := by
    rintro rfl
    rcases h with h | ⟨-, h⟩
    · cases v <;> cases h
    · cases h
  -- A place either has the very type, or is for numbers and the type is that of integers.
  have hcases : tag = type ∨ tag = .number ∧ type = .int := by
    cases tag <;> cases type <;> first
      | exact Or.inl rfl | exact Or.inr ⟨rfl, rfl⟩ | contradiction
  rcases hcases with rfl | ⟨rfl, rfl⟩
  · exact h
  · rcases h with h | ⟨h, -⟩
    · exact Or.inr ⟨by rw [h]; rfl, rfl⟩
    · exact Or.inr ⟨h, rfl⟩

theorem type_of_fits {v : Value} {type : TypeTag} (h : v.Fits type)
    (htype : type.isNumeric = false) : v.type = type := by
  rcases h with h | ⟨-, h⟩
  · exact h
  · exact absurd h (by simp [htype])

theorem isNumeric_of_fits {v : Value} {type : TypeTag} (h : v.Fits type)
    (htype : type.isNumeric = true) : v.type.isNumeric = true := by
  rcases h with h | ⟨h, -⟩
  · rw [h]
    exact htype
  · exact h

theorem rank_of_isNumeric {v : Value} (h : v.type.isNumeric = true) : v.type.rank = 0 := by
  cases v <;> first | rfl | cases h

theorem isSeries_of_type {v : Value} (h : v.type = .series) : Evaluation.IsSeries v := by
  cases v <;> first | exact ⟨_, rfl⟩ | cases h

theorem isSafe_asSeries {v : Value} (h : v.type = .series) (operator : String) :
    IsSafe (v.asSeries operator) := by
  obtain ⟨s, rfl⟩ := isSeries_of_type h
  exact isSafe_ok s

theorem isSafe_asFloat {v : Value} (h : v.type.isNumeric = true) (operator : String) :
    IsSafe (v.asFloat operator) := by
  cases v <;> first | exact isSafe_ok _ | cases h

theorem isSafe_asString {v : Value} (h : v.type = .str) (operator : String) :
    IsSafe (v.asString operator) := by
  cases v <;> first | exact isSafe_ok _ | cases h

theorem isSafe_asStamp {v : Value} (h : v.FitsSome Builtin.dateLike) (operator : String) :
    IsSafe (v.asStamp operator) := by
  obtain ⟨type, htype, hfits⟩ := h
  have hkind : v.type = .timestamp ∨ v.type = .str := by
    rcases List.mem_cons.1 htype with rfl | htype
    · exact Or.inl (type_of_fits hfits rfl)
    · obtain rfl := List.mem_singleton.1 htype
      exact Or.inr (type_of_fits hfits rfl)
  rcases hkind with h | h
  · cases v <;> first | exact isSafe_ok _ | cases h
  · cases v <;> first | exact isSafe_mapError (fun _ => rfl) _ | cases h

/-- Whether a value counts as an integer. -/
def isWhole (v : Value) : Bool := (v.asInt "").toOption.isSome

/-- Which operator asks for an integer makes a difference for the error only. -/
theorem asInt_of_asInt {v : Value} {operator : String} {n : Int64}
    (h : v.asInt operator = .ok n) (operator' : String) : v.asInt operator' = .ok n := by
  cases v with
  | int m => exact h
  | number x =>
    rw [asInt] at h ⊢
    split at h
    · rename_i hx
      rw [if_pos hx]
      exact h
    · cases h
  | _ => cases h

/-- A value that an operator takes for an integer counts as one. -/
theorem isWhole_of_asInt {v : Value} {operator : String} {n : Int64}
    (h : v.asInt operator = .ok n) : v.isWhole = true := by
  rw [isWhole, asInt_of_asInt h ""]
  rfl

theorem isSafe_asInt {v : Value} (h : v.isWhole = true) (operator : String) :
    IsSafe (v.asInt operator) := by
  obtain ⟨n, hn⟩ := Result.exists_ok h
  exact isSafe_of_ok (asInt_of_asInt hn operator)

/-! ### Arithmetic -/

/-- Whether a value may be an operand of arithmetic. -/
def IsOperand (v : Value) : Prop := v.type.isNumeric = true ∨ v.type.rank ≠ 0

theorem isOperand_of_fitsSome {v : Value} {expected : List TypeTag} (h : v.FitsSome expected)
    (hexpected : ∀ type ∈ expected, type = .number ∨ type = .series ∨ type = .table) :
    v.IsOperand := by
  obtain ⟨type, htype, hfits⟩ := h
  rcases hexpected type htype with rfl | rfl | rfl
  · exact Or.inl (isNumeric_of_fits hfits rfl)
  · exact Or.inr (by rw [type_of_fits hfits rfl]; nofun)
  · exact Or.inr (by rw [type_of_fits hfits rfl]; nofun)

theorem IsOperand.numeric {v : Value} (h : v.IsOperand) (hrank : v.type.rank = 0) :
    v.type.isNumeric = true := h.resolve_right fun hne => hne hrank

/-- **Arithmetic does not fail because of the kinds of its operands**, and gives an operand again. -/
theorem isSafe_combine {op : Arithmetic} {v w : Value} (hv : v.IsOperand) (hw : w.IsOperand) :
    IsSafe (v.combine op w) ∧ ∀ r, v.combine op w = .ok r → r.IsOperand := by
  refine ⟨?_, fun r hr => ?_⟩
  · rcases combines op v w with
      ⟨-, -, hop⟩ | ⟨hv', hw', hop⟩ | ⟨-, -, hop, -⟩ | ⟨-, hw', hop, -⟩ | ⟨hv', -, hop, -⟩
    · exact isSafe_of_ok hop
    · rw [hop]
      refine isSafe_bind (isSafe_asFloat (hv.numeric hv') _) fun x _ => ?_
      exact isSafe_bind (isSafe_asFloat (hw.numeric hw') _) fun y _ => isSafe_ok _
    · rw [hop]
      exact isSafe_mapError (fun _ => rfl) _
    · rw [hop]
      exact isSafe_map _ (isSafe_asFloat (hw.numeric hw') _)
    · rw [hop]
      exact isSafe_map _ (isSafe_asFloat (hv.numeric hv') _)
  · by_cases hrank : r.type.rank = 0
    · exact Or.inl ((rank_combine hr).2 hrank)
    · exact Or.inr hrank

/-- A sum is as large as its largest operand. -/
theorem rank_foldlM {op : Arithmetic} {rest : List Value} {first r : Value}
    (h : rest.foldlM (combine op) first = .ok r) :
    first.type.rank ≤ r.type.rank ∧ (∀ v ∈ rest, v.type.rank ≤ r.type.rank) ∧
      (first.type.rank = 0 → (∀ v ∈ rest, v.type.rank = 0) → r.type.rank = 0) := by
  induction rest generalizing first with
  | nil =>
    rw [List.foldlM_nil] at h
    obtain rfl := Except.ok.inj h
    exact ⟨Nat.le_refl _, nofun, fun hzero _ => hzero⟩
  | cons v rest ih =>
    rw [List.foldlM_cons] at h
    obtain ⟨next, hnext, h⟩ := Result.bind_ok h
    obtain ⟨hfirst, hrest, hzero⟩ := ih h
    have hrank := (rank_combine hnext).1
    refine ⟨by omega, fun w hw => ?_, fun hnone hall => ?_⟩
    · rcases List.mem_cons.1 hw with rfl | hw
      · omega
      · exact hrest w hw
    · have hv := hall v List.mem_cons_self
      exact hzero (by omega) fun w hw => hall w (List.mem_cons_of_mem _ hw)

theorem isSafe_foldlM {op : Arithmetic} {rest : List Value} {first : Value}
    (hfirst : first.IsOperand) (hrest : ∀ v ∈ rest, v.IsOperand) :
    IsSafe (rest.foldlM (combine op) first) := by
  induction rest generalizing first with
  | nil => exact isSafe_ok first
  | cons v rest ih =>
    rw [List.foldlM_cons]
    obtain ⟨hsafe, hoperand⟩ : IsSafe (first.combine op v) ∧ _ :=
      isSafe_combine hfirst (hrest v List.mem_cons_self)
    exact isSafe_bind hsafe fun next hnext =>
      ih (hoperand next hnext) fun w hw => hrest w (List.mem_cons_of_mem _ hw)

theorem isSafe_asTable {v : Value} (h : v.type.rank ≠ 0) (operator : String) :
    IsSafe (v.asTable operator) := by
  cases v with
  | series s => exact isSafe_mapError (fun _ => rfl) _
  | table f => exact isSafe_ok f
  | _ => exact absurd rfl h

end Value

/-! ### Arguments -/

/-- Whether keywords are of the kinds that an operator admits for them, and those that must be
integers count as such. -/
def Builtin.AdmitsKeywords (b : Builtin) (keywords : OrderedMap String Value) : Prop :=
  ∀ name v, keywords.find? name = some v → ∃ expected,
    b.signature.keyword? name = some expected ∧ v.FitsSome expected ∧
      (expected = [.int] → v.isWhole = true)

/-- **Whether arguments are of the kinds that an operator admits**, each in its place, and not all
operands of a sum of tables are scalars. -/
structure Builtin.Admits (b : Builtin) (args : Args) : Prop where
  positional : ∀ (position : Nat) (v : Value), args.positional[position]? = some v →
    v.FitsSome (b.signature.expectedAt position)
  keywords : b.AdmitsKeywords args.keywords
  operand : b = .groupAdd → ∃ v ∈ args.positional, v.type.rank ≠ 0

namespace Application

variable {b : Builtin} {args : Args} {keywords : OrderedMap String Value}

theorem isSafe_refuse (fault : ArgumentFault) : IsSafe (b.refuse fault : Except _ α) :=
  isSafe_error rfl

theorem isSafe_get (args : Args) (position : Nat) (operator : String) :
    IsSafe (args.get position operator) := by
  unfold Args.get
  split
  · exact isSafe_ok _
  · exact isSafe_error rfl

theorem getElem?_of_get {position : Nat} {operator : String} {v : Value}
    (h : args.get position operator = .ok v) : args.positional[position]? = some v := by
  unfold Args.get at h
  split at h
  · rename_i w hw
    rw [hw, Except.ok.inj h]
  · cases h

/-- An argument that is there is of a kind that its place admits. -/
theorem fitsSome_of_get (h : b.Admits args) {position : Nat} {operator : String} {v : Value}
    (hv : args.get position operator = .ok v) : v.FitsSome (b.signature.expectedAt position) :=
  h.positional position v (getElem?_of_get hv)

theorem type_of_fitsSome {v : Value} {type : TypeTag} (h : v.FitsSome [type])
    (htype : type.isNumeric = false) : v.type = type := by
  obtain ⟨tag, htag, hfits⟩ := h
  obtain rfl := List.mem_singleton.1 htag
  exact Value.type_of_fits hfits htype

theorem isSafe_firstSeries (h : b.Admits args)
    (hfirst : b.signature.expectedAt 0 = [.series]) (operator : String) :
    IsSafe (firstSeries args operator) := by
  refine isSafe_bind (isSafe_get args 0 operator) fun v hv => ?_
  exact Value.isSafe_asSeries (type_of_fitsSome (hfirst ▸ fitsSome_of_get h hv) rfl) operator

/-- A keyword that is given is of the kinds that are admitted for it. -/
theorem fitsSome_of_keyword (h : b.AdmitsKeywords keywords) {name : String} {v : Value}
    (hv : keywords.find? name = some v) {expected : List TypeTag}
    (hexpected : b.signature.keyword? name = some expected) :
    v.FitsSome expected ∧ (expected = [.int] → v.isWhole = true) := by
  obtain ⟨types, htypes, hfits⟩ := h name v hv
  obtain rfl := Option.some.inj (hexpected.symm.trans htypes)
  exact hfits

theorem isSafe_optional {name : String} {f : Value → Except EngineError α}
    (h : ∀ v, keywords.find? name = some v → IsSafe (f v)) :
    IsSafe (optional keywords name f) := by
  unfold optional SeriesOptions.convert
  split
  · exact isSafe_map _ (h _ ‹_›)
  · exact isSafe_ok none

theorem isNumeric_of_fitsSome {v : Value} (h : v.FitsSome [.number]) :
    v.type.isNumeric = true := by
  obtain ⟨type, htype, hfits⟩ := h
  obtain rfl := List.mem_singleton.1 htype
  exact Value.isNumeric_of_fits hfits rfl

/-- Options are set from keywords of the kinds that are admitted for them. -/
theorem isSafe_update (h : b.AdmitsKeywords keywords)
    (hfill : b.signature.keyword? "fill" = some [.str, .number])
    (hprune : b.signature.keyword? "prune" = some [.int])
    (hweight : b.signature.keyword? "weight" = some [.number]) (o : SeriesOptions)
    (operator : String) : IsSafe (o.update operator keywords) := by
  refine isSafe_bind (isSafe_optional fun v hv => ?_) fun fill _ =>
    isSafe_bind (isSafe_optional fun v hv => ?_) fun prune _ =>
      isSafe_bind (isSafe_optional fun v hv => ?_) fun weight _ => isSafe_ok _
  · obtain ⟨type, htype, hfits⟩ := (fitsSome_of_keyword h hv hfill).1
    rcases List.mem_cons.1 htype with rfl | htype
    · have htext := Value.type_of_fits hfits rfl
      cases v <;> first | exact isSafe_mapError (fun _ => rfl) _ | cases htext
    · obtain rfl := List.mem_singleton.1 htype
      have hnumber := Value.isNumeric_of_fits hfits rfl
      cases v <;> first | exact isSafe_map _ (isSafe_ok _) | cases hnumber
  · -- A number of points may still be negative, which is another error.
    have hwhole := (fitsSome_of_keyword h hv hprune).2 rfl
    refine isSafe_bind (Value.isSafe_asInt hwhole operator) fun n _ => ?_
    dsimp only
    split
    · exact isSafe_error rfl
    · exact isSafe_ok _
  · exact Value.isSafe_asFloat (isNumeric_of_fitsSome (fitsSome_of_keyword h hv hweight).1) operator

theorem isSafe_sliceWindow (h : Builtin.slice.AdmitsKeywords keywords) :
    IsSafe (sliceWindow keywords) := by
  refine isSafe_bind (isSafe_optional fun v hv => ?_) fun lower _ =>
    isSafe_bind (isSafe_optional fun v hv => ?_) fun upper _ => isSafe_ok _
  · exact Value.isSafe_asStamp (fitsSome_of_keyword h hv rfl).1 _
  · exact Value.isSafe_asStamp (fitsSome_of_keyword h hv rfl).1 _

theorem isSafe_arithmetic (h : b.Admits args) (hb : b.isArithmetic = true) (op : Arithmetic) :
    IsSafe (arithmetic op args) := by
  have hoperand (position : Nat) (hposition : position < 2) {v : Value}
      (hv : args.get position op.symbol = .ok v) : v.IsOperand := by
    have hexpected : b.signature.expectedAt position = Builtin.operand := by
      obtain _ | _ | _ := position
      · cases b <;> first | rfl | cases hb
      · cases b <;> first | rfl | cases hb
      · omega
    refine Value.isOperand_of_fitsSome (hexpected ▸ fitsSome_of_get h hv) fun type htype => ?_
    simpa [Builtin.operand] using htype
  refine isSafe_bind (isSafe_get args 1 _) fun right hright =>
    isSafe_bind (isSafe_get args 0 _) fun left hleft => ?_
  exact (Value.isSafe_combine (hoperand 0 (by omega) hleft) (hoperand 1 (by omega) hright)).1

theorem isSafe_reduction (h : b.Admits args)
    (hexpected : ∀ position, b.signature.expectedAt position = [.series])
    (reduce : String → List Series → Except FrameError Series) :
    IsSafe (reduction b args reduce) := by
  refine isSafe_bind (isSafe_mapM fun v hv => ?_) fun inputs _ => isSafe_mapError (fun _ => rfl) _
  obtain ⟨position, hposition⟩ := List.getElem?_of_mem hv
  have hfits := hexpected position ▸ h.positional position v hposition
  exact Value.isSafe_asSeries (type_of_fitsSome hfits rfl) _

theorem isSafe_zone (b : Builtin) (name : String) : IsSafe (zone b name) := by
  unfold zone
  split
  · exact isSafe_ok _
  · exact isSafe_refuse _

theorem isSafe_dateOf (text : String) (zoneName : Option String) :
    IsSafe (dateOf text zoneName) := by
  refine isSafe_bind (isSafe_mapError (fun _ => rfl) _) fun clock _ => ?_
  cases zoneName with
  | none => exact isSafe_ok _
  | some name =>
    refine isSafe_bind (isSafe_zone _ name) fun z _ => ?_
    split
    · exact isSafe_ok _
    · exact isSafe_refuse _

theorem isSafe_groupSum (h : Builtin.groupAdd.Admits args) : IsSafe (groupSum args) := by
  have hoperand (v : Value) (hv : v ∈ args.positional) : v.IsOperand := by
    obtain ⟨position, hposition⟩ := List.getElem?_of_mem hv
    refine Value.isOperand_of_fitsSome (h.positional position v hposition) fun type htype => ?_
    have hexpected : Builtin.groupAdd.signature.expectedAt position =
        [.table, .series, .number] := by cases position <;> rfl
    rw [hexpected] at htype
    simp only [List.mem_cons, List.not_mem_nil, or_false] at htype
    rcases htype with rfl | rfl | rfl <;> simp
  obtain ⟨v, hv, hrank⟩ := h.operand rfl
  unfold groupSum
  cases hpositional : args.positional with
  | nil => exact isSafe_refuse _
  | cons first rest =>
    rw [hpositional] at hv hoperand
    refine isSafe_bind (Value.isSafe_foldlM (hoperand first List.mem_cons_self) fun w hw =>
      hoperand w (List.mem_cons_of_mem _ hw)) fun total htotal => Value.isSafe_asTable ?_ _
    -- The operand that is no scalar makes the sum at least as large.
    obtain ⟨hfirst, hrest, -⟩ := Value.rank_foldlM htotal
    rcases List.mem_cons.1 hv with rfl | hv
    · omega
    · have := hrest v hv
      omega

/-- A sum of scalars is no table. -/
theorem not_groupSum (h : ∀ v ∈ args.positional, v.type.rank = 0) {f : Frame} :
    groupSum args ≠ .ok f := by
  intro hf
  unfold groupSum at hf
  cases hpositional : args.positional with
  | nil =>
    rw [hpositional] at hf
    cases hf
  | cons first rest =>
    rw [hpositional] at hf h
    obtain ⟨total, htotal, hf⟩ := Result.bind_ok hf
    have hzero := (Value.rank_foldlM htotal).2.2 (h first List.mem_cons_self) fun v hv =>
      h v (List.mem_cons_of_mem _ hv)
    cases total <;> first | cases hzero; done | cases hf

/-- A constant series is made of arguments of the kinds that are admitted for it. -/
theorem isSafe_ofArgs (h : Builtin.constant.Admits args) : IsSafe (Constant.ofArgs args) := by
  have hget (position : Nat) := isSafe_get args position Constant.operator
  refine isSafe_bind (hget 0) fun value hvalue => isSafe_bind ?_ fun x _ =>
    isSafe_bind (hget 1) fun first hfirst => isSafe_bind ?_ fun _ _ =>
    isSafe_bind (hget 2) fun last hlast => isSafe_bind ?_ fun _ _ =>
    isSafe_bind (hget 3) fun step hstep => isSafe_bind ?_ fun text _ => isSafe_bind ?_ fun _ _ =>
    isSafe_bind (hget 4) fun revised hrevised => isSafe_bind ?_ fun _ _ => isSafe_ok _
  · exact Value.isSafe_asFloat (isNumeric_of_fitsSome (fitsSome_of_get h hvalue)) _
  · exact Value.isSafe_asStamp (fitsSome_of_get h hfirst) _
  · exact Value.isSafe_asStamp (fitsSome_of_get h hlast) _
  · exact Value.isSafe_asString (type_of_fitsSome (fitsSome_of_get h hstep) rfl) _
  · unfold Constant.stepOf
    split
    · exact isSafe_ok _
    · exact isSafe_error rfl
  · exact Value.isSafe_asStamp (fitsSome_of_get h hrevised) _

theorem isSafe_readConstant (c : Constant) (query : Query) : IsSafe (c.read query) := by
  unfold Constant.read
  split
  · exact isSafe_ok _
  · unfold Constant.series
    dsimp only
    split
    · split
      · exact isSafe_ok _
      · split
        · exact isSafe_error rfl
        · exact isSafe_mapError (fun _ => rfl) _
    · exact isSafe_ok _

end Application

/-! ### Operators -/

namespace Builtin

variable {b : Builtin} {args : Args}

/-- **No operator finds a value of the wrong kind** among arguments that it admits. -/
theorem isSafe_apply (h : b.Admits args) (query : Query) : IsSafe (b.apply args query) := by
  cases b with
  | series | group => exact isSafe_refuse _
  | options =>
    exact isSafe_bind (isSafe_firstSeries h rfl _) fun s _ =>
      isSafe_bind (isSafe_update h.keywords rfl rfl rfl s.options _) fun o _ => isSafe_ok _
  | plus | times | divide => exact isSafe_arithmetic h rfl _
  | add | priority | min | max | rowMean =>
    exact isSafe_reduction h (fun position => by cases position <;> rfl) _
  | abs | cumsum => exact isSafe_bind (isSafe_firstSeries h rfl _) fun s _ => isSafe_ok _
  | round =>
    refine isSafe_bind (isSafe_optional fun v hv => ?_) fun decimals _ =>
      isSafe_bind (isSafe_firstSeries h rfl _) fun s _ => isSafe_ok _
    exact Value.isSafe_asInt ((fitsSome_of_keyword h.keywords hv rfl).2 rfl) _
  | clip =>
    refine isSafe_bind (isSafe_optional fun v hv => ?_) fun lower _ =>
      isSafe_bind (isSafe_optional fun v hv => ?_) fun upper _ =>
        isSafe_bind (isSafe_firstSeries h rfl _) fun s _ => isSafe_ok _
    · exact Value.isSafe_asFloat (isNumeric_of_fitsSome (fitsSome_of_keyword h.keywords hv rfl).1) _
    · exact Value.isSafe_asFloat (isNumeric_of_fitsSome (fitsSome_of_keyword h.keywords hv rfl).1) _
  | slice =>
    exact isSafe_bind (isSafe_sliceWindow h.keywords) fun w _ =>
      isSafe_bind (isSafe_firstSeries h rfl _) fun s _ => isSafe_ok _
  | naive =>
    refine isSafe_bind (isSafe_get args 1 _) fun v hv => isSafe_bind ?_ fun name _ =>
      isSafe_bind (isSafe_zone _ name) fun z _ => isSafe_bind (isSafe_firstSeries h rfl _)
        fun s _ => isSafe_mapError (fun _ => rfl) _
    exact Value.isSafe_asString (type_of_fitsSome (fitsSome_of_get h hv) rfl) _
  | date =>
    refine isSafe_bind (isSafe_optional fun v hv => ?_) fun zoneName _ =>
      isSafe_bind (isSafe_get args 0 _) fun v hv => isSafe_bind ?_ fun text _ =>
        isSafe_bind (isSafe_dateOf text zoneName) fun t _ => isSafe_ok _
    · exact Value.isSafe_asString (type_of_fitsSome (fitsSome_of_keyword h.keywords hv rfl).1 rfl) _
    · exact Value.isSafe_asString (type_of_fitsSome (fitsSome_of_get h hv) rfl) _
  | constant =>
    exact isSafe_bind (isSafe_ofArgs h) fun c _ =>
      isSafe_bind (isSafe_readConstant c query) fun s _ => isSafe_ok _
  | groupAdd => exact isSafe_bind (isSafe_groupSum h) fun f _ => isSafe_ok _

/-- What arguments are asked for does not fail because of the kinds of keywords. -/
theorem isSafe_childQuery {keywords : OrderedMap String Value} (h : b.AdmitsKeywords keywords)
    (query : Query) : IsSafe (b.childQuery keywords query) := by
  cases b with
  | slice => exact isSafe_bind (isSafe_sliceWindow h) fun w _ => isSafe_ok _
  | _ => exact isSafe_ok _

theorem exists_of_optional {keywords : OrderedMap String Value} {name : String} {v : Value}
    (hv : keywords.find? name = some v) {f : Value → Except EngineError α} {a : Option α}
    (h : Application.optional keywords name f = .ok a) : ∃ b, f v = .ok b := by
  rw [Application.optional, hv] at h
  obtain ⟨b, hb, -⟩ := Result.map_ok h
  exact ⟨b, hb⟩

/-- The number of points to leave out counts as an integer, where options are set. -/
theorem isWhole_of_update {o r : SeriesOptions} {operator : String}
    {keywords : OrderedMap String Value} (h : o.update operator keywords = .ok r) {v : Value}
    (hv : keywords.find? "prune" = some v) : v.isWhole = true := by
  obtain ⟨fill, -, h⟩ := Result.bind_ok h
  obtain ⟨prune, hprune, -⟩ := Result.bind_ok h
  obtain ⟨count, hcount⟩ := exists_of_optional hv hprune
  obtain ⟨n, hn, -⟩ := Result.bind_ok hcount
  exact Value.isWhole_of_asInt hn

/-- The keywords that must be integers. -/
theorem cases_of_int {name : String} (h : (name, [.int]) ∈ b.signature.keywords) :
    (b = .series ∨ b = .options) ∧ name = "prune" ∨ b = .round ∧ name = "decimals" := by
  cases b <;> simp [signature, withSeriesOptions, Signature.withKeyword, Signature.fixed,
    Signature.variadic, arithmeticSignature, dateLike] at h ⊢ <;> exact h

/-- Where an operator gives a value, its keywords that must be integers count as such. -/
theorem isWhole_of_apply {query : Query} {v : Value} (h : b.apply args query = .ok v)
    {name : String} (hname : (name, [.int]) ∈ b.signature.keywords) {w : Value}
    (hw : args.keywords.find? name = some w) : w.isWhole = true := by
  rcases cases_of_int hname with ⟨rfl | rfl, rfl⟩ | ⟨rfl, rfl⟩
  · cases h
  · obtain ⟨s, -, h⟩ := Result.bind_ok h
    obtain ⟨options, hoptions, -⟩ := Result.bind_ok h
    exact isWhole_of_update hoptions hw
  · obtain ⟨decimals, hdecimals, -⟩ := Result.bind_ok h
    obtain ⟨n, hn⟩ := exists_of_optional hw hdecimals
    exact Value.isWhole_of_asInt hn

end Builtin

end SeriesAlgebra
