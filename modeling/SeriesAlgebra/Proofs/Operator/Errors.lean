import SeriesAlgebra.Operator.Registry
import SeriesAlgebra.Proofs.Result

/-!
# What operators fail with

A built-in operator that is applied to values may find one of the wrong kind or an argument
that will not do, and stamps or tables may not go together
(`EngineError.isOperatorError`). It fails with nothing else (`Builtin.failsOnly_apply`): no
operator complains of a formula, of a name that is missing or of a series that is unknown, so
whatever an evaluation fails with of that sort comes from elsewhere.
-/

namespace SeriesAlgebra

open Application Result

variable {α : Type}

/-- Whether a fault is that of a leaf without a name. -/
def ArgumentFault.isNameless : ArgumentFault → Bool
  | .noSeriesName | .noGroupName => true
  | _ => false

/-- Whether an error is one that an operator finds in the values of its arguments. -/
def EngineError.isOperatorError : EngineError → Bool
  | .invalidValue _ _ _ | .frame _ | .stamp _ => true
  | .invalidArgument _ fault => !fault.isNameless
  | _ => false

/-- Whether a result, if it is an error, is one that an operator finds in values. -/
abbrev Result.FailsAsOperator (x : Except EngineError α) : Prop :=
  FailsOnly (fun e => e.isOperatorError = true) x

theorem Result.failsAsOperator_error {e : EngineError} (h : e.isOperatorError = true) :
    FailsAsOperator (.error e : Except _ α) := failsOnly_error h

theorem Result.failsAsOperator_frame (x : Except FrameError α) :
    FailsAsOperator (x.mapError .frame) := by
  cases x <;> first | exact failsOnly_ok _ | exact failsAsOperator_error rfl

theorem Result.failsAsOperator_stamp (x : Except Stamp.Unreadable α) :
    FailsAsOperator (x.mapError .stamp) := by
  cases x <;> first | exact failsOnly_ok _ | exact failsAsOperator_error rfl

/-! ### Values -/

namespace Value

variable (v w : Value) (operator : String)

theorem failsAsOperator_asFloat : FailsAsOperator (v.asFloat operator) := by
  cases v <;> first | exact failsOnly_ok _ | exact failsAsOperator_error rfl

theorem failsAsOperator_asInt : FailsAsOperator (v.asInt operator) := by
  cases v with
  | int n => exact failsOnly_ok n
  | number x =>
    rw [asInt]
    split
    · exact failsOnly_ok _
    · exact failsAsOperator_error rfl
  | _ => exact failsAsOperator_error rfl

theorem failsAsOperator_asString : FailsAsOperator (v.asString operator) := by
  cases v <;> first | exact failsOnly_ok _ | exact failsAsOperator_error rfl

theorem failsAsOperator_asStamp : FailsAsOperator (v.asStamp operator) := by
  cases v with
  | timestamp t => exact failsOnly_ok t
  | str text => exact failsAsOperator_stamp _
  | _ => exact failsAsOperator_error rfl

theorem failsAsOperator_asSeries : FailsAsOperator (v.asSeries operator) := by
  cases v <;> first | exact failsOnly_ok _ | exact failsAsOperator_error rfl

theorem failsAsOperator_asTable : FailsAsOperator (v.asTable operator) := by
  cases v with
  | table f => exact failsOnly_ok f
  | series s => exact failsAsOperator_frame _
  | _ => exact failsAsOperator_error rfl

theorem failsAsOperator_combineNumbers (op : Arithmetic) : FailsAsOperator (combineNumbers op v w) :=
  failsOnly_bind (failsAsOperator_asFloat v _) fun _ _ =>
    failsOnly_bind (failsAsOperator_asFloat w _) fun _ _ => failsOnly_ok _

/-- Arithmetic fails where numbers are wanted and there are none, or tables do not go together. -/
theorem failsAsOperator_combine (op : Arithmetic) : FailsAsOperator (combine op v w) := by
  unfold combine
  split
  · split
    · exact failsOnly_ok _
    · exact failsAsOperator_combineNumbers _ _ op
  all_goals first
    | exact failsAsOperator_frame _
    | exact failsOnly_map _ (failsAsOperator_asFloat _ _)
    | exact failsAsOperator_combineNumbers _ _ op

end Value

/-! ### Arguments -/

namespace Application

variable {b : Builtin} (args : Args) (keywords : OrderedMap String Value) (operator : String)

theorem failsAsOperator_refuse {fault : ArgumentFault} (h : fault.isNameless = false) :
    FailsAsOperator (b.refuse fault : Except _ α) := failsOnly_error (by simp [EngineError.isOperatorError, h])

theorem failsAsOperator_get (position : Nat) : FailsAsOperator (args.get position operator) := by
  unfold Args.get
  split
  · exact failsOnly_ok _
  · exact failsAsOperator_error rfl

theorem failsAsOperator_firstSeries : FailsAsOperator (firstSeries args operator) :=
  failsOnly_bind (failsAsOperator_get args operator 0) fun v _ => v.failsAsOperator_asSeries operator

theorem failsAsOperator_optional {name : String} {f : Value → Except EngineError α}
    (h : ∀ v, FailsAsOperator (f v)) : FailsAsOperator (optional keywords name f) := by
  unfold optional SeriesOptions.convert
  split
  · exact failsOnly_map _ (h _)
  · exact failsOnly_ok none

/-- **Options are not set** only if a keyword has a value that will not do. -/
theorem failsAsOperator_update (o : SeriesOptions) :
    FailsAsOperator (o.update operator keywords) := by
  refine failsOnly_bind (failsAsOperator_optional _ fun v => ?_) fun _ _ =>
    failsOnly_bind (failsAsOperator_optional _ fun v => ?_) fun _ _ =>
      failsOnly_bind (failsAsOperator_optional _ fun v => v.failsAsOperator_asFloat operator)
        fun _ _ => failsOnly_ok _
  · unfold SeriesOptions.fillOf
    split
    · exact failsAsOperator_frame _
    · exact failsOnly_map _ (Value.failsAsOperator_asFloat _ _)
  · refine failsOnly_bind (v.failsAsOperator_asInt operator) fun n _ => ?_
    dsimp only
    split
    · exact failsAsOperator_error rfl
    · exact failsOnly_ok _

theorem failsAsOperator_sliceWindow : FailsAsOperator (sliceWindow keywords) :=
  failsOnly_bind (failsAsOperator_optional _ fun v => v.failsAsOperator_asStamp _) fun _ _ =>
    failsOnly_bind (failsAsOperator_optional _ fun v => v.failsAsOperator_asStamp _) fun _ _ =>
      failsOnly_ok _

theorem failsAsOperator_arithmetic (op : Arithmetic) : FailsAsOperator (arithmetic op args) :=
  failsOnly_bind (failsAsOperator_get args _ 1) fun right _ =>
    failsOnly_bind (failsAsOperator_get args _ 0) fun left _ =>
      Value.failsAsOperator_combine left right op

theorem failsAsOperator_reduction (b : Builtin)
    (reduce : String → List Series → Except FrameError Series) :
    FailsAsOperator (reduction b args reduce) :=
  failsOnly_bind (failsOnly_mapM fun v _ => v.failsAsOperator_asSeries _) fun _ _ =>
    failsAsOperator_frame _

theorem failsAsOperator_zone (b : Builtin) (name : String) : FailsAsOperator (zone b name) := by
  unfold zone
  split
  · exact failsOnly_ok _
  · exact failsAsOperator_refuse rfl

theorem failsAsOperator_dateOf (text : String) (zoneName : Option String) :
    FailsAsOperator (dateOf text zoneName) := by
  refine failsOnly_bind (failsAsOperator_stamp _) fun clock _ => ?_
  cases zoneName with
  | none => exact failsOnly_ok _
  | some name =>
    refine failsOnly_bind (failsAsOperator_zone _ name) fun z _ => ?_
    split
    · exact failsOnly_ok _
    · exact failsAsOperator_refuse rfl

theorem failsAsOperator_groupSum : FailsAsOperator (groupSum args) := by
  unfold groupSum
  split
  · exact failsAsOperator_refuse rfl
  · exact failsOnly_bind (failsOnly_foldlM (fun v w => Value.failsAsOperator_combine v w _) _ _)
      fun total _ => total.failsAsOperator_asTable _

/-- Arguments that describe no constant series. -/
theorem failsAsOperator_ofArgs : FailsAsOperator (Constant.ofArgs args) := by
  have hget (position : Nat) := failsAsOperator_get args Constant.operator position
  refine failsOnly_bind (hget 0) fun value _ =>
    failsOnly_bind (value.failsAsOperator_asFloat _) fun _ _ =>
    failsOnly_bind (hget 1) fun first _ =>
    failsOnly_bind (first.failsAsOperator_asStamp _) fun _ _ =>
    failsOnly_bind (hget 2) fun last _ =>
    failsOnly_bind (last.failsAsOperator_asStamp _) fun _ _ =>
    failsOnly_bind (hget 3) fun step _ =>
    failsOnly_bind (step.failsAsOperator_asString _) fun text _ => failsOnly_bind ?_ fun _ _ =>
    failsOnly_bind (hget 4) fun revised _ =>
    failsOnly_bind (revised.failsAsOperator_asStamp _) fun _ _ => failsOnly_ok _
  unfold Constant.stepOf
  split
  · exact failsOnly_ok _
  · exact failsAsOperator_error rfl

theorem failsAsOperator_constantSeries (c : Constant) (window : Window) :
    FailsAsOperator (c.series window) := by
  unfold Constant.series
  dsimp only
  split
  · split
    · exact failsOnly_ok _
    · split
      · exact failsAsOperator_error rfl
      · exact failsAsOperator_frame _
  · exact failsOnly_ok _

theorem failsAsOperator_readConstant (c : Constant) (query : Query) :
    FailsAsOperator (c.read query) := by
  unfold Constant.read
  split
  · exact failsOnly_ok _
  · exact failsAsOperator_constantSeries c _

end Application

/-! ### Operators -/

namespace Builtin

/-- **What an operator fails with is found in the values of its arguments.** -/
theorem failsOnly_apply (b : Builtin) (args : Args) (query : Query) :
    FailsAsOperator (b.apply args query) := by
  have hfirst (operator : String) := failsAsOperator_firstSeries args operator
  cases b with
  | series | group => exact failsAsOperator_refuse rfl
  | options =>
    exact failsOnly_bind (hfirst _) fun s _ =>
      failsOnly_bind (failsAsOperator_update _ _ s.options) fun _ _ => failsOnly_ok _
  | plus | times | divide => exact failsAsOperator_arithmetic args _
  | add | priority | min | max | rowMean => exact failsAsOperator_reduction args _ _
  | abs | cumsum => exact failsOnly_bind (hfirst _) fun _ _ => failsOnly_ok _
  | round =>
    exact failsOnly_bind (failsAsOperator_optional _ fun v => v.failsAsOperator_asInt _) fun _ _ =>
      failsOnly_bind (hfirst _) fun _ _ => failsOnly_ok _
  | clip =>
    exact failsOnly_bind (failsAsOperator_optional _ fun v => v.failsAsOperator_asFloat _)
      fun _ _ => failsOnly_bind
        (failsAsOperator_optional _ fun v => v.failsAsOperator_asFloat _) fun _ _ =>
          failsOnly_bind (hfirst _) fun _ _ => failsOnly_ok _
  | slice =>
    exact failsOnly_bind (failsAsOperator_sliceWindow _) fun _ _ =>
      failsOnly_bind (hfirst _) fun _ _ => failsOnly_ok _
  | naive =>
    exact failsOnly_bind (failsAsOperator_get args _ 1) fun v _ =>
      failsOnly_bind (v.failsAsOperator_asString _) fun name _ =>
        failsOnly_bind (failsAsOperator_zone _ name) fun _ _ =>
          failsOnly_bind (hfirst _) fun _ _ => failsAsOperator_frame _
  | date =>
    exact failsOnly_bind (failsAsOperator_optional _ fun v => v.failsAsOperator_asString _)
      fun zoneName _ => failsOnly_bind (failsAsOperator_get args _ 0) fun v _ =>
        failsOnly_bind (v.failsAsOperator_asString _) fun text _ =>
          failsOnly_bind (failsAsOperator_dateOf text zoneName) fun _ _ => failsOnly_ok _
  | constant =>
    exact failsOnly_bind (failsAsOperator_ofArgs args) fun c _ =>
      failsOnly_bind (failsAsOperator_readConstant c query) fun _ _ => failsOnly_ok _
  | groupAdd => exact failsOnly_bind (failsAsOperator_groupSum args) fun _ _ => failsOnly_ok _

/-- The history of a call fails in the same way, -/
theorem failsOnly_history (b : Builtin) (args : Args) (query : HistoryQuery) :
    FailsAsOperator (Operator.history args query (.builtin b)) := by
  cases b with
  | constant =>
    refine failsOnly_bind (failsAsOperator_ofArgs args) fun c _ => ?_
    unfold Constant.history
    split
    · exact failsOnly_map _ (failsAsOperator_constantSeries c _)
    · exact failsOnly_ok _
  | _ => exact failsOnly_ok _

/-- and so do its insertion dates -/
theorem failsOnly_insertionDates (b : Builtin) (args : Args) (inserted : Window) :
    FailsAsOperator (Operator.insertionDates args inserted (.builtin b)) := by
  cases b with
  | constant => exact failsOnly_bind (failsAsOperator_ofArgs args) fun _ _ => failsOnly_ok _
  | _ => exact failsOnly_ok _

/-- and what arguments are asked for. -/
theorem failsOnly_childQuery (b : Builtin) (keywords : OrderedMap String Value) (query : Query) :
    FailsAsOperator (b.childQuery keywords query) := by
  cases b with
  | slice => exact failsOnly_bind (failsAsOperator_sliceWindow keywords) fun _ _ => failsOnly_ok _
  | _ => exact failsOnly_ok _

end Builtin

end SeriesAlgebra
