import SeriesAlgebra.Proofs.Evaluation.Leaves
import SeriesAlgebra.Proofs.Operator.Constant

/-!
# Options that formulas carry

A series leaf may set options, and some operators hand the options of an argument on
to their result: `options`, the operators that work on one series, and arithmetic
between a series and a scalar. All others drop them. So it can be read off a formula
whether its value may carry options (`Tree.CarriesOptions`); if it does not carry any,
its value has none (`Evaluation.unset_of_gives`).
-/

namespace SeriesAlgebra

open Evaluation Reading

/-- Whether an operator makes a series of one and leaves its options as they are. -/
def Builtin.keepsOptions : Builtin → Bool
  | .abs | .round | .clip | .slice | .cumsum => true
  | _ => false

namespace Tree

/-- **Whether the value of a formula may carry options.** -/
inductive CarriesOptions : Tree → Prop
  /-- A call that sets them. -/
  | sets {items : List Tree} {b : Builtin} (hb : Calls items b) (hset : b = .series ∨ b = .options)
      (hkeyword : keywordNames items.tail ≠ []) : CarriesOptions (list items)
  /-- A call that leaves them as they are. -/
  | keeps {items : List Tree} {b : Builtin} (hb : Calls items b)
      (hkeep : b = .options ∨ b.keepsOptions = true) {t : Tree} (ht : t ∈ items.tail)
      (h : CarriesOptions t) : CarriesOptions (list items)
  /-- Arithmetic with a scalar. -/
  | scales {items : List Tree} {b : Builtin} (hb : Calls items b) (hscale : b.isArithmetic = true)
      {t : Tree} (ht : t ∈ items.tail) (h : CarriesOptions t) {u : Tree} (hu : u ∈ items.tail)
      (hscalar : u.IsScalar) : CarriesOptions (list items)

end Tree

namespace Evaluation

open SeriesAlgebra.Tree

variable {σ : Type} {A : Resolver σ}

/-! ### What the evaluation of a call gives -/

/-- Whether a tree has a value for a query, from some state on. -/
def HasValue (A : Resolver σ) (q : Query) (t : Tree) (v : Value) : Prop :=
  ∃ s s', Gives (evaluate .builtin A t q) s v s'

theorem hasValue_of_positional {args : List Tree} {q : Query} {s s' : σ} {vs : List Value}
    (h : Gives (evaluatePositional .builtin A args q) s vs s') :
    ∃ ts, ts.Sublist args ∧ List.Forall₂ (HasValue A q) ts vs := by
  induction args using args_induct generalizing s s' vs with
  | nil =>
    rw [evaluatePositional] at h
    obtain ⟨rfl, -⟩ := gives_pure.1 h
    exact ⟨[], List.nil_sublist _, .nil⟩
  | dangling a name ha =>
    rw [evaluatePositional, ha] at h
    obtain ⟨rfl, -⟩ := gives_pure.1 h
    exact ⟨[], List.nil_sublist _, .nil⟩
  | keyword a b rest name ha ih =>
    rw [evaluatePositional_keyword A ha] at h
    obtain ⟨ts, hts, hvs⟩ := ih h
    exact ⟨ts, (hts.cons b).cons a, hvs⟩
  | positional a rest ha ih =>
    rw [evaluatePositional_positional A ha] at h
    obtain ⟨v, s₁, hv, h⟩ := gives_bind.1 h
    obtain ⟨vs', s₂, hvs, h⟩ := gives_bind.1 h
    obtain ⟨rfl, -⟩ := gives_pure.1 h
    obtain ⟨ts, hts, hall⟩ := ih hvs
    exact ⟨a :: ts, hts.cons_cons a, .cons ⟨s, s₁, hv⟩ hall⟩

theorem names_of_keywords {args : List Tree} {q : Query} {s s' : σ}
    {entries : List (String × Value)}
    (h : Gives (evaluateKeywords .builtin A args q) s entries s') :
    ∀ entry ∈ entries, entry.1 ∈ keywordNames args := by
  have hself : List.Forall₂ (fun t u => u.keywordName? = t.keywordName? ∧
      (Comparison.agree σ σ).Holds (fun _ _ => True) (evaluate .builtin A t q)
        fun _ => evaluate .builtin A u q) args args :=
    List.forall₂_same.2 fun t _ => ⟨rfl, fun _ _ _ _ _ _ _ _ => trivial⟩
  exact (Compares.keywords (B := fun _ => A) hself s entries s' s entries s' h h).2

/-- What the evaluation of a call gives: its operator applied to values of its arguments. -/
theorem exists_of_gives_call {items : List Tree} {b : Builtin} (hb : Calls items b)
    (happlied : isApplied b = true) {q : Query} {s s' : σ} {v : Value}
    (h : Gives (evaluate .builtin A (list items) q) s v s') :
    ∃ (entries : List (String × Value)) (c : Query) (ts : List Tree) (vs : List Value),
      (∀ entry ∈ entries, entry.1 ∈ keywordNames items.tail) ∧ ts.Sublist items.tail ∧
      List.Forall₂ (HasValue A c) ts vs ∧ b.apply ⟨vs, .ofList entries⟩ q = .ok v := by
  rw [evaluate_call A hb happlied] at h
  obtain ⟨_, _, -, h⟩ := gives_bind.1 h
  obtain ⟨m, s₁, hm, h⟩ := gives_bind.1 h
  obtain ⟨entries, s₂, hentries, hm⟩ := gives_bind.1 hm
  obtain ⟨rfl, -⟩ := gives_pure.1 hm
  obtain ⟨c, s₃, -, h⟩ := gives_bind.1 h
  obtain ⟨vs, s₄, hvs, h⟩ := gives_bind.1 h
  obtain ⟨ts, hts, hall⟩ := hasValue_of_positional hvs
  exact ⟨entries, c, ts, vs, names_of_keywords hentries, hts, hall, (gives_settle.1 h).1⟩

theorem exists_of_get {ts : List Tree} {args : Args} {q : Query}
    (h : List.Forall₂ (HasValue A q) ts args.positional) {position : Nat} {operator : String}
    {v : Value} (hv : args.get position operator = .ok v) :
    ∃ t, ts[position]? = some t ∧ HasValue A q t v := by
  have hposition : args.positional[position]? = some v := by
    unfold Args.get at hv
    split at hv
    · rename_i w hw
      rw [hw, Except.ok.inj hv]
    · cases hv
  clear hv
  generalize args.positional = vs at h hposition
  induction h generalizing position with
  | nil => cases hposition
  | @cons t w ts ws htw _ ih =>
    cases position with
    | zero =>
      obtain rfl := Option.some.inj hposition
      exact ⟨t, rfl, htw⟩
    | succ n => exact ih hposition

theorem exists_of_firstSeries {ts : List Tree} {args : Args} {q : Query}
    (h : List.Forall₂ (HasValue A q) ts args.positional) {operator : String} {r : Series}
    (hr : Application.firstSeries args operator = .ok r) :
    ∃ t ∈ ts, HasValue A q t (.series r) := by
  obtain ⟨v, hv, hr⟩ := Result.bind_ok hr
  obtain ⟨t, ht, hvalue⟩ := exists_of_get h hv
  cases v with
  | series s =>
    obtain rfl := Except.ok.inj hr
    exact ⟨t, List.mem_of_getElem? ht, hvalue⟩
  | _ => cases hr

/-! ### Scalars and series -/

/-- Whether a value is a series. -/
def IsSeries (v : Value) : Prop := ∃ r, v = .series r

/-- The result of an operator that is neither arithmetic nor `date` is a series. -/
theorem isSeries_of_apply {b : Builtin} (happlied : isApplied b = true) (hb : b ≠ .groupAdd)
    (hscalar : b.isScalar = false) {args : Args} {q : Query} {v : Value}
    (h : b.apply args q = .ok v) : IsSeries v := by
  have hreduction {b : Builtin} {reduce : String → List Series → Except FrameError Series}
      (h : Application.reduction b args reduce = .ok v) : IsSeries v := by
    obtain ⟨inputs, -, h⟩ := Result.bind_ok h
    obtain ⟨r, -, rfl⟩ := Result.map_ok (Result.mapError_ok h)
    exact ⟨r, rfl⟩
  cases b with
  | series => cases happlied
  | group => cases happlied
  | constant => cases happlied
  | groupAdd => exact absurd rfl hb
  | plus => cases hscalar
  | times => cases hscalar
  | divide => cases hscalar
  | date => cases hscalar
  | add => exact hreduction h
  | priority => exact hreduction h
  | min => exact hreduction h
  | max => exact hreduction h
  | rowMean => exact hreduction h
  | options =>
    obtain ⟨s, -, h⟩ := Result.bind_ok h
    obtain ⟨o, -, h⟩ := Result.bind_ok h
    exact ⟨_, (Except.ok.inj h).symm⟩
  | abs =>
    obtain ⟨s, -, h⟩ := Result.bind_ok h
    exact ⟨_, (Except.ok.inj h).symm⟩
  | cumsum =>
    obtain ⟨s, -, h⟩ := Result.bind_ok h
    exact ⟨_, (Except.ok.inj h).symm⟩
  | round =>
    obtain ⟨_, -, h⟩ := Result.bind_ok h
    obtain ⟨s, -, h⟩ := Result.bind_ok h
    exact ⟨_, (Except.ok.inj h).symm⟩
  | clip =>
    obtain ⟨_, -, h⟩ := Result.bind_ok h
    obtain ⟨_, -, h⟩ := Result.bind_ok h
    obtain ⟨s, -, h⟩ := Result.bind_ok h
    exact ⟨_, (Except.ok.inj h).symm⟩
  | slice =>
    obtain ⟨_, -, h⟩ := Result.bind_ok h
    obtain ⟨s, -, h⟩ := Result.bind_ok h
    exact ⟨_, (Except.ok.inj h).symm⟩
  | naive =>
    obtain ⟨_, -, h⟩ := Result.bind_ok h
    obtain ⟨_, -, h⟩ := Result.bind_ok h
    obtain ⟨_, -, h⟩ := Result.bind_ok h
    obtain ⟨s, -, h⟩ := Result.bind_ok h
    obtain ⟨r, -, rfl⟩ := Result.map_ok (Result.mapError_ok h)
    exact ⟨r, rfl⟩

/-- No formula that gives a series has a table in it. -/
theorem not_table (hA : A.autotrophic = Resolver.noAutotrophic) {t : Tree}
    (ht : t.Everywhere IsFormulaNode) {q : Query} {v : Value} (h : HasValue A q t v) :
    v.type ≠ .table := by
  obtain ⟨s, s', hgives⟩ := h
  have hsame (name : String) (q : Query) : (Comparison.lockstep Eq).Holds Series.Similar
      (A.series name q) fun _ => A.series name q := by
    rintro s _ rfl r s' hr
    exact ⟨r, s', hr, Series.Similar.refl r, rfl⟩
  obtain ⟨w, _, -, hvw, -⟩ :=
    (Comparison.lockstep Eq).holds_evaluate hA (fun _ => hA) hsame ht q s s rfl v s' hgives
  cases hvw <;> exact TypeTag.noConfusion

theorem combine_scalar_right (op : Arithmetic) (s : Series) {w : Value} (hw : ¬ IsSeries w)
    (htable : w.type ≠ .table) : Value.combine op (.series s) w =
      (w.asFloat op.symbol).map fun y => .series (s.withScalar op y false) := by
  cases w with
  | series t => exact absurd ⟨t, rfl⟩ hw
  | table f => exact absurd rfl htable
  | _ => rfl

theorem combine_scalar_left (op : Arithmetic) (s : Series) {v : Value} (hv : ¬ IsSeries v)
    (htable : v.type ≠ .table) : Value.combine op v (.series s) =
      (v.asFloat op.symbol).map fun x => .series (s.withScalar op x true) := by
  cases v with
  | series t => exact absurd ⟨t, rfl⟩ hv
  | table f => exact absurd rfl htable
  | _ => rfl

/-- Arithmetic with at least one series gives a series. -/
theorem isSeries_of_combine {op : Arithmetic} {v w r : Value} (hv : v.type ≠ .table)
    (hw : w.type ≠ .table) (hseries : IsSeries v ∨ IsSeries w) (h : v.combine op w = .ok r) :
    IsSeries r := by
  by_cases hboth : IsSeries v ∧ IsSeries w
  · obtain ⟨⟨s, rfl⟩, t, rfl⟩ := hboth
    obtain ⟨r, -, rfl⟩ := Result.map_ok (Result.mapError_ok h)
    exact ⟨r, rfl⟩
  · rcases hseries with ⟨s, rfl⟩ | ⟨s, rfl⟩
    · rw [combine_scalar_right op s (fun hw => hboth ⟨⟨s, rfl⟩, hw⟩) hw] at h
      obtain ⟨y, -, rfl⟩ := Result.map_ok h
      exact ⟨_, rfl⟩
    · rw [combine_scalar_left op s (fun hv => hboth ⟨hv, s, rfl⟩) hv] at h
      obtain ⟨y, -, rfl⟩ := Result.map_ok h
      exact ⟨_, rfl⟩

/-- Arithmetic of scalars gives a scalar. -/
theorem not_isSeries_of_combine {op : Arithmetic} {v w r : Value} (hv : ¬ IsSeries v)
    (hw : ¬ IsSeries w) (hvt : v.type ≠ .table) (hwt : w.type ≠ .table)
    (h : v.combine op w = .ok r) : ¬ IsSeries r := by
  have hnumbers (v w : Value) (h : Value.combineNumbers op v w = .ok r) : ¬ IsSeries r := by
    obtain ⟨x, -, h⟩ := Result.bind_ok h
    obtain ⟨y, -, h⟩ := Result.bind_ok h
    rintro ⟨s, rfl⟩
    cases h
  cases v with
  | series s => exact absurd ⟨s, rfl⟩ hv
  | table f => exact absurd rfl hvt
  | int m =>
    cases w with
    | series s => exact absurd ⟨s, rfl⟩ hw
    | table f => exact absurd rfl hwt
    | int n =>
      rw [Value.combine] at h
      split at h
      · rintro ⟨s, rfl⟩
        cases h
      · exact hnumbers _ _ h
    | _ => exact hnumbers _ _ h
  | _ =>
    cases w with
    | series s => exact absurd ⟨s, rfl⟩ hw
    | table f => exact absurd rfl hwt
    | _ => exact hnumbers _ _ h

/-- Arithmetic of two series drops their options. -/
theorem unset_of_combine {op : Arithmetic} {s t r : Series} (h : s.combine t op = .ok r) :
    r.options = .unset := by
  obtain ⟨_, -, h⟩ := Result.bind_ok h
  unfold Series.ofIndex? at h
  dsimp only at h
  split at h
  · rw [← Except.ok.inj h]
    rfl
  · cases h

/-- The two operands of arithmetic. -/
theorem operands_of_arithmetic {op : Arithmetic} {args : Args} {v : Value} {q : Query}
    {ts items : List Tree} (hts : ts.Sublist items) (hlength : items.length = 2)
    (hvs : List.Forall₂ (HasValue A q) ts args.positional)
    (h : Application.arithmetic op args = .ok v) :
    ∃ x y left right, items = [x, y] ∧ HasValue A q x left ∧ HasValue A q y right ∧
      left.combine op right = .ok v := by
  obtain ⟨right, hright, h⟩ := Result.bind_ok h
  obtain ⟨left, hleft, h⟩ := Result.bind_ok h
  obtain ⟨y, hy, hyvalue⟩ := exists_of_get hvs hright
  obtain ⟨x, hx, hxvalue⟩ := exists_of_get hvs hleft
  have hlong : 1 < ts.length := (List.getElem?_eq_some_iff.1 hy).1
  obtain rfl : ts = items := hts.eq_of_length_le (by omega)
  obtain ⟨a, b, rfl⟩ := List.length_eq_two.1 hlength
  obtain rfl := Option.some.inj hx
  obtain rfl := Option.some.inj hy
  exact ⟨a, b, left, right, rfl, hxvalue, hyvalue, h⟩

/-- The operation of an operator that is arithmetic. -/
theorem exists_arithmetic {b : Builtin} (hb : b.isArithmetic = true) :
    isApplied b = true ∧ ∃ op, ∀ args q, b.apply args q = Application.arithmetic op args := by
  cases b <;> first | exact ⟨rfl, _, fun _ _ => rfl⟩ | cases hb

/-- **The value of a formula that is no scalar is a series.** -/
theorem isScalar_or_isSeries (hA : A.autotrophic = Resolver.noAutotrophic) {t : Tree}
    (ht : t.Everywhere IsFormulaNode) {q : Query} {v : Value} (h : HasValue A q t v) :
    t.IsScalar ∨ IsSeries v := by
  induction t using inductionOn generalizing q v with
  | atom l => exact Or.inl (everywhere_atom.2 trivial)
  | list items ih =>
    obtain ⟨⟨b, hb, hgroup, hgroupAdd, hscalar, hlength⟩, hitems⟩ := everywhere_list.1 ht
    obtain ⟨s, s', hgives⟩ := h
    have hlist (hb' : b.isScalar = true) (htail : ∀ a ∈ items.tail, a.IsScalar) :
        (list items).IsScalar := by
      obtain ⟨args, rfl⟩ := list_of_calls hb
      refine everywhere_list.2 ⟨⟨b, hb, hb'⟩, fun a ha => ?_⟩
      rcases List.mem_cons.1 ha with rfl | ha
      · exact everywhere_atom.2 trivial
      · exact htail a ha
    by_cases harithmetic : b.isArithmetic = true
    · obtain ⟨happlied, op, hop⟩ := exists_arithmetic harithmetic
      obtain ⟨entries, c, ts, vs, -, hts, hvs, happly⟩ := exists_of_gives_call hb happlied hgives
      rw [hop] at happly
      obtain ⟨x, y, left, right, htail, hx, hy, hcombine⟩ :=
        operands_of_arithmetic hts (hlength harithmetic) hvs happly
      have hxmem : x ∈ items.tail := by rw [htail]; simp
      have hymem : y ∈ items.tail := by rw [htail]; simp
      have hxnode := hitems x (List.mem_of_mem_tail hxmem)
      have hynode := hitems y (List.mem_of_mem_tail hymem)
      have hseries (h : IsSeries left ∨ IsSeries right) : IsSeries v :=
        isSeries_of_combine (not_table hA hxnode hx) (not_table hA hynode hy) h hcombine
      rcases ih x (List.mem_of_mem_tail hxmem) hxnode hx with hxs | hxs
      · rcases ih y (List.mem_of_mem_tail hymem) hynode hy with hys | hys
        · refine Or.inl (hlist (by rw [Builtin.isScalar, harithmetic]; rfl) fun a ha => ?_)
          rw [htail] at ha
          rcases List.mem_cons.1 ha with rfl | ha
          · exact hxs
          · obtain rfl := List.mem_singleton.1 ha
            exact hys
        · exact Or.inr (hseries (Or.inr hys))
      · exact Or.inr (hseries (Or.inl hxs))
    · by_cases hdate : b = .date
      · exact Or.inl (hlist (by rw [hdate]; rfl) (hscalar (Or.inr (Or.inr hdate))))
      · right
        cases happlied : isApplied b with
        | true =>
          obtain ⟨entries, c, ts, vs, -, -, -, happly⟩ := exists_of_gives_call hb happlied hgives
          refine isSeries_of_apply happlied hgroupAdd ?_ happly
          rw [Builtin.isScalar, Bool.eq_false_iff.2 harithmetic, Bool.false_or,
            beq_eq_false_iff_ne]
          exact hdate
        | false =>
          cases b with
          | group => exact absurd rfl hgroup
          | series =>
            have htail := hscalar (Or.inl rfl)
            cases hname : leafName? items with
            | none =>
              rw [evaluate_nameless A hb hname] at hgives
              exact (gives_throw.1 hgives).elim
            | some name =>
              rw [evaluate_series A hb htail hname] at hgives
              obtain ⟨o, _, -, hgives⟩ := gives_bind.1 hgives
              obtain ⟨r, _, -, hgives⟩ := gives_bind.1 hgives
              exact ⟨_, (gives_pure.1 hgives).1.symm⟩
          | constant =>
            rw [evaluate_constant A hb (hscalar (Or.inr (Or.inl rfl))), hA] at hgives
            obtain ⟨_, _, hnone, hgives⟩ := gives_bind.1 hgives
            obtain ⟨rfl, -⟩ := gives_pure.1 hnone
            obtain ⟨c, -, hgives⟩ := Result.bind_ok (gives_settle.1 hgives).1
            obtain ⟨r, -, hgives⟩ := Result.bind_ok hgives
            exact ⟨r, (Except.ok.inj hgives).symm⟩
          | _ => cases happlied

/-! ### Options -/

/-- The options of the series that an operator makes of one, or of several. -/
theorem options_of_apply {b : Builtin} (happlied : isApplied b = true) (hb : b ≠ .groupAdd)
    (hscalar : b.isScalar = false) (hoptions : b ≠ .options) {args : Args} {q : Query} {r : Series}
    (h : b.apply args q = .ok (.series r)) :
    r.options = .unset ∨ b.keepsOptions = true ∧
      ∃ s, Application.firstSeries args b.name = .ok s ∧ r.options = s.options := by
  have hreduction {b : Builtin} {reduce : String → List Series → Except FrameError Series}
      (hreduce : ∀ inputs r, reduce b.name inputs = .ok r → r.options = .unset)
      (h : Application.reduction b args reduce = .ok (.series r)) : r.options = .unset := by
    obtain ⟨inputs, -, h⟩ := Result.bind_ok h
    obtain ⟨r', hr, heq⟩ := Result.map_ok (Result.mapError_ok h)
    obtain rfl := Value.series.inj heq
    exact hreduce inputs r' hr
  have hrows {operation : String} {inputs : List Series} {combine : Except FrameError Frame}
      {f : Frame → Series} (hf : ∀ frame, (f frame).options = .unset) {r : Series}
      (h : Reduction.ofInputs operation inputs (fun _ => do return f (← combine)) = .ok r) :
      r.options = .unset := by
    unfold Reduction.ofInputs at h
    split at h
    · cases h
    · obtain ⟨frame, -, h⟩ := Result.bind_ok h
      rw [← Except.ok.inj h]
      exact hf frame
  cases b with
  | series => cases happlied
  | group => cases happlied
  | constant => cases happlied
  | groupAdd => exact absurd rfl hb
  | plus => cases hscalar
  | times => cases hscalar
  | divide => cases hscalar
  | date => cases hscalar
  | options => exact absurd rfl hoptions
  | add => exact Or.inl (hreduction (fun _ _ h => hrows (fun _ => rfl) h) h)
  | priority => exact Or.inl (hreduction (fun _ _ h => hrows (fun _ => rfl) h) h)
  | min => exact Or.inl (hreduction (fun _ _ h => hrows (fun _ => rfl) h) h)
  | max => exact Or.inl (hreduction (fun _ _ h => hrows (fun _ => rfl) h) h)
  | rowMean => exact Or.inl (hreduction (fun _ _ h => hrows (fun _ => rfl) h) h)
  | abs =>
    obtain ⟨s, hs, h⟩ := Result.bind_ok h
    exact Or.inr ⟨rfl, s, hs, by rw [← Value.series.inj (Except.ok.inj h)]; rfl⟩
  | cumsum =>
    obtain ⟨s, hs, h⟩ := Result.bind_ok h
    exact Or.inr ⟨rfl, s, hs, by rw [← Value.series.inj (Except.ok.inj h)]; rfl⟩
  | round =>
    obtain ⟨_, -, h⟩ := Result.bind_ok h
    obtain ⟨s, hs, h⟩ := Result.bind_ok h
    exact Or.inr ⟨rfl, s, hs, by rw [← Value.series.inj (Except.ok.inj h)]; rfl⟩
  | clip =>
    obtain ⟨_, -, h⟩ := Result.bind_ok h
    obtain ⟨_, -, h⟩ := Result.bind_ok h
    obtain ⟨s, hs, h⟩ := Result.bind_ok h
    exact Or.inr ⟨rfl, s, hs, by rw [← Value.series.inj (Except.ok.inj h)]; rfl⟩
  | slice =>
    obtain ⟨w, -, h⟩ := Result.bind_ok h
    obtain ⟨s, hs, h⟩ := Result.bind_ok h
    refine Or.inr ⟨rfl, s, hs, ?_⟩
    rw [← Value.series.inj (Except.ok.inj h)]
    unfold Series.window
    split <;> rfl
  | naive =>
    obtain ⟨_, -, h⟩ := Result.bind_ok h
    obtain ⟨_, -, h⟩ := Result.bind_ok h
    obtain ⟨z, -, h⟩ := Result.bind_ok h
    obtain ⟨s, -, h⟩ := Result.bind_ok h
    obtain ⟨r', hr, heq⟩ := Result.map_ok (Result.mapError_ok h)
    obtain rfl := Value.series.inj heq
    unfold Application.toClocks Series.ofPoints? at hr
    dsimp only at hr
    split at hr
    · rw [← Except.ok.inj hr]
      exact Or.inl rfl
    · cases hr

/-- The options of a series leaf are those that its keywords set. -/
theorem exists_of_leafOptions {items : List Tree} {o : SeriesOptions} (h : leafOptions items = .ok o) :
    ∃ entries : List (String × Value), (∀ entry ∈ entries, entry.1 ∈ keywordNames items.tail) ∧
      SeriesOptions.unset.update Builtin.series.name (.ofList entries) = .ok o := by
  obtain ⟨_, -, h⟩ := Result.bind_ok h
  obtain ⟨entries, hentries, h⟩ := Result.bind_ok h
  have hgives : Gives (evaluateKeywords .builtin silent items.tail .latest) () entries () :=
    Prod.ext hentries rfl
  exact ⟨entries, names_of_keywords hgives, h⟩

/-- Keywords that are none set no options. -/
theorem update_nil (o : SeriesOptions) (operator : String) :
    o.update operator (.ofList []) = .ok o := rfl

theorem eq_nil_of_names {args : List Tree} (hargs : keywordNames args = [])
    {entries : List (String × Value)} (h : ∀ entry ∈ entries, entry.1 ∈ keywordNames args) :
    entries = [] := by
  rw [hargs] at h
  exact List.eq_nil_iff_forall_not_mem.2 fun entry hentry => List.not_mem_nil (h entry hentry)

/-- A series leaf without keywords sets no options. -/
theorem unset_of_leafOptions {items : List Tree} (hitems : keywordNames items.tail = [])
    {o : SeriesOptions} (h : leafOptions items = .ok o) : o = .unset := by
  obtain ⟨entries, hentries, h⟩ := exists_of_leafOptions h
  rw [eq_nil_of_names hitems hentries, update_nil] at h
  exact (Except.ok.inj h).symm

/-- A series leaf that neither fills nor prunes sets no such options. -/
theorem plain_of_leafOptions {items : List Tree} (hitems : IsPlainCall items) {o : SeriesOptions}
    (h : leafOptions items = .ok o) : o.fill = none ∧ o.prune = none := by
  obtain ⟨entries, hentries, h⟩ := exists_of_leafOptions h
  refine plain_of_update (hitems.find? fun name hname => ?_) h
  obtain ⟨entry, hentry, rfl⟩ :=
    List.mem_map.1 (OrderedMap.mem_keys_ofList.1 (OrderedMap.contains_iff.1 hname))
  exact hentries entry hentry

/-- **The value of a formula that carries no options has none.** -/
theorem unset_of_gives (hA : A.autotrophic = Resolver.noAutotrophic) {t : Tree}
    (ht : t.Everywhere IsFormulaNode) (hcarries : ¬ t.CarriesOptions) {q : Query} {r : Series}
    (h : HasValue A q t (.series r)) : r.options = .unset := by
  induction t using inductionOn generalizing q r with
  | atom l =>
    obtain ⟨s, s', h⟩ := h
    rw [evaluate] at h
    cases l <;> cases (gives_pure.1 h).1
  | list items ih =>
    obtain ⟨⟨b, hb, hgroup, hgroupAdd, hscalar, hlength⟩, hitems⟩ := everywhere_list.1 ht
    obtain ⟨s, s', hgives⟩ := h
    have harg {a : Tree} (ha : a ∈ items.tail) (hnot : ¬ a.CarriesOptions) {c : Query} {u : Series}
        (hu : HasValue A c a (.series u)) : u.options = .unset :=
      ih a (List.mem_of_mem_tail ha) (hitems a (List.mem_of_mem_tail ha)) hnot hu
    by_cases harithmetic : b.isArithmetic = true
    · -- Only one of the operands can be a series that hands its options on.
      obtain ⟨happlied, op, hop⟩ := exists_arithmetic harithmetic
      obtain ⟨entries, c, ts, vs, -, hts, hvs, happly⟩ := exists_of_gives_call hb happlied hgives
      rw [hop] at happly
      obtain ⟨x, y, left, right, htail, hx, hy, hcombine⟩ :=
        operands_of_arithmetic hts (hlength harithmetic) hvs happly
      have hxmem : x ∈ items.tail := by rw [htail]; simp
      have hymem : y ∈ items.tail := by rw [htail]; simp
      have hxnode := hitems x (List.mem_of_mem_tail hxmem)
      have hynode := hitems y (List.mem_of_mem_tail hymem)
      have hleft := not_table hA hxnode hx
      have hright := not_table hA hynode hy
      by_cases hls : IsSeries left
      · obtain ⟨u, rfl⟩ := hls
        by_cases hrs : IsSeries right
        · obtain ⟨w, rfl⟩ := hrs
          obtain ⟨r', hr', heq⟩ := Result.map_ok (Result.mapError_ok hcombine)
          obtain rfl := Value.series.inj heq
          exact unset_of_combine hr'
        · have hscalar := (isScalar_or_isSeries hA hynode hy).resolve_right hrs
          rw [combine_scalar_right op u hrs hright] at hcombine
          obtain ⟨z, -, heq⟩ := Result.map_ok hcombine
          rw [← Value.series.inj heq]
          change u.options = .unset
          exact harg hxmem (fun hx => hcarries (.scales hb harithmetic hxmem hx hymem hscalar)) hx
      · have hscalar := (isScalar_or_isSeries hA hxnode hx).resolve_right hls
        obtain ⟨w, rfl⟩ : IsSeries right := by
          by_contra hrs
          exact not_isSeries_of_combine hls hrs hleft hright hcombine ⟨r, rfl⟩
        rw [combine_scalar_left op w hls hleft] at hcombine
        obtain ⟨z, -, heq⟩ := Result.map_ok hcombine
        rw [← Value.series.inj heq]
        change w.options = .unset
        exact harg hymem (fun hy => hcarries (.scales hb harithmetic hymem hy hxmem hscalar)) hy
    · by_cases hdate : b = .date
      · subst hdate
        obtain ⟨entries, c, ts, vs, -, -, -, happly⟩ := exists_of_gives_call hb rfl hgives
        obtain ⟨_, -, happly⟩ := Result.bind_ok happly
        obtain ⟨_, -, happly⟩ := Result.bind_ok happly
        obtain ⟨_, -, happly⟩ := Result.bind_ok happly
        obtain ⟨_, -, happly⟩ := Result.bind_ok happly
        cases happly
      · by_cases hoptions : b = .options
        · subst hoptions
          obtain ⟨entries, c, ts, vs, hnames, hts, hvs, happly⟩ :=
            exists_of_gives_call hb rfl hgives
          have htail : keywordNames items.tail = [] := by
            by_contra hne
            exact hcarries (.sets hb (Or.inr rfl) hne)
          obtain rfl := eq_nil_of_names htail hnames
          obtain ⟨u, hu, happly⟩ := Result.bind_ok happly
          obtain ⟨a, ha, hvalue⟩ := exists_of_firstSeries hvs hu
          rw [update_nil] at happly
          rw [← Value.series.inj (Except.ok.inj happly)]
          have hmem := hts.subset ha
          exact harg hmem (fun h => hcarries (.keeps hb (Or.inl rfl) hmem h)) hvalue
        · cases happlied : isApplied b with
          | true =>
            obtain ⟨entries, c, ts, vs, -, hts, hvs, happly⟩ :=
              exists_of_gives_call hb happlied hgives
            have hnot : b.isScalar = false := by
              rw [Builtin.isScalar, Bool.eq_false_iff.2 harithmetic, Bool.false_or,
                beq_eq_false_iff_ne]
              exact hdate
            rcases options_of_apply happlied hgroupAdd hnot hoptions happly with
              h | ⟨hkeeps, u, hu, h⟩
            · exact h
            · obtain ⟨a, ha, hvalue⟩ := exists_of_firstSeries hvs hu
              have hmem := hts.subset ha
              rw [h]
              exact harg hmem (fun h => hcarries (.keeps hb (Or.inr hkeeps) hmem h)) hvalue
          | false =>
            cases b with
            | group => exact absurd rfl hgroup
            | series =>
              have htail := hscalar (Or.inl rfl)
              cases hname : leafName? items with
              | none =>
                rw [evaluate_nameless A hb hname] at hgives
                exact (gives_throw.1 hgives).elim
              | some name =>
                rw [evaluate_series A hb htail hname] at hgives
                obtain ⟨o, _, ho, hgives⟩ := gives_bind.1 hgives
                obtain ⟨u, _, -, hgives⟩ := gives_bind.1 hgives
                rw [← Value.series.inj (gives_pure.1 hgives).1]
                refine unset_of_leafOptions ?_ (gives_settle.1 ho).1
                by_contra hne
                exact hcarries (.sets hb (Or.inl rfl) hne)
            | constant =>
              rw [evaluate_constant A hb (hscalar (Or.inr (Or.inl rfl))), hA] at hgives
              obtain ⟨_, _, hnone, hgives⟩ := gives_bind.1 hgives
              obtain ⟨rfl, -⟩ := gives_pure.1 hnone
              obtain ⟨c, -, hgives⟩ := Result.bind_ok (gives_settle.1 hgives).1
              obtain ⟨u, hu, hgives⟩ := Result.bind_ok hgives
              rw [← Value.series.inj (Except.ok.inj hgives)]
              exact Constant.unset_of_read hu
            | _ => cases happlied

end Evaluation

end SeriesAlgebra
