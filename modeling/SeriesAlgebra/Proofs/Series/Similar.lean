import SeriesAlgebra.Operator.Application
import SeriesAlgebra.Proofs.Double
import SeriesAlgebra.Proofs.Result

/-!
# Series that differ in their names

Two series are similar if they have the same points and the same options
(`Series.Similar`). The name of a series has no influence on what is computed from it:
every operation on series makes similar series of similar ones, and fails for the one
if it fails for the other.
-/

namespace SeriesAlgebra

namespace Series

/-- **Whether two series differ at most in their names.** -/
structure Similar (s t : Series) : Prop where
  points : s.points = t.points
  options : s.options = t.options

namespace Similar

theorem refl (s : Series) : s.Similar s := ⟨rfl, rfl⟩

theorem symm {s t : Series} (h : s.Similar t) : t.Similar s := ⟨h.points.symm, h.options.symm⟩

theorem trans {s t u : Series} (h : s.Similar t) (h' : t.Similar u) : s.Similar u :=
  ⟨h.points.trans h'.points, h.options.trans h'.options⟩

variable {s t : Series} (h : s.Similar t)

include h

theorem eq_withName : t = s.withName t.name := by
  obtain ⟨name, points, options⟩ := t
  obtain ⟨hpoints, hoptions⟩ := h
  dsimp only at hpoints hoptions ⊢
  rw [← hpoints, ← hoptions]
  rfl

theorem index : s.index = t.index := by rw [Series.index, Series.index, h.points]

theorem withName (name name' : String) : (s.withName name).Similar (t.withName name') :=
  ⟨h.points, h.options⟩

theorem withOptions (options : SeriesOptions) : (s.withOptions options).Similar (t.withOptions options) :=
  ⟨h.points, rfl⟩

theorem window (w : Window) : (s.window w).Similar (t.window w) := by
  rw [h.eq_withName]
  unfold Series.window
  split <;> exact ⟨rfl, rfl⟩

theorem reindex (target : TimeIndex) : (s.reindex target).Similar (t.reindex target) := by
  rw [h.eq_withName]
  exact ⟨rfl, rfl⟩

theorem fill (policy : FillPolicy) : (s.fill policy).Similar (t.fill policy) := by
  rw [h.eq_withName]
  exact ⟨rfl, rfl⟩

theorem mapValues (f : Float → Float) : (s.mapValues f).Similar (t.mapValues f) := by
  rw [h.eq_withName]
  exact ⟨rfl, rfl⟩

theorem withScalar (op : Arithmetic) (x : Float) (first : Bool) :
    (s.withScalar op x first).Similar (t.withScalar op x first) := h.mapValues _

theorem cumulate : s.cumulate.Similar t.cumulate := by
  rw [h.eq_withName]
  exact ⟨rfl, rfl⟩

theorem pruned : (Reduction.pruned s).Similar (Reduction.pruned t) := by
  rw [h.eq_withName]
  unfold Reduction.pruned
  rw [show (s.withName t.name).options = s.options from rfl]
  split <;> exact ⟨rfl, rfl⟩

end Similar

theorem yields_ofIndex? (name name' : String) (index : TimeIndex) (values : List Float) :
    Yields Similar (ofIndex? name index values) (ofIndex? name' index values) := by
  unfold ofIndex?
  split
  · exact Yields.ok ⟨rfl, rfl⟩
  · exact Yields.error

/-- The same arithmetic of similar series. -/
theorem yields_combine {s s' t t' : Series} (hs : s.Similar s') (ht : t.Similar t')
    (op : Arithmetic) : Yields Similar (s.combine t op) (s'.combine t' op) := by
  rw [hs.eq_withName, ht.eq_withName]
  exact Yields.bind (R := Eq) (fun _ h => ⟨_, h, rfl⟩) fun _ _ _ => yields_ofIndex? _ _ _ _

theorem yields_ofPoints? (name name' : String) (points : List (Stamp × Float)) :
    Yields Similar (ofPoints? name points) (ofPoints? name' points) := by
  unfold ofPoints?
  split
  · exact Yields.ok ⟨rfl, rfl⟩
  · exact Yields.error

/-! ### Reductions -/

section

variable {inputs others : List Series} (h : List.Forall₂ Similar inputs others)

include h

theorem aligned_congr (fills : Bool) :
    Reduction.aligned inputs fills = Reduction.aligned others fills := by
  have hindex : inputs.map Series.index = others.map Series.index := by
    induction h with
    | nil => rfl
    | cons hst _ ih => rw [List.map_cons, List.map_cons, hst.index, ih]
  unfold Reduction.aligned
  rw [hindex]
  dsimp only
  congr 1
  generalize TimeIndex.unionAll (others.map Series.index) = union
  clear hindex
  generalize hstart : 0 = start
  clear hstart
  induction h generalizing start with
  | nil => rfl
  | @cons s t inputs others hst _ ih =>
    rw [List.zipIdx_cons, List.zipIdx_cons, List.map_cons, List.map_cons, ih]
    congr 1
    rw [hst.eq_withName]
    dsimp only
    rw [show (s.withName t.name).options = s.options from rfl]
    split <;> rfl

theorem isEmpty_congr : inputs.isEmpty = others.isEmpty := by
  cases h <;> rfl

theorem weights_congr : inputs.map Reduction.weightOf = others.map Reduction.weightOf := by
  induction h with
  | nil => rfl
  | cons hst _ ih =>
    rw [List.map_cons, List.map_cons, ih, Reduction.weightOf, Reduction.weightOf, hst.options]

theorem forall₂_pruned :
    List.Forall₂ Similar (inputs.map Reduction.pruned) (others.map Reduction.pruned) := by
  rw [List.forall₂_map_left_iff, List.forall₂_map_right_iff]
  exact h.imp fun s t hst => hst.pruned

theorem sum_congr (name : String) : Reduction.sum name inputs = Reduction.sum name others := by
  rw [Reduction.sum, Reduction.sum, Reduction.ofInputs, Reduction.ofInputs, isEmpty_congr h,
    aligned_congr h]

theorem priority_congr (name : String) :
    Reduction.priority name inputs = Reduction.priority name others := by
  rw [Reduction.priority, Reduction.priority, Reduction.ofInputs, Reduction.ofInputs,
    isEmpty_congr h, aligned_congr (forall₂_pruned h)]

theorem least_congr (name : String) :
    Reduction.least name inputs = Reduction.least name others := by
  rw [Reduction.least, Reduction.least, Reduction.ofInputs, Reduction.ofInputs, isEmpty_congr h,
    aligned_congr h]

theorem greatest_congr (name : String) :
    Reduction.greatest name inputs = Reduction.greatest name others := by
  rw [Reduction.greatest, Reduction.greatest, Reduction.ofInputs, Reduction.ofInputs,
    isEmpty_congr h, aligned_congr h]

theorem mean_congr (name : String) : Reduction.mean name inputs = Reduction.mean name others := by
  rw [Reduction.mean, Reduction.mean, Reduction.ofInputs, Reduction.ofInputs, isEmpty_congr h,
    aligned_congr h, weights_congr h]

end

/-! ### Equal points -/

/-- **Values are the same** if they count the same in comparisons, missing ones among themselves. -/
theorem sameValue_iff {x y : Float} : sameValue x y = true ↔
    Double.comparand x.toModel.unpack = Double.comparand y.toModel.unpack := by
  rw [sameValue, Bool.or_eq_true, Bool.and_eq_true, Double.beq_iff]
  have hkind {z : Float} : z.isNaN = true ↔ Double.comparand z.toModel.unpack = .notANumber := by
    refine ⟨fun h => by rw [Double.unpack_of_isNaN h]; rfl, fun h => ?_⟩
    change z.toModel.unpack.isNaN = true
    cases hz : z.toModel.unpack with
    | notANumber => rfl
    | _ =>
      rw [hz] at h
      cases h
  constructor
  · rintro (⟨hx, hy⟩ | ⟨-, h⟩)
    · rw [hkind.1 hx, hkind.1 hy]
    · exact h
  · intro h
    cases hx : x.isNaN with
    | true => exact Or.inl ⟨rfl, hkind.2 (h ▸ hkind.1 hx)⟩
    | false => exact Or.inr ⟨rfl, h⟩

theorem sameValue_self (x : Float) : sameValue x x = true := sameValue_iff.2 rfl

theorem sameValue_symm {x y : Float} (h : sameValue x y = true) : sameValue y x = true :=
  sameValue_iff.2 (sameValue_iff.1 h).symm

theorem sameValue_trans {x y z : Float} (h : sameValue x y = true) (h' : sameValue y z = true) :
    sameValue x z = true :=
  sameValue_iff.2 ((sameValue_iff.1 h).trans (sameValue_iff.1 h'))

/-- What is the same as a missing value is missing. -/
theorem isNaN_of_sameValue {x y : Float} (h : sameValue x y = true) : x.isNaN = y.isNaN := by
  rw [sameValue, Bool.or_eq_true, Bool.and_eq_true] at h
  rcases h with ⟨hx, hy⟩ | heq
  · rw [hx, hy]
  · have hx := (Double.beq_iff.1 heq).1
    cases hy : y.isNaN with
    | false => exact hx
    | true =>
      have hmissing := sameValue_symm (x := x) (y := y) (by rw [sameValue, heq, Bool.or_true])
      rw [Double.eq_missing hy, sameValue, hx, Bool.and_false, Bool.false_or,
        Double.missing_beq] at hmissing
      cases hmissing

/-- Series with equal points have the same points. -/
theorem samePoints_of_eq {s t : Series} (h : s.points = t.points) : s.samePoints t = true := by
  have hvalues : s.values = t.values := by rw [values, values, h]
  have hindex : s.index = t.index := by rw [index, index, h]
  rw [samePoints, hvalues, hindex, Bool.and_eq_true]
  refine ⟨beq_self_eq_true _, List.all_eq_true.2 fun p hp => ?_⟩
  rw [List.zip_eq_zipWith, List.zipWith_self] at hp
  obtain ⟨x, -, rfl⟩ := List.mem_map.1 hp
  exact sameValue_self x

end Series

end SeriesAlgebra
