import SeriesAlgebra.Proofs.Order.Relabeling
import SeriesAlgebra.Proofs.Series.Values
import SeriesAlgebra.Store.Basic

/-!
# Replaying differences

A history of differences is replayed as the store applies an update: a value sets its
stamp and a missing value erases it (`Series.patched`). If what is replayed from says what
the first version is compared with, then the replay says after every difference what the
version says, **as long as no value vanishes**: the stamps at which a version has values
must all be stamps of the next one, be it with missing values
(`Series.patchedAll_iff`). A difference is made from the points of the newer version,
so it cannot tell of a stamp that is not there any more.
-/

namespace SeriesAlgebra

namespace Store

/-! ### Effects -/

/-- What there is at a stamp after a change, if there is one, of which a missing value erases. -/
def afterChange (change old : Option Float) : Option Float :=
  match change with
  | some x => if x.isNaN then none else some x
  | none => old

theorem getD_afterChange (x : Float) (old : Option Float) :
    (afterChange (some x) old).getD missing = x := by
  change (if x.isNaN then none else some x).getD missing = x
  cases hx : x.isNaN with
  | false => rfl
  | true => exact (Double.eq_missing hx).symm

/-- One change sets or erases the point at its stamp. -/
theorem find?_applyEffect_singleton (points : OrderedMap Stamp Float) (u : Stamp) (x : Float)
    (t : Stamp) : (applyEffect points [(u, x)]).find? t =
      if t = u then afterChange (some x) (points.find? t) else points.find? t := by
  unfold applyEffect afterChange
  rw [List.foldl_cons, List.foldl_nil]
  dsimp only
  by_cases htu : t = u
  · subst htu
    cases x.isNaN with
    | false => simp
    | true => simp
  · rw [if_neg htu]
    split
    · exact OrderedMap.find?_erase_of_ne _ htu
    · exact OrderedMap.find?_insert_of_ne _ htu _

theorem applyEffect_append (points : OrderedMap Stamp Float) (changes more : List (Stamp × Float)) :
    applyEffect points (changes ++ more) = applyEffect (applyEffect points changes) more :=
  List.foldl_append

theorem applyEffect_cons (points : OrderedMap Stamp Float) (p : Stamp × Float)
    (rest : List (Stamp × Float)) :
    applyEffect points (p :: rest) = applyEffect (applyEffect points [p]) rest := rfl

theorem isSorted_applyEffect {points : OrderedMap Stamp Float} (h : points.IsSorted)
    (changes : List (Stamp × Float)) : (applyEffect points changes).IsSorted := by
  induction changes generalizing points with
  | nil => exact h
  | cons p rest ih =>
    rw [applyEffect_cons]
    refine ih ?_
    obtain ⟨t, x⟩ := p
    unfold applyEffect
    rw [List.foldl_cons, List.foldl_nil]
    dsimp only
    split
    · exact OrderedMap.isSorted_erase h t
    · exact OrderedMap.isSorted_insert h t x

/-- **Points after an effect in order**: what it says where it has a point, and what there was
elsewhere. -/
theorem find?_applyEffect {changes : List (Stamp × Float)}
    (h : (changes.map (·.1)).Pairwise (· < ·)) (points : OrderedMap Stamp Float) (t : Stamp) :
    (applyEffect points changes).find? t =
      afterChange (changes.lookup t) (points.find? t) := by
  induction changes generalizing points with
  | nil => rfl
  | cons p rest ih =>
    obtain ⟨u, x⟩ := p
    obtain ⟨hhead, hrest⟩ := List.pairwise_cons.1 h
    rw [applyEffect_cons, ih hrest, find?_applyEffect_singleton, List.lookup_cons]
    by_cases htu : t = u
    · -- No later change is at the same stamp.
      subst htu
      have hnone : rest.lookup t = none := (OrderedMap.find?_eq_none_iff (m := ⟨rest⟩)).2
        fun hmem => Stamp.lt_irrefl t (hhead t hmem)
      rw [hnone, beq_self_eq_true, if_pos rfl]
      rfl
    · rw [beq_eq_false_iff_ne.2 htu, if_neg htu]

end Store

namespace Series

/-- **A series after a difference**, of which missing values erase. -/
def patched (s delta : Series) : Series :=
  s.withPoints (Store.applyEffect ⟨s.points⟩ delta.points).entries

/-- The series after each of several differences, one after the other. -/
def patchedAll (s : Series) : List Series → List Series
  | [] => []
  | delta :: rest => s.patched delta :: patchedAll (s.patched delta) rest

/-- **Whether no value of a version vanishes**: the next one has a point wherever it has a value. -/
def Keeps (base next : Series) : Prop :=
  ∀ t, (base.valueOn t).isNaN = false → t ∈ next.index.stamps

/-- Whether two series say the same at every stamp. -/
def SaysAs (s r : Series) : Prop := ∀ t, sameValue (s.valueOn t) (r.valueOn t) = true

variable {s base next : Series}

/-! ### One difference -/

theorem isSorted_patched (h : s.IsSorted) (delta : Series) : (s.patched delta).IsSorted := by
  have hpoints : OrderedMap.IsSorted ⟨s.points⟩ := h
  exact Store.isSorted_applyEffect hpoints delta.points

/-- **What a series says after a difference**: what the difference says where it has a point, and
what it said before elsewhere. -/
theorem valueOn_patched {delta : Series} (h : delta.IsSorted) (t : Stamp) :
    (s.patched delta).valueOn t = (delta.at? t).getD (s.valueOn t) := by
  have hfind : (s.patched delta).at? t = Store.afterChange (delta.at? t) (s.at? t) :=
    Store.find?_applyEffect h ⟨s.points⟩ t
  rw [valueOn, valueOn, hfind]
  cases delta.at? t with
  | none => rfl
  | some x => exact Store.getD_afterChange x _

theorem isSorted_diff (h : next.IsSorted) (base : Option Series) : (diff base next).IsSorted := by
  cases base with
  | none => exact h
  | some base => exact isSorted_of_sublist h List.filter_sublist

/-- What a difference has at a stamp: what the newer version has, if it is a change. -/
theorem at?_diff (h : next.IsSorted) (base : Series) (t : Stamp) :
    (diff (some base) next).at? t = (next.at? t).filter fun x => base.changes (t, x) :=
  OrderedMap.find?_filter (m := ⟨next.points⟩) h (fun t x => base.changes (t, x)) t

theorem sameValue_comm (x y : Float) : sameValue x y = sameValue y x :=
  Bool.eq_iff_iff.2 ⟨sameValue_symm, sameValue_symm⟩

theorem sameValue_missing (x : Float) : sameValue missing x = x.isNaN := by
  rw [sameValue, Double.isNaN_missing, Bool.true_and, Double.missing_beq, Bool.or_false]

/-- **A change is what is not said already.** -/
theorem changes_eq (base : Series) (t : Stamp) (x : Float) :
    base.changes (t, x) = !sameValue (base.valueOn t) x := by
  unfold changes valueOn
  dsimp only
  cases base.at? t with
  | none => rw [Option.getD_none, sameValue_missing]
  | some old =>
    rw [Option.getD_some]
    dsimp only
    cases hold : old.isNaN with
    | true => rw [Double.eq_missing hold, sameValue_missing, if_pos rfl]
    | false =>
      rw [if_neg Bool.false_ne_true]
      cases hx : x.isNaN with
      | false => rw [sameValue, hold, Bool.false_and, Bool.false_or, Bool.false_or]; rfl
      | true => rw [Double.eq_missing hx, sameValue_comm, sameValue_missing, hold]; rfl

/-- What is no change says what was said before. -/
theorem sameValue_of_not_changes {t : Stamp} {x : Float} (h : base.changes (t, x) = false) :
    sameValue (base.valueOn t) x = true := by
  rw [changes_eq, Bool.not_eq_false'] at h
  exact h

/-- **A difference applied to what says as its base** says as the newer version, if no value of the
base vanishes from it, and only then. -/
theorem saysAs_patched_iff (hnext : next.IsSorted) (h : s.SaysAs base) :
    (s.patched (diff (some base) next)).SaysAs next ↔ base.Keeps next := by
  have hvalue (t : Stamp) : (s.patched (diff (some base) next)).valueOn t =
      ((next.at? t).filter fun x => base.changes (t, x)).getD (s.valueOn t) := by
    rw [valueOn_patched (isSorted_diff hnext _), at?_diff hnext]
  have hsays (t : Stamp) {x : Float} (hx : next.at? t = some x) :
      sameValue ((s.patched (diff (some base) next)).valueOn t) (next.valueOn t) = true := by
    have hnext' : next.valueOn t = x := by rw [valueOn, hx, Option.getD_some]
    rw [hvalue, hnext', hx]
    cases hchanges : base.changes (t, x) with
    | true =>
      rw [Option.filter_some, hchanges, if_pos rfl]
      exact sameValue_self x
    | false =>
      rw [Option.filter_some, hchanges, if_neg Bool.false_ne_true]
      exact sameValue_trans (h t) (sameValue_of_not_changes hchanges)
  have hgone (t : Stamp) (hnone : next.at? t = none) :
      sameValue ((s.patched (diff (some base) next)).valueOn t) (next.valueOn t) = true ↔
        (base.valueOn t).isNaN = true := by
    have hnext' : next.valueOn t = missing := by rw [valueOn, hnone, Option.getD_none]
    rw [hvalue, hnext', hnone, Option.filter_none, Option.getD_none, ← isNaN_of_sameValue (h t)]
    constructor
    · intro hsame
      rw [isNaN_of_sameValue hsame, Double.isNaN_missing]
    · intro hmissing
      rw [Double.eq_missing hmissing]
      exact sameValue_self _
  constructor
  · intro hall t ht
    by_contra hmem
    rw [(hgone t (at?_eq_none_iff.2 hmem)).1 (hall t)] at ht
    cases ht
  · intro hkeeps t
    cases hat : next.at? t with
    | some x => exact hsays t hat
    | none =>
      refine (hgone t hat).2 ?_
      by_contra hpresent
      exact at?_eq_none_iff.1 hat (hkeeps t (by simpa using hpresent))

/-- The first version is a difference to nothing. -/
theorem saysAs_patched_none (hnext : next.IsSorted) (name : String) :
    ((empty name).patched (diff none next)).SaysAs next := by
  intro t
  have hvalue := valueOn_patched (s := empty name) hnext t
  rw [show ((empty name).patched (diff none next)).valueOn t = next.valueOn t from hvalue]
  exact sameValue_self _

/-! ### Several differences -/

theorem isSorted_patchedAll (h : s.IsSorted) (deltas : List Series) :
    ∀ r ∈ s.patchedAll deltas, r.IsSorted := by
  induction deltas generalizing s with
  | nil => exact nofun
  | cons delta rest ih =>
    have hpatched := isSorted_patched h delta
    intro r hr
    rcases List.mem_cons.1 hr with rfl | hr
    · exact hpatched
    · exact ih hpatched r hr

/-- Series in order say the same one by one if their points with values are the same. -/
theorem forall₂_saysAs_iff {list others : List Series} (hlist : ∀ s ∈ list, s.IsSorted)
    (hothers : ∀ r ∈ others, r.IsSorted) : List.Forall₂ SaysAs list others ↔
      List.Forall₂ (fun s r => s.dropMissing.samePoints r.dropMissing = true) list others := by
  induction list generalizing others with
  | nil => rw [List.forall₂_nil_left_iff, List.forall₂_nil_left_iff]
  | cons s rest ih =>
    cases others with
    | nil => exact ⟨nofun, nofun⟩
    | cons r others =>
      obtain ⟨hs, hrest⟩ := List.forall_mem_cons.1 hlist
      obtain ⟨hr, hothers⟩ := List.forall_mem_cons.1 hothers
      rw [List.forall₂_cons, List.forall₂_cons, ih hrest hothers, samePoints_dropMissing_iff hs hr]
      rfl

/-- No value vanishes if no stamp does. -/
theorem keeps_of_subset (h : base.index.stamps ⊆ next.index.stamps) : base.Keeps next := by
  intro t ht
  refine h ?_
  by_contra hmem
  rw [valueOn, at?_eq_none_iff.2 hmem, Option.getD_none, Double.isNaN_missing] at ht
  cases ht

/-- **Differences are replayed right**, one after the other, if no value vanishes from a version to
the next, and only then. -/
theorem patchedAll_iff {entries : List (InsertionDate × Series)}
    (hentries : ∀ entry ∈ entries, entry.2.IsSorted) (h : s.SaysAs base) :
    List.Forall₂ SaysAs (s.patchedAll ((History.diffEntries (some base) entries).map (·.2)))
      (entries.map (·.2)) ↔ List.IsChain Keeps (base :: entries.map (·.2)) := by
  induction entries generalizing s base with
  | nil => exact ⟨fun _ => .singleton _, fun _ => .nil⟩
  | cons entry rest ih =>
    obtain ⟨date, next⟩ := entry
    have hnext : next.IsSorted := hentries _ List.mem_cons_self
    have hstep := saysAs_patched_iff hnext h
    rw [History.diffEntries, List.map_cons, List.map_cons, patchedAll, List.forall₂_cons,
      List.isChain_cons_cons, hstep]
    refine and_congr_right fun hkeeps => ?_
    exact ih (fun entry hentry => hentries entry (List.mem_cons_of_mem _ hentry)) (hstep.2 hkeeps)

/-- **A history of differences** that starts from a version or from nothing. -/
theorem patchedAll_diffs_iff {before : Option Series} {h : History}
    (hversions : ∀ entry ∈ h.entries, entry.2.IsSorted) (name : String) :
    List.Forall₂ SaysAs ((before.getD (empty name)).patchedAll (History.diffs h before).values)
      h.values ↔ List.IsChain Keeps (before.toList ++ h.values) := by
  obtain ⟨entries⟩ := h
  cases before with
  | some base => exact patchedAll_iff hversions fun t => sameValue_self _
  | none =>
    cases entries with
    | nil => exact ⟨fun _ => .nil, fun _ => .nil⟩
    | cons entry rest =>
      obtain ⟨date, first⟩ := entry
      have hfirst := saysAs_patched_none (hversions _ List.mem_cons_self) name
      exact List.forall₂_cons.trans ((and_iff_right hfirst).trans
        (patchedAll_iff (fun entry hentry => hversions entry (List.mem_cons_of_mem _ hentry)) hfirst))

/-- Differences have the dates of the versions. -/
theorem keys_diffs (h : History) (before : Option Series) :
    (History.diffs h before).keys = h.keys := by
  obtain ⟨entries⟩ := h
  change (History.diffEntries before entries).map (·.1) = entries.map (·.1)
  induction entries generalizing before with
  | nil => rfl
  | cons entry rest ih => exact congrArg (entry.1 :: ·) (ih (some entry.2))

end Series

end SeriesAlgebra
