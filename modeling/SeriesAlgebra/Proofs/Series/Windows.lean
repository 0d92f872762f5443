import SeriesAlgebra.Proofs.Calendar.Clocks
import SeriesAlgebra.Proofs.Series.Rows

/-!
# Series cut to windows

A series that is read in a window should be the full one cut to it. While a formula is
read, the window changes on the way down, and that of the full reading changes as well; so
what is compared are two windows. Two series are **cut alike** if each lies in its own window
and both have the same points where the windows overlap (`Series.CutAlike`). Arithmetic,
combinations row by row and maps keep this, a slice makes it of series read in the slice
(`Series.CutAlike.window`), and other clocks make it of series read with a day more at either
end (`Series.CutAlike.toClocks`), although one hour of them may show twice.
-/

namespace SeriesAlgebra

namespace Series

open Application

variable {v w : Window} {s r s' r' : Series}

/-- **Whether two series are cut alike to two windows**: they have points there only, and the same
where the windows overlap. -/
structure CutAlike (v w : Window) (s r : Series) : Prop where
  left : s.IsSorted
  right : r.IsSorted
  leftInside : ∀ t, v.contains t = false → s.at? t = none
  rightInside : ∀ t, w.contains t = false → r.at? t = none
  same : ∀ t, v.contains t = true → w.contains t = true → s.at? t = r.at? t

/-- Whether two series that are cut alike are also combined alike. -/
structure Agrees (v w : Window) (s r : Series) : Prop extends CutAlike v w s r where
  alike : CombineAlike s r

/-! ### Cutting -/

/-- One series cut to two windows. -/
theorem cutAlike_window (h : s.IsSorted) (v w : Window) :
    CutAlike v w (s.window v) (s.window w) := by
  refine ⟨isSorted_window h v, isSorted_window h w, fun t ht => ?_, fun t ht => ?_,
    fun t hv hw => ?_⟩
  · rw [at?_window h, ht, if_neg Bool.false_ne_true]
  · rw [at?_window h, ht, if_neg Bool.false_ne_true]
  · rw [at?_window h, at?_window h, hv, hw]

/-- **What is cut alike is the same once it is cut**: the points read in a window are those of the
full series in it. -/
theorem CutAlike.points_eq (h : CutAlike w .unbounded s r) : s.points = (r.window w).points := by
  have hpoint (t : Stamp) : s.at? t = (r.window w).at? t := by
    rw [at?_window h.right]
    split
    · rename_i ht
      exact h.same t ht rfl
    · rename_i ht
      exact h.leftInside t (Bool.not_eq_true _ ▸ ht)
  refine OrderedMap.eq_of_mem_iff h.left (isSorted_window h.right w) fun p => ?_
  rw [← at?_eq_some_iff h.left, ← at?_eq_some_iff (isSorted_window h.right w), hpoint]

/-- A slice of series that are read in the slice. -/
theorem CutAlike.window {slice : Window} (h : CutAlike (v.intersect slice) (w.intersect slice) s r) :
    CutAlike v w (s.window slice) (r.window slice) := by
  refine ⟨isSorted_window h.left slice, isSorted_window h.right slice, fun t ht => ?_,
    fun t ht => ?_, fun t hv hw => ?_⟩
  · rw [at?_window h.left, h.leftInside t (by rw [Window.contains_intersect, ht, Bool.false_and]),
      ite_self]
  · rw [at?_window h.right, h.rightInside t (by rw [Window.contains_intersect, ht, Bool.false_and]),
      ite_self]
  · rw [at?_window h.left, at?_window h.right]
    split
    · rename_i hslice
      exact h.same t (by rw [Window.contains_intersect, hv, hslice, Bool.and_self])
        (by rw [Window.contains_intersect, hw, hslice, Bool.and_self])
    · rfl

/-- Series that are cut alike agree once they have the same options, which look at no other
points. -/
theorem CutAlike.withOptions (h : CutAlike v w s r) {o : SeriesOptions} (hfill : o.fill = none)
    (hprune : o.prune = none) : Agrees v w (s.withOptions o) (r.withOptions o) :=
  ⟨⟨h.left, h.right, h.leftInside, h.rightInside, h.same⟩,
    combineAlike_withOptions h.left h.right hfill hprune⟩

/-! ### Other clocks -/

/-- What the clocks of a zone show at a stamp: the value of the last point that has it there. -/
def shownAt (s : Series) (z : Zone) (t : Stamp) : Option Float :=
  ((s.points.filter fun p => z.toLocal p.1 = t).getLast?).map (·.2)

/-- **A series by the clocks of a zone** has in a window the points that the clocks show. -/
theorem toClocks_ok (s : Series) (z : Zone) (w : Window) :
    ∃ u, toClocks s z w = .ok u ∧ u.IsSorted ∧ u.options = .unset ∧
      ∀ t, u.at? t = if w.contains t then s.shownAt z t else none := by
  let shown := (s.points.map fun p => (z.toLocal p.1, p.2)).filter fun p => w.contains p.1
  have hsorted : ((OrderedMap.ofList shown).entries.map (·.1)).Pairwise (· < ·) :=
    OrderedMap.isSorted_ofList shown
  refine ⟨ofPoints s.name (OrderedMap.ofList shown).entries, ofPoints?_ok_iff.2 ⟨hsorted, rfl⟩,
    hsorted, rfl, fun t => ?_⟩
  change (OrderedMap.ofList shown).find? t = _
  rw [OrderedMap.find?_ofList_eq, List.filter_filter, List.filter_map, List.getLast?_map,
    Option.map_map]
  split
  · rename_i ht
    have hfilter : (s.points.filter fun p => decide (z.toLocal p.1 = t) && w.contains (z.toLocal p.1)) =
        s.points.filter fun p => z.toLocal p.1 = t := by
      refine List.filter_congr fun p _ => ?_
      by_cases hp : z.toLocal p.1 = t
      · rw [hp, ht, Bool.and_true]
      · rw [decide_eq_false hp, Bool.false_and]
    exact congrArg (fun points : List (Stamp × Float) => (points.getLast?).map (·.2)) hfilter
  · rename_i ht
    have hfilter : (s.points.filter fun p => decide (z.toLocal p.1 = t) && w.contains (z.toLocal p.1)) =
        [] := by
      refine List.filter_eq_nil_iff.2 fun p _ hp => ?_
      rw [Bool.and_eq_true] at hp
      exact ht (of_decide_eq_true hp.1 ▸ hp.2)
    exact congrArg (fun points : List (Stamp × Float) => (points.getLast?).map (·.2)) hfilter

/-- **By the clocks of a zone** series are cut alike that are read with a day more at either end:
all points with one clock time are there. -/
theorem CutAlike.toClocks {name : String} {z : Zone} (hz : Zone.find? name = some z)
    (h : CutAlike (v.widen (.days 1)) (w.widen (.days 1)) s r) :
    ∃ u u', toClocks s z v = .ok u ∧ toClocks r z w = .ok u' ∧ CombineAlike u u' ∧
      CutAlike v w u u' := by
  obtain ⟨u, hu, husorted, huoptions, hupoint⟩ := toClocks_ok s z v
  obtain ⟨u', hu', husorted', huoptions', hupoint'⟩ := toClocks_ok r z w
  refine ⟨u, u', hu, hu', combineAlike_of_unset husorted husorted' huoptions huoptions',
    husorted, husorted', fun t ht => ?_, fun t ht => ?_, fun t hv hw => ?_⟩
  · rw [hupoint, ht, if_neg Bool.false_ne_true]
  · rw [hupoint', ht, if_neg Bool.false_ne_true]
  · -- Every moment at which the clocks show the stamp lies in both of the wider windows.
    have hfilter : (s.points.filter fun p => z.toLocal p.1 = t) =
        r.points.filter fun p => z.toLocal p.1 = t := by
      refine OrderedMap.eq_of_mem_iff (List.Pairwise.sublist (List.filter_sublist.map _) h.left)
        (List.Pairwise.sublist (List.filter_sublist.map _) h.right) fun p => ?_
      rw [List.mem_filter, List.mem_filter]
      refine and_congr_left fun hp => ?_
      obtain rfl := of_decide_eq_true hp
      rw [← at?_eq_some_iff h.left, ← at?_eq_some_iff h.right,
        h.same p.1 (Window.contains_widen_of_toLocal hz hv) (Window.contains_widen_of_toLocal hz hw)]
    rw [hupoint, hupoint', hv, hw, if_pos rfl, if_pos rfl, shownAt, shownAt, hfilter]

/-! ### Maps and combinations -/

namespace Agrees

theorem mapValues (h : Agrees v w s r) (f : Float → Float) :
    Agrees v w (s.mapValues f) (r.mapValues f) := by
  refine ⟨⟨isSorted_mapValues h.left f, isSorted_mapValues h.right f, fun t ht => ?_,
    fun t ht => ?_, fun t hv hw => ?_⟩, h.alike.mapValues f⟩
  · rw [at?_mapValues, h.leftInside t ht, Option.map_none]
  · rw [at?_mapValues, h.rightInside t ht, Option.map_none]
  · rw [at?_mapValues, at?_mapValues, h.same t hv hw]

/-- Arithmetic of two series. -/
theorem yields_combine (h : Agrees v w s r) (h' : Agrees v w s' r') (op : Arithmetic) :
    Yields (Agrees v w) (s.combine s' op) (r.combine r' op) := by
  refine h.alike.yields_combine h'.alike op fun u u' halike hu hu' =>
    ⟨⟨halike.left.sorted, halike.right.sorted, fun t ht => ?_, fun t ht => ?_, fun t hv hw => ?_⟩,
      halike⟩
  · rw [hu, h.leftInside t ht, h'.leftInside t ht]
    rfl
  · rw [hu', h.rightInside t ht, h'.rightInside t ht]
    rfl
  · rw [hu, hu', h.same t hv hw, h'.same t hv hw]

end Agrees

end Series

end SeriesAlgebra
