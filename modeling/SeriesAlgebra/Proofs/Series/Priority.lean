import SeriesAlgebra.Proofs.Series.FilledRows

/-!
# The first value there is

An input of a priority offers the points that are left of it once its last ones, as many as it asks
for, and then its missing ones are left out (`Reduction.offered`). At each stamp the priority has
what is offered by the first input that offers anything there (`Reduction.priority_ok`). Such a
search may be made in parts, so that the priority of neighbours can stand in their place
(`Reduction.priority_firstOffered`).
-/

namespace SeriesAlgebra

namespace Reduction

open SeriesAlgebra.Frame Series

variable {inputs : List Series} {s u : Series} {t : Stamp}

/-- **The points that an input offers**: as many of its last points as it asks for are left out,
missing ones among them, and of the others those with a missing value. -/
def offered (s : Series) : List (Stamp × Float) :=
  (s.points.take (s.points.length - s.options.prune.getD 0)).filter fun p => !p.2.isNaN

theorem points_pruned (s : Series) : (pruned s).points = offered s := by
  unfold pruned offered
  cases s.options.prune with
  | none =>
    rw [Option.getD_none, Nat.sub_zero, List.take_length]
    rfl
  | some count => rfl

theorem at?_pruned (s : Series) (t : Stamp) : (pruned s).at? t = (offered s).lookup t := by
  rw [at?, points_pruned]

theorem present_of_offered {x : Float} (h : (offered s).lookup t = some x) : x.isNaN = false := by
  have hkept := (List.mem_filter.1 (OrderedMap.mem_of_lookup h)).2
  simpa using hkept

/-- A series without options and without missing values offers all its points. -/
theorem offered_of_unset (hoptions : u.options = .unset)
    (hpresent : ∀ p ∈ u.points, p.2.isNaN = false) : offered u = u.points := by
  have hprune : u.options.prune.getD 0 = 0 := by rw [hoptions]; rfl
  rw [offered, hprune, Nat.sub_zero, List.take_length]
  exact points_dropMissing_of_present hpresent

/-- What is offered at a stamp by the first input that offers anything there. -/
def firstOffered (inputs : List Series) (t : Stamp) : Option Float :=
  inputs.findSome? fun s => (offered s).lookup t

/-- The first value of a row is that of the first input that offers one. -/
theorem ifPresent_firstPresent (inputs : List Series) (t : Stamp) :
    ifPresent (firstPresent (rowAt ((inputs.map pruned).map valueOn) t)) =
      firstOffered inputs t := by
  induction inputs with
  | nil => exact ifPresent_missing
  | cons s rest ih =>
    change ifPresent (firstPresent ((pruned s).valueOn t :: _)) = _
    rw [firstPresent, List.find?_cons, firstOffered, List.findSome?_cons, valueOn, at?_pruned]
    cases hoffer : (offered s).lookup t with
    | none =>
      rw [Option.getD_none, Double.isNaN_missing]
      exact ih
    | some x =>
      -- What is offered is a number, so the search in the row ends here as well.
      have hx := present_of_offered hoffer
      rw [Option.getD_some, hx]
      exact ifPresent_eq_some_iff.2 ⟨rfl, hx⟩

/-- **A priority** of at least one series has at each stamp what is offered first. -/
theorem priority_ok (hne : inputs ≠ []) (name : String) :
    ∃ u, priority name inputs = .ok u ∧ u.IsSorted ∧ (∀ p ∈ u.points, p.2.isNaN = false) ∧
      u.options = .unset ∧ ∀ t, u.at? t = firstOffered inputs t := by
  obtain ⟨u, hu, hsorted, hoptions, hpoint⟩ :=
    reduced_ok "priority" false pruned (fun _ => firstPresent_missing) hne name
  refine ⟨u, hu, hsorted, fun p hp => ?_, hoptions, fun t => ?_⟩
  · have hp := (at?_eq_some_iff hsorted).2 hp
    rw [hpoint, ifPresent_eq_some_iff] at hp
    exact hp.2
  · have hcolumns : columnsOf false (inputs.map pruned) = (inputs.map pruned).map valueOn :=
      columnsOf_of_unfilled nofun
    rw [hpoint, hcolumns, ifPresent_firstPresent]

/-- What is offered first is offered by an input, and by none before it. -/
theorem firstOffered_eq_some_iff {x : Float} : firstOffered inputs t = some x ↔
    ∃ before s after, inputs = before ++ s :: after ∧ (offered s).lookup t = some x ∧
      ∀ r ∈ before, (offered r).lookup t = none := List.findSome?_eq_some_iff

/-- A series that offers what neighbours offer first can stand in their place. -/
theorem firstOffered_flatten {block : List Series}
    (h : ∀ t, (offered u).lookup t = firstOffered block t) (before after : List Series) (t : Stamp) :
    firstOffered (before ++ u :: after) t = firstOffered (before ++ block ++ after) t := by
  unfold firstOffered at h ⊢
  rw [List.findSome?_append, List.findSome?_append, List.findSome?_append, List.findSome?_cons, h,
    Option.or_assoc]
  cases block.findSome? fun s => (offered s).lookup t <;> rfl

/-- **A priority takes the first value** that is offered. Of at least one series it always exists and
is never missing, and it has a value at a stamp just if an input offers it there and no input before
that one offers any. The priority of a block of neighbours may stand in their place. -/
theorem priority_firstOffered (name : String) {inputs : List Series} (hne : inputs ≠ []) :
    ∃ u, priority name inputs = .ok u ∧ u.IsSorted ∧ (∀ p ∈ u.points, p.2.isNaN = false) ∧
      (∀ t x, (t, x) ∈ u.points ↔ ∃ before s after, inputs = before ++ s :: after ∧
        (offered s).lookup t = some x ∧ ∀ r ∈ before, (offered r).lookup t = none) ∧
      ∀ before block after inner, inputs = before ++ block ++ after → block ≠ [] →
        ∃ b w, priority inner block = .ok b ∧ priority name (before ++ b :: after) = .ok w ∧
          w.points = u.points := by
  obtain ⟨u, hu, hsorted, hpresent, -, hpoint⟩ := priority_ok hne name
  have hmem (t : Stamp) (x : Float) : (t, x) ∈ u.points ↔ firstOffered inputs t = some x := by
    rw [← hpoint, at?_eq_some_iff hsorted]
  refine ⟨u, hu, hsorted, hpresent, fun t x => (hmem t x).trans firstOffered_eq_some_iff, ?_⟩
  intro before block after inner hsplit hblock
  obtain ⟨b, hb, -, hbpresent, hboptions, hbpoint⟩ := priority_ok hblock inner
  have hne' : before ++ b :: after ≠ [] := List.append_ne_nil_of_right_ne_nil _ (List.cons_ne_nil _ _)
  obtain ⟨w, hw, hwsorted, -, -, hwpoint⟩ := priority_ok hne' name
  -- The result for the block has no options, so nothing of it is left out once more.
  have hoffers : ∀ t, (offered b).lookup t = firstOffered block t := fun t => by
    rw [offered_of_unset hboptions hbpresent]
    exact hbpoint t
  refine ⟨b, w, hb, hw, OrderedMap.eq_of_mem_iff hwsorted hsorted fun ⟨t, x⟩ => ?_⟩
  rw [hmem, ← at?_eq_some_iff hwsorted, hwpoint, firstOffered_flatten hoffers, hsplit]

/-- A series whose last point, which is left out, is missing. -/
def trailing : Series :=
  ⟨"recent", [(midnight 0, 1.0), (midnight 1, missing), (midnight 2, 3.0), (midnight 3, missing)],
    ⟨none, some 1, none⟩⟩

/-- A series whose last point, which is left out, has a value. -/
def cut : Series := ⟨"cut", [(midnight 1, 5.0), (midnight 3, 6.0)], ⟨none, some 1, none⟩⟩

theorem priority_firstOffered_trailing :
    ∃ u, priority "out" [trailing, cut, gapped] = .ok u ∧
      ((midnight 1, 5.0) ∈ u.points ∧ (midnight 2, 3.0) ∈ u.points ∧
        ∀ x, (midnight 3, x) ∉ u.points) ∧
      ∃ b w, priority "in" [cut, gapped] = .ok b ∧ priority "out" [trailing, b] = .ok w ∧
        w.points = u.points := by
  obtain ⟨u, hu, -, -, hmem, hflat⟩ :=
    priority_firstOffered "out" (List.cons_ne_nil trailing [cut, gapped])
  refine ⟨u, hu, ⟨?_, ?_, fun x hx => ?_⟩,
    hflat [trailing] [cut, gapped] [] "in" rfl (List.cons_ne_nil _ _)⟩
  · exact (hmem _ _).2 ⟨[trailing], cut, [gapped], rfl, by decide +kernel, by decide +kernel⟩
  · exact (hmem _ _).2 ⟨[], trailing, [cut, gapped], rfl, by decide +kernel, nofun⟩
  · obtain ⟨before, s, after, hsplit, hvalue, -⟩ := (hmem _ _).1 hx
    have hs : s ∈ [trailing, cut, gapped] := hsplit ▸ List.mem_append_right _ List.mem_cons_self
    have hnone : ∀ s ∈ [trailing, cut, gapped], (offered s).lookup (midnight 3) = none := by
      decide +kernel
    cases (hnone s hs).symm.trans hvalue

end Reduction

end SeriesAlgebra
