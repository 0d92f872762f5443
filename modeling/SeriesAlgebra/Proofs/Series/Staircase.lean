import SeriesAlgebra.Proofs.Series.History
import SeriesAlgebra.Proofs.Series.Values

/-!
# What a staircase says

A staircase says at a stamp of its window what the version says there that was in effect a
delay before (`History.valueOn_staircase`), as long as the delay keeps the order of the
insertion dates (`Span.KeepsOrder`). That it does not is possible only where a date lies
inside a leap second, which a delay leaves through the nearer end
(`Span.keepsOrder_of_no_leap`). A staircase has no missing values.
-/

namespace SeriesAlgebra

/-! ### Delays -/

/-- **Whether a delay keeps the order** of certain dates. -/
def Span.KeepsOrder (delay : Span) (P : InsertionDate → Prop) : Prop :=
  ∀ d d', P d → P d' → d ≤ d' → d.shift delay ≤ d'.shift delay

theorem Span.KeepsOrder.mono {delay : Span} {P Q : InsertionDate → Prop} (h : delay.KeepsOrder Q)
    (hPQ : ∀ d, P d → Q d) : delay.KeepsOrder P :=
  fun d d' hd hd' => h d d' (hPQ d hd) (hPQ d' hd')

/-- Outside leap seconds every delay keeps the order. -/
theorem Span.keepsOrder_of_no_leap (delay : Span) {P : InsertionDate → Prop}
    (hP : ∀ d, P d → d.isLeapSecond = false) : delay.KeepsOrder P := by
  intro d d' hd hd' hle
  unfold Stamp.shift
  rw [hP d hd, hP d' hd', if_neg Bool.false_ne_true, if_neg Bool.false_ne_true]
  have hnano := of_decide_eq_false (hP d hd)
  have hnano' := of_decide_eq_false (hP d' hd')
  simp only [Stamp.leapNano, Nat.not_le] at hnano hnano'
  simp only [Stamp.le_def, Fin.le_def, Stamp.ofNanos] at hle ⊢
  omega

namespace History

variable {α : Type} {m : OrderedMap InsertionDate α} {delay : Span} {window : Window} {t : Stamp}

/-! ### The version a delay before -/

/-- The last entry whose date is reached at a stamp, a delay later. -/
def reached? (delay : Span) (t : Stamp) (entries : List (InsertionDate × α)) :
    Option (InsertionDate × α) :=
  (entries.filter fun entry => decide (entry.1.shift delay ≤ t)).getLast?

/-- **The version that was in effect a delay before** a stamp. -/
def delayed? (m : OrderedMap InsertionDate α) (delay : Span) (t : Stamp) : Option α :=
  (reached? delay t m.entries).map (·.2)

theorem reached?_cons (entry : InsertionDate × α) (rest : List (InsertionDate × α)) :
    reached? delay t (entry :: rest) =
      (reached? delay t rest).or (if entry.1.shift delay ≤ t then some entry else none) := by
  unfold reached?
  rw [List.filter_cons]
  by_cases h : entry.1.shift delay ≤ t
  · rw [decide_eq_true h, if_pos rfl, if_pos h, List.getLast?_cons]
    cases (rest.filter fun entry => decide (entry.1.shift delay ≤ t)).getLast? <;> rfl
  · rw [decide_eq_false h, if_neg Bool.false_ne_true, if_neg h, Option.or_none]

theorem reached?_eq_none_iff {entries : List (InsertionDate × α)} :
    reached? delay t entries = none ↔ ∀ entry ∈ entries, t < entry.1.shift delay := by
  unfold reached?
  rw [List.getLast?_eq_none_iff, List.filter_eq_nil_iff]
  refine forall₂_congr fun entry _ => ?_
  rw [decide_eq_true_iff, ← Stamp.not_lt, not_not]

theorem reached?_eq_some (hm : m.IsSorted) {entry : InsertionDate × α}
    (h : reached? delay t m.entries = some entry) : m.find? entry.1 = some entry.2 ∧
      entry.1.shift delay ≤ t ∧ ∀ k ∈ m.keys, k.shift delay ≤ t → k ≤ entry.1 := by
  obtain ⟨hfind, hle, hlatest⟩ := last_of_filter hm h
  refine ⟨hfind, of_decide_eq_true hle, fun k hk hle' => ?_⟩
  obtain ⟨other, hother, rfl⟩ := List.mem_map.1 hk
  exact hlatest other hother (decide_eq_true hle')

/-- What is in effect a delay before is what is in effect at the last date that is reached. -/
theorem delayed?_eq_asOf? {P : InsertionDate → Prop} (hdelay : delay.KeepsOrder P)
    (hm : ∀ k ∈ m.keys, P k) {d : InsertionDate} (hd : P d) (hreached : d.shift delay ≤ t)
    (hlast : ∀ k, P k → k.shift delay ≤ t → k ≤ d) : delayed? m delay t = asOf? m d := by
  unfold delayed? asOf? reached? entryAsOf?
  congr 2
  refine List.filter_congr fun entry hentry => decide_eq_decide.2 ?_
  have hentry := hm _ (List.mem_map_of_mem hentry)
  exact ⟨fun h => hlast _ hentry h, fun h => Stamp.le_trans (hdelay _ _ hentry hd h) hreached⟩

/-- Before all dates nothing is in effect. -/
theorem delayed?_eq_none (h : ∀ k ∈ m.keys, t < k.shift delay) : delayed? m delay t = none := by
  unfold delayed?
  rw [reached?_eq_none_iff.2 fun entry hentry => h _ (List.mem_map_of_mem hentry), Option.map_none]

theorem delayed?_mapValues {β : Type} (f : α → β) :
    delayed? (m.mapValues fun _ => f) delay t = (delayed? m delay t).map f := by
  unfold delayed? reached? OrderedMap.mapValues
  dsimp only
  rw [List.filter_map, List.getLast?_map, Option.map_map, Option.map_map]
  rfl

/-! ### Steps -/

/-- Whether a step counts at a stamp. -/
def counts (delay : Span) (inserted : InsertionDate) (next : Option InsertionDate) (t : Stamp) :
    Bool :=
  decide (inserted.shift delay ≤ t) && next.all fun next => decide (t < next.shift delay)

/-- The value that counts in a staircase, of what a version says at a stamp. -/
def present? (version : Series) (t : Stamp) : Option Float :=
  (version.at? t).filter fun x => !x.isNaN

theorem getD_present? (version : Series) (t : Stamp) :
    (present? version t).getD missing = version.valueOn t := by
  unfold present? Series.valueOn
  cases version.at? t with
  | none => rfl
  | some x =>
    cases hnan : x.isNaN with
    | false => rw [Option.filter_some_pos (by rw [hnan]; rfl)]
    | true =>
      rw [Option.filter_some_neg (by rw [hnan]; decide)]
      exact (Double.eq_missing hnan).symm

/-- What a step has at a stamp. -/
theorem find?_step {version : Series} (h : version.IsSorted) (inserted : InsertionDate)
    (next : Option InsertionDate) :
    (OrderedMap.ofList (step delay window inserted next version)).find? t =
      if counts delay inserted next t && window.contains t then present? version t else none := by
  have hsublist : (step delay window inserted next version).Sublist version.points :=
    List.filter_sublist
  rw [OrderedMap.find?_ofList_of_sorted (List.Pairwise.sublist (hsublist.map _) h)]
  refine (OrderedMap.find?_filter (m := ⟨version.points⟩) h (fun u x =>
    counts delay inserted next u && !x.isNaN && window.contains u) t).trans ?_
  unfold present? Series.at? OrderedMap.find?
  cases counts delay inserted next t <;> cases window.contains t <;> simp

/-- **What all steps have at a stamp**: the value of the last version that is reached, if those
before it are reached as well. -/
theorem find?_steps {entries : List (InsertionDate × Series)}
    (hdates : entries.Pairwise fun entry later =>
      later.1.shift delay ≤ t → entry.1.shift delay ≤ t)
    (hversions : ∀ entry ∈ entries, entry.2.IsSorted) :
    (OrderedMap.ofList (steps delay window entries)).find? t =
      if window.contains t then (reached? delay t entries).bind fun entry => present? entry.2 t
      else none := by
  induction entries with
  | nil => exact (ite_self none).symm
  | cons entry rest ih =>
    obtain ⟨inserted, version⟩ := entry
    rw [List.pairwise_cons] at hdates
    have ih := ih hdates.2 fun entry hentry => hversions entry (List.mem_cons_of_mem _ hentry)
    rw [steps, OrderedMap.find?_ofList_append, ih, reached?_cons,
      find?_step (hversions (inserted, version) List.mem_cons_self)]
    cases hreached : reached? delay t rest with
    | some later =>
      -- the next date is reached too, so this step is over
      have hover : counts delay inserted (rest.head?.map (·.1)) t = false := by
        obtain ⟨hmem, hle⟩ := List.mem_filter.1 (List.mem_of_getLast? hreached)
        cases rest with
        | nil => cases hmem
        | cons next more =>
          have hle : next.1.shift delay ≤ t := by
            rcases List.mem_cons.1 hmem with rfl | hmem
            · exact of_decide_eq_true hle
            · exact (List.pairwise_cons.1 hdates.2).1 later hmem (of_decide_eq_true hle)
          rw [counts, List.head?_cons, Option.map_some, Option.all_some,
            decide_eq_false (Stamp.not_lt.2 hle), Bool.and_false]
      rw [hover, Bool.false_and, if_neg Bool.false_ne_true, Option.or_none, Option.some_or]
    | none =>
      have hnext : (rest.head?.map (·.1)).all (fun next => decide (t < next.shift delay)) = true := by
        cases rest with
        | nil => rfl
        | cons next more =>
          exact decide_eq_true (reached?_eq_none_iff.1 hreached next List.mem_cons_self)
      rw [Option.bind_none, ite_self, Option.none_or, Option.none_or, counts, hnext, Bool.and_true]
      by_cases hle : inserted.shift delay ≤ t
      · rw [decide_eq_true hle, Bool.true_and, if_pos hle, Option.bind_some]
      · rw [decide_eq_false hle, Bool.false_and, if_neg Bool.false_ne_true, if_neg hle,
          Option.bind_none, ite_self]

/-! ### Staircases -/

theorem mem_steps {entries : List (InsertionDate × Series)} {point : Stamp × Float}
    (h : point ∈ steps delay window entries) : point.2.isNaN = false := by
  induction entries with
  | nil => cases h
  | cons entry rest ih =>
    rcases List.mem_append.1 h with h | h
    · have hkept := (List.mem_filter.1 h).2
      simp only [Bool.and_eq_true, Bool.not_eq_true'] at hkept
      exact hkept.1.2
    · exact ih h

/-- What is known of a staircase. -/
structure IsStaircase (h : History) (delay : Span) (window : Window) (s : Series) : Prop where
  sorted : s.IsSorted
  present : ∀ point ∈ s.points, point.2.isNaN = false
  value : ∀ t, s.valueOn t = if window.contains t then
    (delayed? h delay t).elim missing fun version => version.valueOn t else missing

/-- **A staircase says what was in effect a delay before**, and has no missing values. -/
theorem isStaircase {h : History} (hm : h.IsSorted) (hversions : ∀ s ∈ h.values, s.IsSorted)
    (hdelay : delay.KeepsOrder (· ∈ h.keys)) {name : String} {s : Series}
    (hs : h.staircase name delay window = .ok s) : IsStaircase h delay window s := by
  have hpoints : s.points = (OrderedMap.ofList (steps delay window h.entries)).entries := by
    unfold History.staircase Series.ofPoints? at hs
    split at hs
    · rw [← Except.ok.inj hs]
      rfl
    · cases hs
  have hdates (t : Stamp) : h.entries.Pairwise fun entry later =>
      later.1.shift delay ≤ t → entry.1.shift delay ≤ t := by
    refine (List.pairwise_map.1 hm).imp_of_mem fun ha hb hlt hle => Stamp.le_trans ?_ hle
    exact hdelay _ _ (List.mem_map_of_mem ha) (List.mem_map_of_mem hb)
      (Stamp.le_iff_lt_or_eq.2 (Or.inl hlt))
  refine ⟨?_, fun point hpoint => ?_, fun t => ?_⟩
  · change (s.points.map (·.1)).Pairwise (· < ·)
    rw [hpoints]
    exact OrderedMap.isSorted_ofList _
  · rw [hpoints] at hpoint
    exact mem_steps (OrderedMap.mem_ofList hpoint)
  · have hat : s.at? t = (OrderedMap.ofList (steps delay window h.entries)).find? t := by
      rw [Series.at?, hpoints]
      rfl
    rw [Series.valueOn, hat, find?_steps (hdates t) fun entry hentry =>
      hversions entry.2 (List.mem_map_of_mem hentry)]
    split
    · unfold delayed?
      cases reached? delay t h.entries with
      | none => rfl
      | some entry => exact getD_present? entry.2 t
    · rfl

/-- The window of a staircase may cut the versions as well. -/
theorem IsStaircase.of_windowed {h : History} (hversions : ∀ s ∈ h.values, s.IsSorted) {s : Series}
    (hs : IsStaircase (h.mapValues fun _ version => version.window window) delay window s) :
    IsStaircase h delay window s := by
  refine ⟨hs.sorted, hs.present, fun t => ?_⟩
  rw [hs.value, delayed?_mapValues fun version : Series => version.window window]
  by_cases hin : window.contains t = true
  · rw [if_pos hin, if_pos hin]
    cases hdelayed : delayed? h delay t with
    | none => rfl
    | some version =>
      obtain ⟨entry, hentry, rfl⟩ := Option.map_eq_some_iff.1 hdelayed
      have hmem := (List.mem_filter.1 (List.mem_of_getLast? hentry)).1
      exact (Series.valueOn_window (hversions _ (List.mem_map_of_mem hmem)) window).trans (if_pos hin)
  · rw [if_neg hin, if_neg hin]

end History

end SeriesAlgebra
