import SeriesAlgebra.Proofs.Order.Map
import SeriesAlgebra.Proofs.Series.Cutting
import SeriesAlgebra.Series.History

/-!
# Versions in effect

The version of a history in effect at a date is the one of its latest date up to there
(`History.asOf?_eq_some_iff`). If only the versions inserted in a window are known, then
a version that is in effect among them is in effect (`History.asOf?_of_filter`), and as
long as there is none, what is in effect does not change inside the window
(`History.asOf?_eq_of_filter`).
-/

namespace SeriesAlgebra

/-- A window has no gaps. -/
theorem Window.contains_between {w : Window} {a b t : Stamp} (ha : w.contains a = true)
    (hb : w.contains b = true) (hat : a ≤ t) (htb : t ≤ b) : w.contains t = true := by
  unfold Window.contains at *
  rw [Bool.and_eq_true] at *
  refine ⟨?_, ?_⟩
  · cases hl : w.lower with
    | none => rfl
    | some l =>
      rw [hl] at ha
      exact decide_eq_true (Stamp.le_trans (of_decide_eq_true ha.1) hat)
  · cases hu : w.upper with
    | none => rfl
    | some u =>
      rw [hu] at hb
      exact decide_eq_true (Stamp.le_trans htb (of_decide_eq_true hb.2))

namespace History

variable {α : Type} {m : OrderedMap InsertionDate α} {d : InsertionDate}

theorem le_antisymm {a b : Stamp} (hab : a ≤ b) (hba : b ≤ a) : a = b := by
  rcases Stamp.le_iff_lt_or_eq.1 hab with hlt | heq
  · exact absurd hba (fun h => Stamp.not_lt.2 h hlt)
  · exact heq

/-- No version is in effect before the first. -/
theorem asOf?_eq_none_iff : asOf? m d = none ↔ ∀ k ∈ m.keys, d < k := by
  unfold asOf? entryAsOf?
  rw [Option.map_eq_none_iff, List.getLast?_eq_none_iff, List.filter_eq_nil_iff]
  constructor
  · intro h k hk
    obtain ⟨entry, hentry, rfl⟩ := List.mem_map.1 hk
    by_contra hlt
    exact h entry hentry (decide_eq_true (Stamp.not_lt.1 hlt))
  · intro h entry hentry hle
    have hlt := h entry.1 (List.mem_map_of_mem hentry)
    exact Stamp.not_lt.2 (of_decide_eq_true hle) hlt

/-- The last entry of a kind is later than the others of the kind. -/
theorem last_of_filter (hm : m.IsSorted) {p : InsertionDate × α → Bool} {entry : InsertionDate × α}
    (h : (m.entries.filter p).getLast? = some entry) : m.find? entry.1 = some entry.2 ∧
      p entry = true ∧ ∀ other ∈ m.entries, p other = true → other.1 ≤ entry.1 := by
  obtain ⟨before, hsplit⟩ := List.getLast?_eq_some_iff.1 h
  have hmem : entry ∈ before ++ [entry] := List.mem_append_right _ (List.mem_singleton.2 rfl)
  rw [← hsplit] at hmem
  obtain ⟨hentry, hkind⟩ := List.mem_filter.1 hmem
  refine ⟨(OrderedMap.mem_entries_iff hm).1 hentry, hkind, fun other hother hkind' => ?_⟩
  have hsorted : ((before ++ [entry]).map (·.1)).Pairwise (· < ·) := by
    rw [← hsplit]
    exact List.Pairwise.sublist (List.filter_sublist.map _) hm
  have hmem' : other ∈ before ++ [entry] := by
    rw [← hsplit]
    exact List.mem_filter.2 ⟨hother, hkind'⟩
  rcases List.mem_append.1 hmem' with hbefore | hself
  · rw [List.map_append, List.pairwise_append] at hsorted
    exact Stamp.le_iff_lt_or_eq.2 (Or.inl
      (hsorted.2.2 _ (List.mem_map_of_mem hbefore) entry.1 (List.mem_singleton.2 rfl)))
  · rw [List.mem_singleton.1 hself]
    exact Stamp.le_refl _

/-- The version in effect has a date, and no other date up to there is later. -/
theorem exists_of_asOf? (hm : m.IsSorted) {a : α} (h : asOf? m d = some a) :
    ∃ k, m.find? k = some a ∧ k ≤ d ∧ ∀ k' ∈ m.keys, k' ≤ d → k' ≤ k := by
  obtain ⟨⟨k, b⟩, hlast, rfl⟩ := Option.map_eq_some_iff.1 h
  obtain ⟨hfind, hle, hlatest⟩ := last_of_filter hm hlast
  refine ⟨k, hfind, of_decide_eq_true hle, fun k' hk' hle' => ?_⟩
  obtain ⟨entry, hentry, rfl⟩ := List.mem_map.1 hk'
  exact hlatest entry hentry (decide_eq_true hle')

/-- **The version in effect** is the one of the latest date. -/
theorem asOf?_eq_some_iff (hm : m.IsSorted) {a : α} : asOf? m d = some a ↔
    ∃ k, m.find? k = some a ∧ k ≤ d ∧ ∀ k' ∈ m.keys, k' ≤ d → k' ≤ k := by
  refine ⟨exists_of_asOf? hm, ?_⟩
  rintro ⟨k, hk, hle, hlatest⟩
  have hkeys {k : InsertionDate} {a : α} (h : m.find? k = some a) : k ∈ m.keys :=
    List.mem_map_of_mem (OrderedMap.mem_of_find? h)
  cases hasOf : asOf? m d with
  | none => exact absurd (asOf?_eq_none_iff.1 hasOf k (hkeys hk)) (Stamp.not_lt.2 hle)
  | some b =>
    obtain ⟨l, hl, hle', hlatest'⟩ := exists_of_asOf? hm hasOf
    obtain rfl := le_antisymm (hlatest l (hkeys hl) hle') (hlatest' k (hkeys hk) hle)
    exact hl.symm.trans hk

/-! ### Windows of insertion dates -/

section

variable {w : Window} {first : InsertionDate}

theorem mem_keys_filter {k : InsertionDate} :
    k ∈ (m.filter fun date _ => w.contains date).keys ↔ k ∈ m.keys ∧ w.contains k = true := by
  unfold OrderedMap.keys OrderedMap.filter
  simp only [List.mem_map, List.mem_filter]
  constructor
  · rintro ⟨entry, ⟨hentry, hkept⟩, rfl⟩
    exact ⟨⟨entry, hentry, rfl⟩, hkept⟩
  · rintro ⟨⟨entry, hentry, rfl⟩, hkept⟩
    exact ⟨entry, ⟨hentry, hkept⟩, rfl⟩

/-- A version in effect among those inserted in a window is in effect. -/
theorem asOf?_of_filter (hm : m.IsSorted) (hd : w.contains d = true) {a : α}
    (h : asOf? (m.filter fun date _ => w.contains date) d = some a) : asOf? m d = some a := by
  have hsorted := OrderedMap.isSorted_filter hm fun date _ => w.contains date
  obtain ⟨k, hk, hle, hlatest⟩ := (asOf?_eq_some_iff hsorted).1 h
  rw [OrderedMap.find?_filter hm] at hk
  obtain ⟨hfind, hkept⟩ := Option.filter_eq_some_iff.1 hk
  refine (asOf?_eq_some_iff hm).2 ⟨k, hfind, hle, fun k' hk' hle' => ?_⟩
  rcases Stamp.le_total k' k with hlower | hupper
  · exact hlower
  · exact hlatest k' (mem_keys_filter.2 ⟨hk', Window.contains_between hkept hd hupper hle'⟩) hle'

/-- If nothing was inserted in a window up to a date, the version at the date is that of an earlier
date in the window. -/
theorem asOf?_eq_of_filter (hfirst : w.contains first = true) (hd : w.contains d = true)
    (hle : first ≤ d) (h : asOf? (m.filter fun date _ => w.contains date) d = none) :
    asOf? m d = asOf? m first := by
  unfold asOf? entryAsOf?
  congr 2
  refine List.filter_congr fun entry hentry => ?_
  refine decide_eq_decide.2 ⟨fun hentryLe => ?_, fun hentryLe => Stamp.le_trans hentryLe hle⟩
  rcases Stamp.le_total entry.1 first with hbefore | hafter
  · exact hbefore
  · have hkept := Window.contains_between hfirst hd hafter hentryLe
    have hlt := asOf?_eq_none_iff.1 h entry.1
      (mem_keys_filter.2 ⟨List.mem_map_of_mem hentry, hkept⟩)
    exact absurd hlt (Stamp.not_lt.2 hentryLe)

end

/-- What is in effect once an earliest version is there. -/
theorem asOf?_insert_first (hm : m.IsSorted) {first : InsertionDate}
    (hfirst : ∀ k ∈ m.keys, first < k) (hle : first ≤ d) (a : α) :
    asOf? (m.insert first a) d = (asOf? m d).or (some a) := by
  have hsorted := OrderedMap.isSorted_insert hm first a
  have hle' {k : InsertionDate} (hk : k ∈ m.keys) : first ≤ k :=
    Stamp.le_iff_lt_or_eq.2 (Or.inl (hfirst k hk))
  cases hasOf : asOf? m d with
  | none =>
    refine (asOf?_eq_some_iff hsorted).2 ⟨first, OrderedMap.find?_insert_self m first a, hle, ?_⟩
    intro k' hk' hk'd
    rcases OrderedMap.mem_keys_insert.1 hk' with rfl | hk'
    · exact Stamp.le_refl _
    · exact absurd (asOf?_eq_none_iff.1 hasOf k' hk') (Stamp.not_lt.2 hk'd)
  | some b =>
    obtain ⟨k, hk, hkd, hlatest⟩ := (asOf?_eq_some_iff hm).1 hasOf
    have hmem : k ∈ m.keys := List.mem_map_of_mem (OrderedMap.mem_of_find? hk)
    have hne : k ≠ first := fun heq => Stamp.lt_irrefl first (heq ▸ hfirst k hmem)
    refine (asOf?_eq_some_iff hsorted).2 ⟨k, (OrderedMap.find?_insert_of_ne m hne a).trans hk, hkd, ?_⟩
    intro k' hk' hk'd
    rcases OrderedMap.mem_keys_insert.1 hk' with rfl | hk'
    · exact hle' hmem
    · exact hlatest k' hk' hk'd

end History

end SeriesAlgebra
