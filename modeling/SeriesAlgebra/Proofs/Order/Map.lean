import Mathlib.Data.List.Forall2
import Mathlib.Data.List.Sort
import SeriesAlgebra.Calendar.Stamp
import SeriesAlgebra.Order.Map
import SeriesAlgebra.Order.SortedSet

/-!
# Maps in key order

The entries of a map that is only made by its operations are in strictly increasing
order of their keys (`OrderedMap.IsSorted`), and then they are the pairs that
`OrderedMap.find?` finds (`OrderedMap.mem_entries_iff`). Two maps with the same entries
found are equal (`OrderedMap.ext_find?`).
-/

namespace SeriesAlgebra

/-- Whether `<` is a strict linear order. -/
class IsStrictOrder (κ : Type) [LT κ] : Prop where
  irrefl : ∀ a : κ, ¬ a < a
  trans : ∀ {a b c : κ}, a < b → b < c → a < c
  compare : ∀ a b : κ, a < b ∨ a = b ∨ b < a

instance : IsStrictOrder String where
  irrefl := String.lt_irrefl
  trans := String.lt_trans
  compare a b := by
    by_cases hab : a < b
    · exact Or.inl hab
    · by_cases hba : b < a
      · exact Or.inr (Or.inr hba)
      · exact Or.inr (Or.inl (String.le_antisymm hba hab))

instance : IsStrictOrder Stamp where
  irrefl := Stamp.lt_irrefl
  trans := Stamp.lt_trans
  compare a b := by
    by_cases hab : a < b
    · exact Or.inl hab
    · rcases Stamp.le_iff_lt_or_eq.1 (Stamp.not_lt.1 hab) with hba | rfl
      · exact Or.inr (Or.inr hba)
      · exact Or.inr (Or.inl rfl)

/-- Keys in order are told by which there are. -/
theorem IsStrictOrder.eq_of_mem_iff {κ : Type} [LT κ] [IsStrictOrder κ] {as bs : List κ}
    (ha : as.Pairwise (· < ·)) (hb : bs.Pairwise (· < ·)) (hmem : ∀ a, a ∈ as ↔ a ∈ bs) :
    as = bs := by
  have : Std.Irrefl fun a b : κ => a < b := ⟨IsStrictOrder.irrefl⟩
  have : Std.Antisymm fun a b : κ => a < b :=
    ⟨fun a _ hab hba => absurd (IsStrictOrder.trans hab hba) (IsStrictOrder.irrefl a)⟩
  exact ha.eq_of_mem_iff hb hmem

namespace OrderedMap

set_option linter.unusedSectionVars false

variable {κ α β : Type} [DecidableEq κ]

/-! ### Entries -/

theorem mem_of_lookup {k : κ} {a : α} {entries : List (κ × α)} (h : entries.lookup k = some a) :
    (k, a) ∈ entries := by
  obtain ⟨l₁, l₂, rfl, -⟩ := List.lookup_eq_some_iff.1 h
  simp

theorem mem_of_find? {m : OrderedMap κ α} {k : κ} {a : α} (h : m.find? k = some a) :
    (k, a) ∈ m.entries := mem_of_lookup h

/-- What is found in entries that are related one by one. -/
theorem exists_lookup {R : κ × α → κ × β → Prop} (hR : ∀ a b, R a b → b.1 = a.1)
    {entries : List (κ × α)} {others : List (κ × β)} (h : List.Forall₂ R entries others) {k : κ}
    {a : α} (ha : entries.lookup k = some a) : ∃ b, others.lookup k = some b ∧ R (k, a) (k, b) := by
  induction h with
  | nil => cases ha
  | @cons e e' rest others he _ ih =>
    obtain ⟨k', a'⟩ := e
    obtain ⟨k'', b'⟩ := e'
    obtain rfl := hR _ _ he
    rw [List.lookup_cons] at ha ⊢
    by_cases heq : k = k''
    · subst heq
      rw [beq_self_eq_true] at ha ⊢
      obtain rfl := Option.some.inj ha
      exact ⟨b', rfl, he⟩
    · rw [beq_false_of_ne heq] at ha ⊢
      exact ih ha

theorem contains_iff {m : OrderedMap κ α} {k : κ} : m.contains k = true ↔ k ∈ m.keys := by
  unfold contains find? keys
  rw [List.lookup_isSome_iff, List.mem_map]
  simp only [beq_iff_eq]
  constructor
  · rintro ⟨e, he, rfl⟩
    exact ⟨e, he, rfl⟩
  · rintro ⟨e, he, rfl⟩
    exact ⟨e, he, rfl⟩

theorem find?_eq_none_iff {m : OrderedMap κ α} {k : κ} : m.find? k = none ↔ k ∉ m.keys := by
  rw [← contains_iff, contains]
  cases m.find? k <;> simp

theorem contains_eq_false_iff {m : OrderedMap κ α} {k : κ} :
    m.contains k = false ↔ m.find? k = none := by
  rw [contains, Option.isSome_eq_false_iff, Option.isNone_iff_eq_none]

theorem find?_mapValues (f : κ → α → β) (m : OrderedMap κ α) (k : κ) :
    (m.mapValues f).find? k = (m.find? k).map (f k) := by
  obtain ⟨entries⟩ := m
  unfold mapValues find?
  dsimp only
  induction entries with
  | nil => rfl
  | cons e rest ih =>
    obtain ⟨k', a⟩ := e
    rw [List.map_cons, List.lookup_cons, List.lookup_cons]
    by_cases h : k = k'
    · subst h
      simp
    · simp [beq_false_of_ne h, ih]

@[simp] theorem keys_mapValues (f : κ → α → β) (m : OrderedMap κ α) :
    (m.mapValues f).keys = m.keys := by
  simp only [keys, mapValues, List.map_map]
  rfl

theorem find?_modify (m : OrderedMap κ α) (k k' : κ) (f : α → α) :
    (m.modify k f).find? k' = (m.find? k').map fun a => if k' = k then f a else a := by
  obtain ⟨entries⟩ := m
  unfold modify find?
  dsimp only
  induction entries with
  | nil => rfl
  | cons e rest ih =>
    obtain ⟨k'', a⟩ := e
    have hhead : (if k'' = k then (k'', f a) else (k'', a)) =
        (k'', if k'' = k then f a else a) := by
      split <;> rfl
    rw [List.map_cons, hhead, List.lookup_cons, List.lookup_cons, ih]
    by_cases h : k' = k''
    · subst h
      simp
    · simp [beq_false_of_ne h]

@[simp] theorem keys_modify (m : OrderedMap κ α) (k : κ) (f : α → α) :
    (m.modify k f).keys = m.keys := by
  simp only [keys, modify, List.map_map]
  apply List.map_congr_left
  rintro ⟨k', a⟩ -
  simp only [Function.comp]
  split <;> rfl

/-- What is found after an erasure was there before. -/
theorem find?_of_erase {m : OrderedMap κ α} {k k' : κ} {a : α}
    (h : (m.erase k).find? k' = some a) : m.find? k' = some a := by
  by_cases hk : k' = k
  · subst hk
    rw [find?_erase_self] at h
    cases h
  · rwa [find?_erase_of_ne m hk] at h

@[simp] theorem keys_erase (m : OrderedMap κ α) (k : κ) :
    (m.erase k).keys = m.keys.filter (· ≠ k) := by
  simp only [keys, erase, List.filter_map]
  rfl

variable [LT κ] [DecidableLT κ]

/-- What is found after an insertion was put there, or was there before. -/
theorem find?_of_insert {m : OrderedMap κ α} {k k' : κ} {a a' : α}
    (h : (m.insert k a).find? k' = some a') : (k' = k ∧ a' = a) ∨ m.find? k' = some a' := by
  by_cases hk : k' = k
  · subst hk
    rw [find?_insert_self] at h
    exact Or.inl ⟨rfl, (Option.some.inj h).symm⟩
  · exact Or.inr ((find?_insert_of_ne m hk a).symm.trans h)

theorem mem_keys_insertEntry {k k' : κ} {a : α} {entries : List (κ × α)} :
    k' ∈ (insertEntry k a entries).map (·.1) ↔ k' = k ∨ k' ∈ entries.map (·.1) := by
  induction entries with
  | nil => simp [insertEntry]
  | cons e rest ih =>
    obtain ⟨k'', a''⟩ := e
    unfold insertEntry
    split
    · rename_i h
      simp [h]
    · split
      · simp
      · simp only [List.map_cons, List.mem_cons, ih]
        exact or_left_comm

theorem mem_insertEntry {k k' : κ} {a a' : α} {entries : List (κ × α)}
    (h : (k', a') ∈ insertEntry k a entries) : (k' = k ∧ a' = a) ∨ (k', a') ∈ entries := by
  induction entries with
  | nil => simpa [insertEntry] using h
  | cons e rest ih =>
    obtain ⟨k'', a''⟩ := e
    unfold insertEntry at h
    split at h
    · rcases List.mem_cons.1 h with h | h
      · exact Or.inl (Prod.mk.inj h)
      · exact Or.inr (List.mem_cons_of_mem _ h)
    · split at h
      · rcases List.mem_cons.1 h with h | h
        · exact Or.inl (Prod.mk.inj h)
        · exact Or.inr h
      · rcases List.mem_cons.1 h with h | h
        · exact Or.inr (List.mem_cons.2 (Or.inl h))
        · exact (ih h).imp_right (List.mem_cons_of_mem _)

theorem mem_keys_insert {m : OrderedMap κ α} {k k' : κ} {a : α} :
    k' ∈ (m.insert k a).keys ↔ k' = k ∨ k' ∈ m.keys := mem_keys_insertEntry

theorem mem_keys_insertAbsentEntry {k k' : κ} {a : α} {entries : List (κ × α)} :
    k' ∈ (insertAbsentEntry k a entries).map (·.1) ↔ k' = k ∨ k' ∈ entries.map (·.1) := by
  induction entries with
  | nil => simp [insertAbsentEntry]
  | cons e rest ih =>
    obtain ⟨k'', a''⟩ := e
    unfold insertAbsentEntry
    split
    · rename_i h
      simp [h]
    · split
      · simp
      · simp only [List.map_cons, List.mem_cons, ih]
        exact or_left_comm

theorem mem_insertAbsentEntry {k k' : κ} {a a' : α} {entries : List (κ × α)}
    (h : (k', a') ∈ insertAbsentEntry k a entries) : (k' = k ∧ a' = a) ∨ (k', a') ∈ entries := by
  induction entries with
  | nil => simpa [insertAbsentEntry] using h
  | cons e rest ih =>
    obtain ⟨k'', a''⟩ := e
    unfold insertAbsentEntry at h
    split at h
    · exact Or.inr h
    · split at h
      · rcases List.mem_cons.1 h with h | h
        · exact Or.inl (Prod.mk.inj h)
        · exact Or.inr h
      · rcases List.mem_cons.1 h with h | h
        · exact Or.inr (List.mem_cons.2 (Or.inl h))
        · exact (ih h).imp_right (List.mem_cons_of_mem _)

/-- A map of a list has no other entries than the list. -/
theorem mem_ofList {k : κ} {a : α} {entries : List (κ × α)}
    (h : (k, a) ∈ (ofList entries).entries) : (k, a) ∈ entries := by
  induction entries with
  | nil => cases h
  | cons e rest ih =>
    obtain ⟨k', a'⟩ := e
    rcases mem_insertAbsentEntry h with ⟨rfl, rfl⟩ | h
    · exact List.mem_cons_self
    · exact List.mem_cons_of_mem _ (ih h)

theorem mem_keys_ofList {k : κ} {entries : List (κ × α)} :
    k ∈ (ofList entries).keys ↔ k ∈ entries.map (·.1) := by
  induction entries with
  | nil => rfl
  | cons e rest ih =>
    obtain ⟨k', a'⟩ := e
    change k ∈ (insertAbsentEntry k' a' (ofList rest).entries).map (·.1) ↔ _
    rw [mem_keys_insertAbsentEntry, List.map_cons, List.mem_cons]
    exact or_congr_right ih

theorem exists_find?_ofList {k : κ} {entries : List (κ × α)} (h : k ∈ entries.map (·.1)) :
    ∃ a, (ofList entries).find? k = some a :=
  Option.isSome_iff_exists.1 (contains_iff.2 (mem_keys_ofList.2 h))

/-- Nothing is lost of entries of which no two have one key. -/
theorem mem_entries_ofList {entries : List (κ × α)}
    (h : ∀ e ∈ entries, ∀ e' ∈ entries, e.1 = e'.1 → e = e') {e : κ × α} :
    e ∈ (ofList entries).entries ↔ e ∈ entries := by
  refine ⟨mem_ofList, fun he => ?_⟩
  obtain ⟨a, ha⟩ := exists_find?_ofList (List.mem_map_of_mem (f := (·.1)) he)
  have hmem := mem_of_find? ha
  rwa [h e he _ (mem_ofList hmem) rfl]

/-! ### Order -/

/-- Whether the keys are in strictly increasing order. -/
def IsSorted (m : OrderedMap κ α) : Prop := m.keys.Pairwise (· < ·)

variable [IsStrictOrder κ]

theorem ne_of_lt {a b : κ} (h : a < b) : a ≠ b := by
  rintro rfl
  exact IsStrictOrder.irrefl a h

theorem isSorted_empty : (empty : OrderedMap κ α).IsSorted := List.Pairwise.nil

theorem isSorted_insert {m : OrderedMap κ α} (h : m.IsSorted) (k : κ) (a : α) :
    (m.insert k a).IsSorted := by
  obtain ⟨entries⟩ := m
  unfold IsSorted keys insert at *
  dsimp only at *
  induction entries with
  | nil => simp [insertEntry]
  | cons e rest ih =>
    obtain ⟨k', a'⟩ := e
    obtain ⟨hhead, hrest⟩ := List.pairwise_cons.1 h
    unfold insertEntry
    split
    · rename_i heq
      subst heq
      exact h
    · rename_i hne
      split
      · rename_i hlt
        refine List.pairwise_cons.2 ⟨fun b hb => ?_, h⟩
        rcases List.mem_cons.1 hb with rfl | hb
        · exact hlt
        · exact IsStrictOrder.trans hlt (hhead b hb)
      · rename_i hnlt
        refine List.pairwise_cons.2 ⟨fun b hb => ?_, ih hrest⟩
        rcases mem_keys_insertEntry.1 hb with rfl | hb
        · exact ((IsStrictOrder.compare b k').resolve_left hnlt).resolve_left hne
        · exact hhead b hb

/-- An entry whose key comes after all others comes last. -/
theorem entries_insert_of_last {m : OrderedMap κ α} {k : κ} (h : ∀ k' ∈ m.keys, k' < k) (a : α) :
    (m.insert k a).entries = m.entries ++ [(k, a)] := by
  obtain ⟨entries⟩ := m
  change insertEntry k a entries = entries ++ [(k, a)]
  induction entries with
  | nil => rfl
  | cons e rest ih =>
    obtain ⟨k', a'⟩ := e
    obtain ⟨hhead, hrest⟩ := List.forall_mem_cons.1 h
    have hnlt : ¬ k < k' := fun hlt => IsStrictOrder.irrefl k (IsStrictOrder.trans hlt hhead)
    rw [insertEntry, if_neg (ne_of_lt hhead).symm, if_neg hnlt, ih hrest, List.cons_append]

theorem isSorted_ofList (entries : List (κ × α)) : (ofList entries).IsSorted := by
  induction entries with
  | nil => exact List.Pairwise.nil
  | cons e rest ih =>
    obtain ⟨k, a⟩ := e
    change ((insertAbsentEntry k a (ofList rest).entries).map (·.1)).Pairwise (· < ·)
    change ((ofList rest).entries.map (·.1)).Pairwise (· < ·) at ih
    generalize (ofList rest).entries = entries at ih ⊢
    induction entries with
    | nil => simp [insertAbsentEntry]
    | cons e more ihm =>
      obtain ⟨k', a'⟩ := e
      obtain ⟨hhead, hmore⟩ := List.pairwise_cons.1 ih
      unfold insertAbsentEntry
      split
      · exact ih
      · rename_i hne
        split
        · rename_i hlt
          refine List.pairwise_cons.2 ⟨fun b hb => ?_, ih⟩
          rcases List.mem_cons.1 hb with rfl | hb
          · exact hlt
          · exact IsStrictOrder.trans hlt (hhead b hb)
        · rename_i hnlt
          refine List.pairwise_cons.2 ⟨fun b hb => ?_, ihm hmore⟩
          rcases mem_keys_insertAbsentEntry.1 hb with rfl | hb
          · exact ((IsStrictOrder.compare b k').resolve_left hnlt).resolve_left hne
          · exact hhead b hb

theorem isSorted_erase {m : OrderedMap κ α} (h : m.IsSorted) (k : κ) : (m.erase k).IsSorted := by
  unfold IsSorted
  rw [keys_erase]
  exact List.Pairwise.filter _ h

theorem isSorted_filter {m : OrderedMap κ α} (h : m.IsSorted) (p : κ → α → Bool) :
    (m.filter p).IsSorted :=
  List.Pairwise.sublist (List.Sublist.map _ List.filter_sublist) h

/-- An entry of a kind that is left out is not missed. -/
theorem filter_insert_of_not {p : κ → α → Bool} {k : κ} (hk : ∀ a, p k a = false)
    (m : OrderedMap κ α) (a : α) : (m.insert k a).filter p = m.filter p := by
  obtain ⟨entries⟩ := m
  unfold insert filter
  congr 1
  induction entries with
  | nil => rw [insertEntry, List.filter_cons_of_neg (by simp [hk])]
  | cons e rest ih =>
    obtain ⟨k', a'⟩ := e
    unfold insertEntry
    split
    · rename_i heq
      subst heq
      rw [List.filter_cons_of_neg (by simp [hk]), List.filter_cons_of_neg (by simp [hk])]
    · split
      · rw [List.filter_cons_of_neg (by simp [hk])]
      · rw [List.filter_cons, List.filter_cons, ih]

theorem isSorted_modify {m : OrderedMap κ α} (h : m.IsSorted) (k : κ) (f : α → α) :
    (m.modify k f).IsSorted := by
  unfold IsSorted
  rw [keys_modify]
  exact h

theorem isSorted_mapValues {m : OrderedMap κ α} (h : m.IsSorted) (f : κ → α → β) :
    (m.mapValues f).IsSorted := by
  unfold IsSorted
  rw [keys_mapValues]
  exact h

/-- **The entries of a map in order are what is found in it.** -/
theorem mem_entries_iff {m : OrderedMap κ α} (h : m.IsSorted) {k : κ} {a : α} :
    (k, a) ∈ m.entries ↔ m.find? k = some a := by
  refine ⟨fun hmem => ?_, mem_of_find?⟩
  obtain ⟨entries⟩ := m
  unfold IsSorted keys at h
  unfold find?
  dsimp only at *
  induction entries with
  | nil => cases hmem
  | cons e rest ih =>
    obtain ⟨k', a'⟩ := e
    obtain ⟨hhead, hrest⟩ := List.pairwise_cons.1 h
    rcases List.mem_cons.1 hmem with heq | hmem
    · obtain ⟨rfl, rfl⟩ := Prod.mk.inj heq
      simp
    · have hlt : k' < k := hhead k (List.mem_map.2 ⟨(k, a), hmem, rfl⟩)
      have hne : (k == k') = false := beq_false_of_ne (ne_of_lt hlt).symm
      rw [List.lookup_cons, hne]
      exact ih hrest hmem

/-- What is found after filtering. -/
theorem find?_filter {m : OrderedMap κ α} (h : m.IsSorted) (p : κ → α → Bool) (k : κ) :
    (m.filter p).find? k = (m.find? k).filter (p k) := by
  apply Option.ext
  intro a
  rw [← mem_entries_iff (isSorted_filter h p), filter, List.mem_filter, mem_entries_iff h]
  cases hk : m.find? k with
  | none => simp
  | some b =>
    simp only [Option.some.injEq, Option.filter_some]
    constructor
    · rintro ⟨rfl, hp⟩
      rw [if_pos hp]
    · intro hb
      split at hb
      · rename_i hp
        obtain rfl := Option.some.inj hb
        exact ⟨rfl, hp⟩
      · cases hb

/-- What is found in a map of a list: the last entry of the key. -/
theorem find?_ofList_cons (k : κ) (a : α) (rest : List (κ × α)) (k' : κ) :
    (ofList ((k, a) :: rest)).find? k' =
      ((ofList rest).find? k').or (if k = k' then some a else none) := by
  have hsorted := isSorted_ofList rest
  change (insertAbsentEntry k a (ofList rest).entries).lookup k' =
    ((ofList rest).entries.lookup k').or _
  change ((ofList rest).entries.map (·.1)).Pairwise (· < ·) at hsorted
  generalize (ofList rest).entries = entries at hsorted ⊢
  induction entries with
  | nil =>
    by_cases h : k = k'
    · subst h
      simp [insertAbsentEntry]
    · simp [insertAbsentEntry, List.lookup_cons, beq_false_of_ne (Ne.symm h), h]
  | cons e more ih =>
    obtain ⟨k'', a''⟩ := e
    obtain ⟨hhead, hmore⟩ := List.pairwise_cons.1 hsorted
    unfold insertAbsentEntry
    split
    · rename_i heq
      subst heq
      rw [List.lookup_cons]
      by_cases h : k' = k
      · subst h
        simp
      · simp [beq_false_of_ne h, Ne.symm h]
    · rename_i hne
      split
      · rename_i hlt
        by_cases h : k = k'
        · subst h
          have hnone : ((k'', a'') :: more).lookup k = none := by
            rw [List.lookup_eq_none_iff]
            intro e he
            rcases List.mem_cons.1 he with rfl | he
            · simpa using hne
            · have := IsStrictOrder.trans hlt (hhead e.1 (List.mem_map.2 ⟨e, he, rfl⟩))
              simpa using ne_of_lt this
          rw [List.lookup_cons, hnone]
          simp
        · rw [List.lookup_cons, beq_false_of_ne (Ne.symm h)]
          simp [h]
      · rw [List.lookup_cons, List.lookup_cons, ih hmore]
        split <;> simp

/-- What is found in maps of two lists whose entries go with each other one by one. -/
theorem rel_find?_ofList {R : α → β → Prop} {xs : List (κ × α)} {ys : List (κ × β)}
    (h : List.Forall₂ (fun e e' => e'.1 = e.1 ∧ R e.2 e'.2) xs ys) (k : κ) :
    Option.Rel R ((ofList xs).find? k) ((ofList ys).find? k) := by
  induction h with
  | nil => exact .none
  | @cons e e' xs ys he _ ih =>
    obtain ⟨k', a⟩ := e
    obtain ⟨k'', b⟩ := e'
    obtain ⟨rfl, hab⟩ := he
    rw [find?_ofList_cons, find?_ofList_cons]
    generalize (ofList xs).find? k = u at ih ⊢
    generalize (ofList ys).find? k = v at ih ⊢
    cases ih with
    | some h => exact .some h
    | none =>
      split
      · exact .some hab
      · exact .none

theorem find?_ofList_append (xs ys : List (κ × α)) (k : κ) :
    (ofList (xs ++ ys)).find? k = ((ofList ys).find? k).or ((ofList xs).find? k) := by
  induction xs with
  | nil => exact (Option.or_none).symm
  | cons e rest ih =>
    obtain ⟨k', a⟩ := e
    rw [List.cons_append, find?_ofList_cons, find?_ofList_cons, ih, Option.or_assoc]

/-- What is found in a map of a list is the value of the last entry of the key. -/
theorem find?_ofList_eq (entries : List (κ × α)) (k : κ) :
    (ofList entries).find? k = ((entries.filter fun e => e.1 = k).getLast?).map (·.2) := by
  induction entries with
  | nil => rfl
  | cons e rest ih =>
    obtain ⟨k', a⟩ := e
    rw [find?_ofList_cons, ih, List.filter_cons]
    by_cases hkk : k' = k
    · rw [if_pos hkk, if_pos (decide_eq_true hkk), List.getLast?_cons]
      cases (rest.filter fun e => e.1 = k).getLast? <;> rfl
    · rw [if_neg hkk, if_neg (by simpa using hkk), Option.or_none]

/-- What is found in a map of a list in order. -/
theorem find?_ofList_of_sorted {entries : List (κ × α)} (h : (entries.map (·.1)).Pairwise (· < ·))
    (k : κ) : (ofList entries).find? k = entries.lookup k := by
  induction entries with
  | nil => rfl
  | cons e rest ih =>
    obtain ⟨k', a⟩ := e
    obtain ⟨hhead, hrest⟩ := List.pairwise_cons.1 h
    rw [find?_ofList_cons, List.lookup_cons, ih hrest]
    by_cases hkk : k = k'
    · subst hkk
      have hnone : rest.lookup k = none :=
        (find?_eq_none_iff (m := ⟨rest⟩)).2 fun hmem => ne_of_lt (hhead k hmem) rfl
      rw [hnone, if_pos rfl, beq_self_eq_true, Option.none_or]
    · rw [if_neg (Ne.symm hkk), beq_false_of_ne hkk, Option.or_none]

/-- Entries in order are told by which there are. -/
theorem eq_of_mem_iff {as bs : List (κ × α)} (ha : (as.map (·.1)).Pairwise (· < ·))
    (hb : (bs.map (·.1)).Pairwise (· < ·)) (hmem : ∀ e, e ∈ as ↔ e ∈ bs) : as = bs := by
  have : Std.Irrefl fun e e' : κ × α => e.1 < e'.1 := ⟨fun e => IsStrictOrder.irrefl e.1⟩
  have : Std.Antisymm fun e e' : κ × α => e.1 < e'.1 :=
    ⟨fun e _ h h' => absurd (IsStrictOrder.trans h h') (IsStrictOrder.irrefl e.1)⟩
  exact (List.pairwise_map.1 ha).eq_of_mem_iff (List.pairwise_map.1 hb) hmem

/-- **Maps in order with the same entries found are equal.** -/
theorem ext_find? {m n : OrderedMap κ α} (hm : m.IsSorted) (hn : n.IsSorted)
    (h : ∀ k, m.find? k = n.find? k) : m = n := by
  obtain ⟨as⟩ := m
  obtain ⟨bs⟩ := n
  congr 1
  refine eq_of_mem_iff hm hn ?_
  rintro ⟨k, a⟩
  rw [mem_entries_iff (m := ⟨as⟩) hm, mem_entries_iff (m := ⟨bs⟩) hn, h k]

end OrderedMap

end SeriesAlgebra
