import SeriesAlgebra.Metadata

/-!
# The two kinds of keys

Setting members changes the values of their keys and of no other (`Metadata.lookup_setAll`), and
lists no key twice. The user's updates therefore leave the internal members as they are, whether
they are made one by one (`Metadata.internal_update`) or carried over to a formula that is
registered again (`Metadata.internal_withPreserved`), and only these change what the user has set.
-/

namespace SeriesAlgebra

namespace Metadata

variable {key other : String} {value : Json} {m updates : Metadata}

/-- The members that only the engine sets. -/
def internal (m : Metadata) : Metadata := m.filter fun (key, _) => isInternal key

/-- The keys, in order. -/
def keys (m : Metadata) : List String := m.map (·.1)

/-! ### One member -/

theorem lookup_set_self (key : String) (value : Json) (m : Metadata) :
    List.lookup key (m.set key value) = some value := by
  induction m with
  | nil => exact List.lookup_cons_self
  | cons entry rest ih =>
    obtain ⟨k, v⟩ := entry
    rw [set]
    split
    · exact List.lookup_cons_self
    · rename_i hk
      rw [List.lookup_cons, beq_false_of_ne (Ne.symm hk)]
      exact ih

theorem lookup_set_of_ne (h : other ≠ key) (value : Json) (m : Metadata) :
    List.lookup other (m.set key value) = List.lookup other m := by
  induction m with
  | nil =>
    rw [set, List.lookup_cons, beq_false_of_ne h]
  | cons entry rest ih =>
    obtain ⟨k, v⟩ := entry
    rw [set]
    split
    · rename_i hk
      subst hk
      simp only [List.lookup_cons, beq_false_of_ne h]
    · simp only [List.lookup_cons, ih]

theorem internal_set (h : isInternal key = false) (value : Json) (m : Metadata) :
    (m.set key value).internal = m.internal := by
  unfold internal
  induction m with
  | nil =>
    rw [set, List.filter_cons_of_neg (by simpa using h)]
  | cons entry rest ih =>
    obtain ⟨k, v⟩ := entry
    rw [set]
    split
    · rename_i hk
      subst hk
      rw [List.filter_cons_of_neg (by simpa using h), List.filter_cons_of_neg (by simpa using h)]
    · rw [List.filter_cons, List.filter_cons, ih]

theorem mem_keys_set (h : other ∈ (m.set key value).keys) : other = key ∨ other ∈ m.keys := by
  induction m with
  | nil => exact Or.inl (List.mem_singleton.1 h)
  | cons entry rest ih =>
    obtain ⟨k, v⟩ := entry
    rw [set] at h
    split at h
    · rename_i hk
      subst hk
      exact Or.inr h
    · rcases List.mem_cons.1 h with rfl | h
      · exact Or.inr List.mem_cons_self
      · exact (ih h).imp_right (List.mem_cons_of_mem _)

/-- A member that is set is in its place, or it is new. -/
theorem nodup_keys_set (h : m.keys.Nodup) (key : String) (value : Json) :
    (m.set key value).keys.Nodup := by
  induction m with
  | nil => exact List.nodup_cons.2 ⟨List.not_mem_nil, h⟩
  | cons entry rest ih =>
    obtain ⟨k, v⟩ := entry
    obtain ⟨hk, hrest⟩ := List.nodup_cons.1 h
    rw [set]
    split
    · rename_i heq
      subst heq
      exact List.nodup_cons.2 ⟨hk, hrest⟩
    · rename_i hne
      exact List.nodup_cons.2
        ⟨fun hmem => (mem_keys_set hmem).elim hne hk, ih hrest⟩

/-! ### Several members -/

/-- The last member that is set under a key counts. -/
theorem lookup_setAll (key : String) (updates m : Metadata) :
    List.lookup key (m.setAll updates) =
      (List.lookup key updates.reverse).or (List.lookup key m) := by
  unfold setAll
  induction updates generalizing m with
  | nil => rfl
  | cons u rest ih =>
    rw [List.foldl_cons, ih, List.reverse_cons, List.lookup_append, Option.or_assoc]
    refine congrArg _ ?_
    by_cases hkey : key = u.1
    · subst hkey
      rw [lookup_set_self, List.lookup_cons_self]
      rfl
    · rw [lookup_set_of_ne hkey, List.lookup_cons, beq_false_of_ne hkey]
      rfl

theorem internal_setAll (h : ∀ u ∈ updates, isInternal u.1 = false) (m : Metadata) :
    (m.setAll updates).internal = m.internal := by
  unfold setAll
  induction updates generalizing m with
  | nil => rfl
  | cons u rest ih =>
    rw [List.foldl_cons, ih fun v hv => h v (List.mem_cons_of_mem _ hv),
      internal_set (h u List.mem_cons_self)]

theorem nodup_keys_setAll (h : m.keys.Nodup) (updates : Metadata) :
    (m.setAll updates).keys.Nodup := by
  unfold setAll
  induction updates generalizing m with
  | nil => exact h
  | cons u rest ih => exact ih (nodup_keys_set h u.1 u.2)

/-! ### Updates -/

/-- An update that names an internal key is refused, whatever else it names. -/
theorem exists_update_error (h : ∃ u ∈ updates, isInternal u.1 = true) (m : Metadata) :
    ∃ key, m.update updates = .error (.protectedMetadata key) := by
  obtain ⟨u, hu, hinternal⟩ := h
  obtain ⟨key, hkey⟩ : ∃ key, (updates.map (·.1)).find? isInternal = some key :=
    Option.isSome_iff_exists.1 <|
      List.find?_isSome.2 ⟨u.1, List.mem_map_of_mem hu, hinternal⟩
  exact ⟨key, by rw [update, hkey]⟩

/-- Any other update is made as a whole. -/
theorem update_ok {m' : Metadata} (h : m.update updates = .ok m') :
    (∀ u ∈ updates, isInternal u.1 = false) ∧ m' = m.setAll updates := by
  unfold update at h
  split at h
  · cases h
  · rename_i hnone
    refine ⟨fun u hu => ?_, (Except.ok.inj h).symm⟩
    exact Bool.eq_false_iff.2 (List.find?_eq_none.1 hnone u.1 (List.mem_map_of_mem hu))

theorem internal_update {m' : Metadata} (h : m.update updates = .ok m') :
    m'.internal = m.internal := by
  obtain ⟨hupdates, rfl⟩ := update_ok h
  exact internal_setAll hupdates m

/-! ### New metadata -/

theorem internal_initial (aware : Bool) : (initial aware).internal = initial aware := rfl

theorem nodup_keys_initial (aware : Bool) : (initial aware).keys.Nodup := by
  change internalKeys.Nodup
  decide

/-- New metadata are about the internal keys only. -/
theorem lookup_initial (h : isInternal key = false) (aware : Bool) :
    List.lookup key (initial aware) = none :=
  List.lookup_eq_none_iff.2 fun u hu => bne_iff_ne.2 <| by
    rintro rfl
    have hinternal : u.1 ∈ internalKeys := List.mem_map_of_mem hu
    exact Bool.eq_false_iff.1 h (List.contains_iff_mem.2 hinternal)

/-- What is carried over is the user's. -/
theorem isInternal_preserved {previous : Metadata} :
    ∀ u ∈ previous.filter (fun (key, _) => !isInternal key), isInternal u.1 = false :=
  fun _ hu => by simpa using (List.mem_filter.1 hu).2

theorem internal_withPreserved (fresh : Metadata) (previous : Option Metadata) :
    (fresh.withPreserved previous).internal = fresh.internal :=
  internal_setAll isInternal_preserved fresh

theorem nodup_keys_withPreserved {fresh : Metadata} (h : fresh.keys.Nodup)
    (previous : Option Metadata) : (fresh.withPreserved previous).keys.Nodup :=
  nodup_keys_setAll h _

/-- Where no key is listed twice, it does not matter from which end one looks. -/
theorem lookup_reverse (h : m.keys.Nodup) (key : String) :
    List.lookup key m.reverse = List.lookup key m := by
  induction m with
  | nil => rfl
  | cons entry rest ih =>
    obtain ⟨k, v⟩ := entry
    obtain ⟨hk, hrest⟩ := List.nodup_cons.1 h
    rw [List.reverse_cons, List.lookup_append, ih hrest]
    by_cases hkey : key = k
    · subst hkey
      have hnone : List.lookup key rest = none :=
        List.lookup_eq_none_iff.2 fun u hu => bne_iff_ne.2 fun heq =>
          hk (List.mem_map.2 ⟨u, hu, heq.symm⟩)
      rw [hnone, List.lookup_cons_self, List.lookup_cons_self]
      rfl
    · rw [List.lookup_cons, beq_false_of_ne hkey, List.lookup_cons, beq_false_of_ne hkey]
      exact Option.or_none

/-- A key is found among the members of its kind. -/
theorem lookup_filter {p : String → Bool} (h : p key = true) (m : Metadata) :
    List.lookup key (m.filter fun (key, _) => p key) = List.lookup key m := by
  induction m with
  | nil => rfl
  | cons entry rest ih =>
    obtain ⟨k, v⟩ := entry
    by_cases hkey : key = k
    · subst hkey
      rw [List.filter_cons_of_pos (by exact h), List.lookup_cons_self, List.lookup_cons_self]
    · rw [List.lookup_cons, beq_false_of_ne hkey, ← ih]
      cases hk : p k with
      | true =>
        rw [List.filter_cons_of_pos (by exact hk), List.lookup_cons, beq_false_of_ne hkey]
      | false => rw [List.filter_cons_of_neg (by simpa using hk)]

/-- **A formula that is registered again keeps what its user has set.** -/
theorem lookup_withPreserved (h : isInternal key = false) (aware : Bool) {previous : Option Metadata}
    (hprevious : ∀ m, previous = some m → m.keys.Nodup) :
    List.lookup key ((initial aware).withPreserved previous) =
      previous.bind (List.lookup key) := by
  rw [withPreserved, lookup_setAll, lookup_initial h, Option.or_none]
  cases previous with
  | none => rfl
  | some m =>
    let kept : Metadata := m.filter fun (key, _) => !isInternal key
    have hkept : kept.keys.Nodup := (hprevious m rfl).sublist (List.filter_sublist.map _)
    exact (lookup_reverse hkept key).trans
      (lookup_filter (p := fun key => !isInternal key) (by rw [h]; rfl) m)

/-! ### Awareness -/

/-- Awareness is an internal member. -/
theorem aware?_internal (m : Metadata) : m.internal.aware? = m.aware? :=
  congrArg (Option.bind · Json.bool?) (lookup_filter rfl m)

theorem aware?_update {m' : Metadata} (h : m.update updates = .ok m') : m'.aware? = m.aware? := by
  rw [← aware?_internal, internal_update h, aware?_internal]

theorem aware?_withPreserved (fresh : Metadata) (previous : Option Metadata) :
    (fresh.withPreserved previous).aware? = fresh.aware? := by
  rw [← aware?_internal, internal_withPreserved, aware?_internal]

end Metadata

end SeriesAlgebra
