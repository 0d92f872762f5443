/-!
# Maps in key order

A map is kept as the list of its entries in increasing order of their keys, each
key once. What a reader of a map can see – its keys, its values, the entry of a
key – is read off that list, and two maps with the same entries are equal.

Main statements: what `insert` and `erase` do to `find?`, which hold of every list
of entries, in order or not.
-/

namespace SeriesAlgebra

/-- Entries in increasing order of their keys. -/
structure OrderedMap (κ : Type) (α : Type) where
  entries : List (κ × α)

namespace OrderedMap

variable {κ α β : Type}

/-- The map without entries. -/
def empty : OrderedMap κ α := ⟨[]⟩

instance : Inhabited (OrderedMap κ α) := ⟨empty⟩

/-- The keys, in order. -/
def keys (m : OrderedMap κ α) : List κ := m.entries.map (·.1)

/-- The values, in the order of their keys. -/
def values (m : OrderedMap κ α) : List α := m.entries.map (·.2)

/-- The number of entries. -/
def size (m : OrderedMap κ α) : Nat := m.entries.length

/-- Whether there is no entry. -/
def isEmpty (m : OrderedMap κ α) : Bool := m.entries.isEmpty

/-- Every value replaced by its image. -/
def mapValues (f : κ → α → β) (m : OrderedMap κ α) : OrderedMap κ β :=
  ⟨m.entries.map fun (k, a) => (k, f k a)⟩

/-- The entries with a certain property. -/
def filter (p : κ → α → Bool) (m : OrderedMap κ α) : OrderedMap κ α :=
  ⟨m.entries.filter fun (k, a) => p k a⟩

/-- The entry of the greatest key. -/
def last? (m : OrderedMap κ α) : Option (κ × α) := m.entries.getLast?

section Keys

variable [DecidableEq κ]

/-- The value of a key. -/
def find? (m : OrderedMap κ α) (k : κ) : Option α := m.entries.lookup k

/-- Whether a key has a value. -/
def contains (m : OrderedMap κ α) (k : κ) : Bool := (m.find? k).isSome

/-- The map without the entry of a key. -/
def erase (m : OrderedMap κ α) (k : κ) : OrderedMap κ α :=
  ⟨m.entries.filter fun (k', _) => k' ≠ k⟩

/-- The value of one key replaced by its image. -/
def modify (m : OrderedMap κ α) (k : κ) (f : α → α) : OrderedMap κ α :=
  ⟨m.entries.map fun (k', a) => if k' = k then (k', f a) else (k', a)⟩

variable [LT κ] [DecidableLT κ]

/-- The entries with one more, in its place, or in the place of the entry of the same key. -/
def insertEntry (k : κ) (a : α) : List (κ × α) → List (κ × α)
  | [] => [(k, a)]
  | (k', a') :: rest =>
    if k = k' then (k, a) :: rest
    else if k < k' then (k, a) :: (k', a') :: rest
    else (k', a') :: insertEntry k a rest

/-- The map in which a key has a given value. -/
def insert (m : OrderedMap κ α) (k : κ) (a : α) : OrderedMap κ α := ⟨insertEntry k a m.entries⟩

/-- The entries with one more, in its place, unless its key has one already. -/
def insertAbsentEntry (k : κ) (a : α) : List (κ × α) → List (κ × α)
  | [] => [(k, a)]
  | (k', a') :: rest =>
    if k = k' then (k', a') :: rest
    else if k < k' then (k, a) :: (k', a') :: rest
    else (k', a') :: insertAbsentEntry k a rest

/-- The map of a list of entries; of several with one key the last counts. -/
def ofList (entries : List (κ × α)) : OrderedMap κ α :=
  ⟨entries.foldr (fun (k, a) rest => insertAbsentEntry k a rest) []⟩

end Keys

/-! ### Laws -/

section Laws

variable [DecidableEq κ]

@[simp] theorem find?_empty (k : κ) : (empty : OrderedMap κ α).find? k = none := rfl

theorem lookup_filter_ne (k : κ) (entries : List (κ × α)) :
    (entries.filter fun (k', _) => k' ≠ k).lookup k = none := by
  induction entries with
  | nil => rfl
  | cons e rest ih =>
    obtain ⟨k', a⟩ := e
    by_cases h : k' = k
    · simpa [List.filter_cons, h] using ih
    · have hk : (k == k') = false := beq_false_of_ne (Ne.symm h)
      simpa [List.filter_cons, h, List.lookup_cons, hk] using ih

theorem lookup_filter_of_ne {k k' : κ} (h : k' ≠ k) (entries : List (κ × α)) :
    (entries.filter fun (k'', _) => k'' ≠ k).lookup k' = entries.lookup k' := by
  induction entries with
  | nil => rfl
  | cons e rest ih =>
    obtain ⟨k'', a⟩ := e
    by_cases hk : k'' = k
    · subst hk
      have hk' : (k' == k'') = false := beq_false_of_ne h
      simpa [List.lookup_cons, hk'] using ih
    · by_cases hkk : k' = k''
      · simp [hk, hkk]
      · have hk' : (k' == k'') = false := beq_false_of_ne hkk
        simpa [List.filter_cons, hk, List.lookup_cons, hk'] using ih

@[simp] theorem find?_erase_self (m : OrderedMap κ α) (k : κ) : (m.erase k).find? k = none :=
  lookup_filter_ne k m.entries

theorem find?_erase_of_ne (m : OrderedMap κ α) {k k' : κ} (h : k' ≠ k) :
    (m.erase k).find? k' = m.find? k' :=
  lookup_filter_of_ne h m.entries

variable [LT κ] [DecidableLT κ]

theorem lookup_insertEntry_self (k : κ) (a : α) (entries : List (κ × α)) :
    (insertEntry k a entries).lookup k = some a := by
  induction entries with
  | nil => simp [insertEntry]
  | cons e rest ih =>
    obtain ⟨k', a'⟩ := e
    unfold insertEntry
    split
    · simp
    · rename_i hne
      split
      · simp
      · have : (k == k') = false := beq_false_of_ne hne
        simpa [List.lookup_cons, this] using ih

theorem lookup_insertEntry_of_ne {k k' : κ} (h : k' ≠ k) (a : α) (entries : List (κ × α)) :
    (insertEntry k a entries).lookup k' = entries.lookup k' := by
  have hk : (k' == k) = false := beq_false_of_ne h
  induction entries with
  | nil => simp [insertEntry, List.lookup_cons, hk]
  | cons e rest ih =>
    obtain ⟨k'', a''⟩ := e
    unfold insertEntry
    split
    · rename_i heq
      subst heq
      simp [List.lookup_cons, hk]
    · split
      · simp [List.lookup_cons, hk]
      · simp [List.lookup_cons, ih]

@[simp] theorem find?_insert_self (m : OrderedMap κ α) (k : κ) (a : α) :
    (m.insert k a).find? k = some a :=
  lookup_insertEntry_self k a m.entries

theorem find?_insert_of_ne (m : OrderedMap κ α) {k k' : κ} (h : k' ≠ k) (a : α) :
    (m.insert k a).find? k' = m.find? k' :=
  lookup_insertEntry_of_ne h a m.entries

end Laws

end OrderedMap

end SeriesAlgebra
