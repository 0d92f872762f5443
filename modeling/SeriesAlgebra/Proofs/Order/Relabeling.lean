import SeriesAlgebra.Proofs.Order.Map
import SeriesAlgebra.Proofs.Result

/-!
# Maps with other keys

A map may hold what another one holds, under other keys and in another order
(`OrderedMap.Relabels`). Maps that are computed entry by entry stay so related
(`OrderedMap.exists_relabels`, `OrderedMap.Relabels.exists_mapM`).
-/

namespace SeriesAlgebra

variable {ε ε' κ α β α' β' : Type}

/-- A list is mapped if each of its elements is. -/
theorem Result.exists_mapM {f : α → Except ε β} :
    ∀ {as : List α}, (∀ a ∈ as, ∃ b, f a = .ok b) → ∃ bs, as.mapM f = .ok bs
  | [], _ => ⟨[], rfl⟩
  | a :: as, h => by
    obtain ⟨b, hb⟩ := h a List.mem_cons_self
    obtain ⟨bs, hbs⟩ := exists_mapM fun a ha => h a (List.mem_cons_of_mem _ ha)
    refine ⟨b :: bs, ?_⟩
    rw [List.mapM_cons, hb, hbs]
    rfl

variable [DecidableEq κ]

/-- A sorted set is known by its elements. -/
theorem sortedSet_congr [LT κ] [DecidableLT κ] [IsStrictOrder κ] {as bs : List κ}
    (h : ∀ a, a ∈ as ↔ a ∈ bs) : sortedSet as = sortedSet bs := by
  refine IsStrictOrder.eq_of_mem_iff (pairwise_sortedSet IsStrictOrder.trans IsStrictOrder.compare as)
    (pairwise_sortedSet IsStrictOrder.trans IsStrictOrder.compare bs) fun a => ?_
  rw [mem_sortedSet, mem_sortedSet, h a]

namespace OrderedMap

variable {f : κ → κ} {R : α → β → Prop} {S : α' → β' → Prop} {m : OrderedMap κ α} {m' : OrderedMap κ β}

/-- **Whether a map holds what another one holds**, related one by one, under other keys. -/
structure Relabels (f : κ → κ) (R : α → β → Prop) (m : OrderedMap κ α) (m' : OrderedMap κ β) :
    Prop where
  image : ∀ k a, m.find? k = some a → ∃ b, m'.find? (f k) = some b ∧ R a b
  preimage : ∀ k' b, m'.find? k' = some b → ∃ k a, k' = f k ∧ m.find? k = some a ∧ R a b

theorem Relabels.mono {R' : α → β → Prop} (h : Relabels f R m m') (hR : ∀ a b, R a b → R' a b) :
    Relabels f R' m m' where
  image k a ha := by
    obtain ⟨b, hb, hab⟩ := h.image k a ha
    exact ⟨b, hb, hR a b hab⟩
  preimage k' b hb := by
    obtain ⟨k, a, hk, ha, hab⟩ := h.preimage k' b hb
    exact ⟨k, a, hk, ha, hR a b hab⟩

variable [LT κ] [DecidableLT κ]

/-- **Maps that are collected from related keys.** -/
theorem exists_relabels {F : κ → Except ε (κ × α)} {F' : κ → Except ε' (κ × β)} {ks ks' : List κ}
    (hks : ∀ k', k' ∈ ks' ↔ ∃ k ∈ ks, k' = f k)
    (hF : ∀ k ∈ ks, ∀ entry, F k = .ok entry → entry.1 = k ∧
      ∃ b, F' (f k) = .ok (f k, b) ∧ R entry.2 b)
    {entries : List (κ × α)} (h : ks.mapM F = .ok entries) :
    ∃ entries', ks'.mapM F' = .ok entries' ∧ Relabels f R (.ofList entries) (.ofList entries') := by
  have hall := Result.forall₂_of_mapM h
  have hsome (k : κ) (hk : k ∈ ks) : ∃ a b, F k = .ok (k, a) ∧ F' (f k) = .ok (f k, b) ∧ R a b := by
    obtain ⟨⟨k', a⟩, -, ha⟩ := Result.exists_of_mem_left hall hk
    obtain ⟨rfl, b, hb, hab⟩ := hF k hk _ ha
    exact ⟨a, b, ha, hb, hab⟩
  obtain ⟨entries', hentries'⟩ : ∃ entries', ks'.mapM F' = .ok entries' := by
    refine Result.exists_mapM fun k' hk' => ?_
    obtain ⟨k, hk, rfl⟩ := (hks k').1 hk'
    obtain ⟨a, b, -, hb, -⟩ := hsome k hk
    exact ⟨_, hb⟩
  have hall' := Result.forall₂_of_mapM hentries'
  -- What is found under a key is what the key gave.
  have hfound (k : κ) (a : α) (ha : (OrderedMap.ofList entries).find? k = some a) :
      k ∈ ks ∧ F k = .ok (k, a) := by
    obtain ⟨k₁, hk₁, hF₁⟩ := Result.exists_of_mem_right hall (mem_ofList (mem_of_find? ha))
    obtain ⟨hkey, -⟩ := hF k₁ hk₁ _ hF₁
    obtain rfl : k = k₁ := hkey
    exact ⟨hk₁, hF₁⟩
  have hfound' (k' : κ) (b : β) (hb : (OrderedMap.ofList entries').find? k' = some b) :
      ∃ k ∈ ks, k' = f k ∧ F' k' = .ok (k', b) := by
    obtain ⟨k₁, hk₁, hF₁⟩ := Result.exists_of_mem_right hall' (mem_ofList (mem_of_find? hb))
    obtain ⟨k, hk, rfl⟩ := (hks k₁).1 hk₁
    obtain ⟨a, b', -, hb', -⟩ := hsome k hk
    obtain ⟨rfl, -⟩ := Prod.mk.inj (Except.ok.inj (hb'.symm.trans hF₁))
    exact ⟨k, hk, rfl, hF₁⟩
  have hthere (k : κ) (hk : k ∈ ks) : ∃ a, (OrderedMap.ofList entries).find? k = some a := by
    obtain ⟨a, b, ha, -⟩ := hsome k hk
    obtain ⟨entry, hentry, hF₁⟩ := Result.exists_of_mem_left hall hk
    obtain rfl := Except.ok.inj (ha.symm.trans hF₁)
    exact exists_find?_ofList (List.mem_map.2 ⟨_, hentry, rfl⟩)
  have hthere' (k : κ) (hk : k ∈ ks) : ∃ b, (OrderedMap.ofList entries').find? (f k) = some b := by
    obtain ⟨a, b, -, hb, -⟩ := hsome k hk
    obtain ⟨entry, hentry, hF₁⟩ := Result.exists_of_mem_left hall' ((hks _).2 ⟨k, hk, rfl⟩)
    obtain rfl := Except.ok.inj (hb.symm.trans hF₁)
    exact exists_find?_ofList (List.mem_map.2 ⟨_, hentry, rfl⟩)
  refine ⟨entries', hentries', fun k a ha => ?_, fun k' b hb => ?_⟩
  · obtain ⟨hk, hFk⟩ := hfound k a ha
    obtain ⟨-, b, hb, hab⟩ := hF k hk _ hFk
    obtain ⟨b', hb'⟩ := hthere' k hk
    obtain ⟨-, -, -, hb''⟩ := hfound' _ _ hb'
    obtain ⟨-, rfl⟩ := Prod.mk.inj (Except.ok.inj (hb.symm.trans hb''))
    exact ⟨b, hb', hab⟩
  · obtain ⟨k, hk, rfl, hF'⟩ := hfound' k' b hb
    obtain ⟨a, ha⟩ := hthere k hk
    obtain ⟨-, b', hb', hab⟩ := hF k hk _ (hfound k a ha).2
    obtain ⟨-, rfl⟩ := Prod.mk.inj (Except.ok.inj (hb'.symm.trans hF'))
    exact ⟨k, a, rfl, ha, hab⟩

variable [IsStrictOrder κ]

/-- **Maps that are computed entry by entry.** -/
theorem Relabels.exists_mapM (h : Relabels f R m m') (hm' : m'.IsSorted)
    {F : κ × α → Except ε (κ × α')} {F' : κ × β → Except ε' (κ × β')}
    (hkey : ∀ e e', F e = .ok e' → e'.1 = e.1) (hkey' : ∀ e e', F' e = .ok e' → e'.1 = e.1)
    (hF : ∀ k a b c, m.find? k = some a → R a b → F (k, a) = .ok (k, c) →
      ∃ d, F' (f k, b) = .ok (f k, d) ∧ S c d)
    {entries : List (κ × α')} (hentries : m.entries.mapM F = .ok entries) :
    ∃ entries', m'.entries.mapM F' = .ok entries' ∧
      Relabels f S (⟨entries⟩ : OrderedMap κ α') (⟨entries'⟩ : OrderedMap κ β') := by
  have hall := Result.forall₂_of_mapM hentries
  have hfrom (k : κ) (a : α) (ha : m.find? k = some a) :
      ∃ c, (⟨entries⟩ : OrderedMap κ α').find? k = some c ∧ F (k, a) = .ok (k, c) :=
    exists_lookup (fun _ _ => hkey _ _) hall ha
  obtain ⟨entries', hentries'⟩ : ∃ entries', m'.entries.mapM F' = .ok entries' := by
    refine Result.exists_mapM fun e he => ?_
    obtain ⟨k, a, hk, ha, hab⟩ := h.preimage e.1 e.2 ((mem_entries_iff hm').1 he)
    obtain ⟨c, -, hc⟩ := hfrom k a ha
    obtain ⟨d, hd, -⟩ := hF k a e.2 c ha hab hc
    rw [← hk] at hd
    exact ⟨_, hd⟩
  have hall' := Result.forall₂_of_mapM hentries'
  refine ⟨entries', hentries', fun k c hc => ?_, fun k' d hd => ?_⟩
  · obtain ⟨a, ha, hFk⟩ := exists_lookup (R := fun e' e => F e = .ok e')
      (fun _ _ he => (hkey _ _ he).symm) hall.flip hc
    obtain ⟨b, hb, hab⟩ := h.image k a ha
    obtain ⟨d, hd, hcd⟩ := hF k a b c ha hab hFk
    obtain ⟨d', hd', hF'⟩ := exists_lookup (fun _ _ => hkey' _ _) hall' hb
    obtain ⟨-, rfl⟩ := Prod.mk.inj (Except.ok.inj (hd.symm.trans hF'))
    exact ⟨d, hd', hcd⟩
  · obtain ⟨b, hb, hF'⟩ := exists_lookup (R := fun e' e => F' e = .ok e')
      (fun _ _ he => (hkey' _ _ he).symm) hall'.flip hd
    obtain ⟨k, a, rfl, ha, hab⟩ := h.preimage k' b hb
    obtain ⟨c, hc, hFk⟩ := hfrom k a ha
    obtain ⟨d', hd', hcd⟩ := hF k a b c ha hab hFk
    obtain ⟨-, rfl⟩ := Prod.mk.inj (Except.ok.inj (hd'.symm.trans hF'))
    exact ⟨k, c, rfl, hc, hcd⟩

/-- The values of a map in order are those that it has under some key. -/
theorem mem_values_iff {m : OrderedMap κ α} (hm : m.IsSorted) {a : α} :
    a ∈ m.values ↔ ∃ k, m.find? k = some a := by
  unfold values
  rw [List.mem_map]
  constructor
  · rintro ⟨⟨k, _⟩, hentry, rfl⟩
    exact ⟨k, (mem_entries_iff hm).1 hentry⟩
  · rintro ⟨k, hk⟩
    exact ⟨_, mem_of_find? hk, rfl⟩

end OrderedMap

end SeriesAlgebra
