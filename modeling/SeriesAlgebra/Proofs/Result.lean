import Mathlib.Data.List.Forall2

/-!
# Results

What it takes for a computation that may fail to succeed, what it may fail with
(`Result.FailsOnly`), and when success goes over from one to another (`Yields`): along
sequences of steps, mappings and lists.
-/

namespace SeriesAlgebra

variable {ε ε' α β α' β' : Type}

namespace Result

theorem bind_ok {x : Except ε α} {f : α → Except ε β} {b : β} (h : x >>= f = .ok b) :
    ∃ a, x = .ok a ∧ f a = .ok b := by
  cases x with
  | error e => cases h
  | ok a => exact ⟨a, rfl, h⟩

theorem bind_of_ok {x : Except ε α} {a : α} (h : x = .ok a) (f : α → Except ε β) :
    x >>= f = f a := h ▸ rfl

/-- What is computed from a part of a result is the same for results with the same part. -/
theorem mapError_bind_congr {γ : Type} {x y : Except ε α} {p : α → γ} (h : p <$> x = p <$> y)
    (f : ε → ε') (g : γ → Except ε' β) :
    (x.mapError f >>= fun a => g (p a)) = y.mapError f >>= fun a => g (p a) := by
  cases x with
  | error e =>
    cases y with
    | error e' =>
      obtain rfl := Except.error.inj h
      rfl
    | ok b => cases h
  | ok a =>
    cases y with
    | error e' => cases h
    | ok b => exact congrArg g (Except.ok.inj h)

/-- What is computed after something else is the same if it is wherever that succeeds. -/
theorem bind_congr_of_ok {x : Except ε α} {f g : α → Except ε β}
    (h : ∀ a, x = .ok a → f a = g a) : x >>= f = x >>= g := by
  cases x with
  | error e => rfl
  | ok a => exact h a rfl

theorem map_ok {x : Except ε α} {f : α → β} {b : β} (h : x.map f = .ok b) :
    ∃ a, x = .ok a ∧ f a = b := by
  cases x with
  | error e => cases h
  | ok a => exact ⟨a, rfl, Except.ok.inj h⟩

theorem bind_error {x : Except ε α} {f : α → Except ε β} {e : ε} (h : x >>= f = .error e) :
    x = .error e ∨ ∃ a, x = .ok a ∧ f a = .error e := by
  cases x with
  | error e' => exact Or.inl (congrArg Except.error (Except.error.inj h))
  | ok a => exact Or.inr ⟨a, rfl, h⟩

theorem map_error {x : Except ε α} {f : α → β} {e : ε} (h : f <$> x = .error e) :
    x = .error e := by
  cases x with
  | error e' => exact congrArg Except.error (Except.error.inj h)
  | ok a => cases h

theorem mapError_ok {x : Except ε α} {f : ε → ε'} {a : α} (h : x.mapError f = .ok a) :
    x = .ok a := by
  cases x with
  | error e => cases h
  | ok b => rw [Except.ok.inj h]

theorem mapError_error {x : Except ε α} {f : ε → ε'} {e' : ε'} (h : x.mapError f = .error e') :
    ∃ e, x = .error e ∧ f e = e' := by
  cases x with
  | error e => exact ⟨e, rfl, Except.error.inj h⟩
  | ok a => cases h

theorem ok_of_toOption {x : Except ε α} {a : α} (h : x.toOption = some a) : x = .ok a := by
  cases x with
  | error e => cases h
  | ok b => rw [Option.some.inj h]

theorem exists_ok {x : Except ε α} (h : x.toOption.isSome = true) : ∃ a, x = .ok a := by
  cases x with
  | error e => cases h
  | ok a => exact ⟨a, rfl⟩

theorem exists_error {x : Except ε α} (h : x.toOption.isSome = false) : ∃ e, x = .error e := by
  cases x with
  | error e => exact ⟨e, rfl⟩
  | ok a => cases h

theorem exists_ok_some {x : Except ε (Option α)} (h : x.toOption.join.isSome = true) :
    ∃ a, x = .ok (some a) := by
  cases x with
  | error e => cases h
  | ok a =>
    cases a with
    | none => cases h
    | some a => exact ⟨a, rfl⟩

/-- What is computed and has a property. -/
theorem exists_ok_any {x : Except ε α} {p : α → Bool} (h : x.toOption.any p = true) :
    ∃ a, x = .ok a ∧ p a = true := by
  cases x with
  | error e => cases h
  | ok a => exact ⟨a, rfl, h⟩

/-- What fails with an error that has a property. -/
theorem exists_error_any {x : Except ε α} {p : ε → Bool}
    (h : (match x with | .error e => p e | .ok _ => false) = true) :
    ∃ e, x = .error e ∧ p e = true := by
  cases x with
  | error e => exact ⟨e, rfl, h⟩
  | ok a => cases h

theorem exists_ok_some_any {x : Except ε (Option α)} {p : α → Bool}
    (h : x.toOption.join.any p = true) : ∃ a, x = .ok (some a) ∧ p a = true := by
  cases x with
  | error e => cases h
  | ok a =>
    cases a with
    | none => cases h
    | some a => exact ⟨a, rfl, h⟩

theorem forall₂_of_mapM {f : α → Except ε β} :
    ∀ {as : List α} {bs : List β}, as.mapM f = .ok bs →
      List.Forall₂ (fun a b => f a = .ok b) as bs
  | [], bs, h => by
    rw [List.mapM_nil] at h
    obtain rfl := Except.ok.inj h
    exact .nil
  | a :: as, bs, h => by
    rw [List.mapM_cons] at h
    obtain ⟨b, hb, h⟩ := bind_ok h
    obtain ⟨bs', hbs, h⟩ := bind_ok h
    obtain rfl := Except.ok.inj h
    exact .cons hb (forall₂_of_mapM hbs)

/-- Steps that all give something, told by what each gives. -/
theorem mapM_eq_ok {f : α → Except ε β} {g : α → Option β} {as : List α}
    (h : ∀ a ∈ as, ∃ b, f a = .ok b ∧ g a = some b) : as.mapM f = .ok (as.filterMap g) := by
  induction as with
  | nil => rfl
  | cons a as ih =>
    obtain ⟨b, hf, hg⟩ := h a List.mem_cons_self
    rw [List.mapM_cons, hf, ih fun c hc => h c (List.mem_cons_of_mem _ hc), List.filterMap_cons, hg]
    rfl

/-- What a list is mapped to by steps that give their images or nothing. -/
theorem eq_map_of_mapM {f : α → Option β} {g : α → β} (hfg : ∀ a b, f a = some b → b = g a) :
    ∀ {as : List α} {bs : List β}, as.mapM f = some bs → bs = as.map g
  | [], bs, h => by
    rw [List.mapM_nil] at h
    exact (Option.some.inj h).symm
  | a :: as, bs, h => by
    rw [List.mapM_cons] at h
    obtain ⟨b, hb, h⟩ := Option.bind_eq_some_iff.1 h
    obtain ⟨bs', hbs, h⟩ := Option.bind_eq_some_iff.1 h
    obtain rfl := Option.some.inj h
    rw [hfg a b hb, eq_map_of_mapM hfg hbs, List.map_cons]

/-- Steps give a list if each gives its element. -/
theorem mapM_eq_some_iff {f : α → Option β} {as : List α} {bs : List β} :
    as.mapM f = some bs ↔ as.map f = bs.map some := by
  induction as generalizing bs with
  | nil => cases bs <;> simp
  | cons a as ih =>
    cases bs with
    | nil => simp [Option.bind_eq_some_iff]
    | cons b bs => simp [Option.bind_eq_some_iff, ih]

/-- Going through the positions of a list is going through the list. -/
theorem mapM_getElem?_range (list : List α) :
    (List.range list.length).mapM (list[·]?) = some list := by
  refine mapM_eq_some_iff.2 (List.ext_getElem (by simp) fun p _ hp => ?_)
  rw [List.length_map] at hp
  simp [hp]

theorem exists_none_of_mapM {f : α → Option β} {as : List α} (h : as.mapM f = none) :
    ∃ a ∈ as, f a = none := by
  induction as with
  | nil => cases h
  | cons a as ih =>
    cases ha : f a with
    | none => exact ⟨a, List.mem_cons_self, ha⟩
    | some b =>
      rw [List.mapM_cons, ha] at h
      cases has : as.mapM f with
      | none =>
        obtain ⟨a', ha', hnone⟩ := ih has
        exact ⟨a', List.mem_cons_of_mem _ ha', hnone⟩
      | some bs =>
        rw [has] at h
        cases h

theorem exists_forall₂ {R : α → β → Prop} {as : List α} (h : ∀ a ∈ as, ∃ b, R a b) :
    ∃ bs, List.Forall₂ R as bs := by
  induction as with
  | nil => exact ⟨[], .nil⟩
  | cons a as ih =>
    obtain ⟨b, hab⟩ := h a List.mem_cons_self
    obtain ⟨bs, hbs⟩ := ih fun c hc => h c (List.mem_cons_of_mem _ hc)
    exact ⟨b :: bs, .cons hab hbs⟩

theorem forall₂_imp_of_mem {R S : α → β → Prop} {as : List α} {bs : List β}
    (h : List.Forall₂ R as bs) (himp : ∀ a ∈ as, ∀ b, R a b → S a b) : List.Forall₂ S as bs := by
  induction h with
  | nil => exact .nil
  | cons hab _ ih =>
    exact .cons (himp _ List.mem_cons_self _ hab)
      (ih fun a ha => himp a (List.mem_cons_of_mem _ ha))

/-- What goes one by one with the images of a list under a step that always gives something. -/
theorem forall₂_filterMap {γ : Type} {g : α → Option γ} {R : β → γ → Prop} {as : List α}
    {bs : List β} (h : List.Forall₂ (fun a b => ∃ c, g a = some c ∧ R b c) as bs) :
    List.Forall₂ R bs (as.filterMap g) := by
  induction h with
  | nil => exact .nil
  | cons hhead _ ih =>
    obtain ⟨c, hc, hbc⟩ := hhead
    rw [List.filterMap_cons, hc]
    exact .cons hbc ih

/-- Two lists that go with a third one by one go with each other. -/
theorem forall₂_comp {γ : Type} {R : α → β → Prop} {S : β → γ → Prop} {T : α → γ → Prop}
    {as : List α} {bs : List β} {cs : List γ} (hab : List.Forall₂ R as bs)
    (hbc : List.Forall₂ S bs cs) (h : ∀ a ∈ as, ∀ b ∈ bs, ∀ c, R a b → S b c → T a c) :
    List.Forall₂ T as cs := by
  induction hab generalizing cs with
  | nil =>
    cases hbc
    exact .nil
  | cons hhead _ ih =>
    cases hbc with
    | cons hhead' hrest =>
      exact .cons (h _ List.mem_cons_self _ List.mem_cons_self _ hhead hhead')
        (ih hrest fun a ha b hb => h a (List.mem_cons_of_mem _ ha) b (List.mem_cons_of_mem _ hb))

/-- Two lists that go with each other through something go with a list of it. -/
theorem exists_forall₂_comp {γ : Type} {R : α → β → Prop} {S : β → γ → Prop} {as : List α}
    {cs : List γ} (h : List.Forall₂ (fun a c => ∃ b, R a b ∧ S b c) as cs) :
    ∃ bs, List.Forall₂ R as bs ∧ List.Forall₂ S bs cs := by
  induction h with
  | nil => exact ⟨[], .nil, .nil⟩
  | cons hhead _ ih =>
    obtain ⟨b, hab, hbc⟩ := hhead
    obtain ⟨bs, hbs, hcs⟩ := ih
    exact ⟨b :: bs, .cons hab hbs, .cons hbc hcs⟩

theorem exists_of_mem_right {R : α → β → Prop} {as : List α} {bs : List β}
    (h : List.Forall₂ R as bs) {b : β} (hb : b ∈ bs) : ∃ a ∈ as, R a b := by
  induction h with
  | nil => cases hb
  | cons hab _ ih =>
    rcases List.mem_cons.1 hb with rfl | hb
    · exact ⟨_, List.mem_cons_self, hab⟩
    · obtain ⟨a, ha, hr⟩ := ih hb
      exact ⟨a, List.mem_cons_of_mem _ ha, hr⟩

theorem exists_of_mem_left {R : α → β → Prop} {as : List α} {bs : List β}
    (h : List.Forall₂ R as bs) {a : α} (ha : a ∈ as) : ∃ b ∈ bs, R a b := by
  obtain ⟨b, hb, hab⟩ := exists_of_mem_right h.flip ha
  exact ⟨b, hb, hab⟩

/-- Two lists that go with one have an element of some kind alike. -/
theorem exists_iff_of_forall₂ {γ : Type} {R : α → β → Prop} {S : α → γ → Prop} {as : List α}
    {bs : List β} {cs : List γ} (hbs : List.Forall₂ R as bs) (hcs : List.Forall₂ S as cs)
    {P : β → Prop} {Q : γ → Prop} (h : ∀ a b c, R a b → S a c → (P b ↔ Q c)) :
    (∃ b ∈ bs, P b) ↔ ∃ c ∈ cs, Q c := by
  constructor
  · rintro ⟨b, hb, hp⟩
    obtain ⟨a, ha, hab⟩ := exists_of_mem_right hbs hb
    obtain ⟨c, hc, hac⟩ := exists_of_mem_left hcs ha
    exact ⟨c, hc, (h a b c hab hac).1 hp⟩
  · rintro ⟨c, hc, hq⟩
    obtain ⟨a, ha, hac⟩ := exists_of_mem_right hcs hc
    obtain ⟨b, hb, hab⟩ := exists_of_mem_left hbs ha
    exact ⟨b, hb, (h a b c hab hac).2 hq⟩

/-! ### Errors of a kind -/

/-- Whether a result, if it is an error, is one of a kind. -/
def FailsOnly (P : ε → Prop) (x : Except ε α) : Prop := ∀ e, x = .error e → P e

section

variable {P : ε → Prop}

theorem failsOnly_ok (a : α) : FailsOnly P (.ok a : Except ε α) := nofun

theorem failsOnly_error {e : ε} (h : P e) : FailsOnly P (.error e : Except ε α) := by
  intro e' he
  exact Except.error.inj he ▸ h

theorem failsOnly_bind {x : Except ε α} {f : α → Except ε β} (hx : FailsOnly P x)
    (hf : ∀ a, x = .ok a → FailsOnly P (f a)) : FailsOnly P (x >>= f) := by
  intro e he
  rcases bind_error he with he | ⟨a, ha, he⟩
  · exact hx e he
  · exact hf a ha e he

theorem failsOnly_map (f : α → β) {x : Except ε α} (hx : FailsOnly P x) : FailsOnly P (x.map f) :=
  fun e he => hx e (map_error he)

theorem failsOnly_mapError {f : ε' → ε} (hf : ∀ e, P (f e)) (x : Except ε' α) :
    FailsOnly P (x.mapError f) := by
  cases x with
  | error e => exact failsOnly_error (hf e)
  | ok a => exact failsOnly_ok a

theorem failsOnly_mapM {f : α → Except ε β} {as : List α} (h : ∀ a ∈ as, FailsOnly P (f a)) :
    FailsOnly P (as.mapM f) := by
  induction as with
  | nil =>
    rw [List.mapM_nil]
    exact failsOnly_ok []
  | cons a as ih =>
    rw [List.mapM_cons]
    refine failsOnly_bind (h a List.mem_cons_self) fun b _ => ?_
    exact failsOnly_bind (ih fun a ha => h a (List.mem_cons_of_mem _ ha)) fun bs _ => failsOnly_ok _

theorem failsOnly_foldlM {f : β → α → Except ε β} (h : ∀ b a, FailsOnly P (f b a)) (as : List α)
    (b : β) : FailsOnly P (as.foldlM f b) := by
  induction as generalizing b with
  | nil => exact failsOnly_ok b
  | cons a as ih =>
    rw [List.foldlM_cons]
    exact failsOnly_bind (h b a) fun b _ => ih b

end

end Result

/-- Whether a result goes over into a related one. -/
def Yields (R : α → β → Prop) (x : Except ε α) (y : Except ε' β) : Prop :=
  ∀ a, x = .ok a → ∃ b, y = .ok b ∧ R a b

namespace Yields

variable {R : α → β → Prop} {S : α' → β' → Prop}

theorem ok {a : α} {b : β} (h : R a b) : Yields R (.ok a : Except ε α) (.ok b : Except ε' β) := by
  intro c hc
  obtain rfl := Except.ok.inj hc
  exact ⟨b, rfl, h⟩

theorem refl (x : Except ε α) : Yields Eq x x := fun a ha => ⟨a, ha, rfl⟩

theorem error {e : ε} {y : Except ε' β} : Yields R (.error e : Except ε α) y :=
  fun _ h => by cases h

theorem bind {x : Except ε α} {y : Except ε' β} {f : α → Except ε α'} {g : β → Except ε' β'}
    (h : Yields R x y) (hfg : ∀ a b, R a b → Yields S (f a) (g b)) :
    Yields S (x >>= f) (y >>= g) := by
  intro c hc
  obtain ⟨a, ha, hf⟩ := Result.bind_ok hc
  obtain ⟨b, rfl, hab⟩ := h a ha
  exact hfg a b hab c hf

/-- Steps after one and the same result. -/
theorem bind_of_eq {x y : Except ε α} {f : α → Except ε α'} {g : α → Except ε β'} (h : x = y)
    (hfg : ∀ a, x = .ok a → Yields S (f a) (g a)) : Yields S (x >>= f) (y >>= g) := by
  subst h
  intro c hc
  obtain ⟨a, ha, hf⟩ := Result.bind_ok hc
  rw [ha]
  exact hfg a ha c hf

theorem map {x : Except ε α} {y : Except ε' β} {f : α → α'} {g : β → β'} (h : Yields R x y)
    (hfg : ∀ a b, R a b → S (f a) (g b)) : Yields S (x.map f) (y.map g) := by
  intro c hc
  obtain ⟨a, ha, rfl⟩ := Result.map_ok hc
  obtain ⟨b, rfl, hab⟩ := h a ha
  exact ⟨g b, rfl, hfg a b hab⟩

theorem mapError {ε₁ ε₂ : Type} {x : Except ε α} {y : Except ε' β} {f : ε → ε₁} {g : ε' → ε₂}
    (h : Yields R x y) : Yields R (x.mapError f) (y.mapError g) := by
  intro a ha
  obtain ⟨b, rfl, hab⟩ := h a (Result.mapError_ok ha)
  exact ⟨b, rfl, hab⟩

theorem mapM {f : α → Except ε α'} {g : β → Except ε' β'} {as : List α} {bs : List β}
    (h : List.Forall₂ R as bs) (hfg : ∀ a b, R a b → Yields S (f a) (g b)) :
    Yields (List.Forall₂ S) (as.mapM f) (bs.mapM g) := by
  induction h with
  | nil => exact ok .nil
  | cons hab _ ih =>
    rw [List.mapM_cons, List.mapM_cons]
    exact bind (hfg _ _ hab) fun c d hcd => bind ih fun cs ds hcds => ok (.cons hcd hcds)

end Yields

end SeriesAlgebra
