import SeriesAlgebra.Proofs.Engine.Readers

/-!
# Readings that remember

What the reader of an engine has read it remembers, so that it gives again what it gave,
however much it has read since. This is a property of all that is read through it, with
every registry: a reading is **stable** if it forgets nothing and gives the same again
from every memory that holds what it left (`Reading.IsStable`). To be stable is a way to
compare readings, and the reader of an engine is (`Engine.resolves_readerBelow`).

So readings one after the other all give what they would from the memory that the last
of them leaves (`Reading.IsStable.forall₂_of_gives_mapM`).
-/

namespace SeriesAlgebra

open Evaluation Reading

variable {α β : Type}

namespace Engine

/-- A series that is remembered was read before or is read now. -/
theorem gives_remember {key : String × Query} {compute : Reading Memo Series} {m m' : Memo}
    {s : Series} : Gives (Memo.remember key compute) m s m' ↔
      (m.lookup key = some s ∧ m' = m) ∨
      (m.lookup key = none ∧ ∃ m'', Gives compute m s m'' ∧ m' = (key, s) :: m'') := by
  unfold Memo.remember
  simp only [gives_bind, gives_get]
  cases hlookup : m.lookup key with
  | some r =>
    constructor
    · rintro ⟨_, _, ⟨rfl, rfl⟩, hr⟩
      rw [hlookup] at hr
      obtain ⟨rfl, rfl⟩ := gives_pure.1 hr
      exact Or.inl ⟨rfl, rfl⟩
    · rintro (⟨hr, rfl⟩ | ⟨hr, -⟩)
      · refine ⟨m', m', ⟨rfl, rfl⟩, ?_⟩
        rw [hlookup]
        exact gives_pure.2 ⟨Option.some.inj hr, rfl⟩
      · cases hr
  | none =>
    constructor
    · rintro ⟨_, _, ⟨rfl, rfl⟩, hr⟩
      rw [hlookup] at hr
      simp only [gives_bind, gives_modify, gives_pure] at hr
      obtain ⟨_, m'', hcompute, _, _, rfl, rfl, rfl⟩ := hr
      exact Or.inr ⟨rfl, m'', hcompute, rfl⟩
    · rintro (⟨hr, -⟩ | ⟨-, m'', hcompute, rfl⟩)
      · cases hr
      · refine ⟨m, m, ⟨rfl, rfl⟩, ?_⟩
        rw [hlookup]
        simp only [gives_bind, gives_modify, gives_pure]
        exact ⟨s, m'', hcompute, (), _, rfl, rfl, rfl⟩

theorem gives_of_answerOf {α : Type} {x : Reading Memo α} {a : α} (h : answerOf x = .ok a) :
    ∃ m, Gives x [] a m := ⟨(x.run []).2, Prod.ext h rfl⟩

end Engine

/-! ### Memories -/

/-- **Whether a memory holds** all that another one does. -/
def Memo.IsWithin (m m' : Memo) : Prop := ∀ key s, m.lookup key = some s → m'.lookup key = some s

theorem Memo.IsWithin.refl (m : Memo) : m.IsWithin m := fun _ _ h => h

theorem Memo.IsWithin.trans {m m' m'' : Memo} (h : m.IsWithin m') (h' : m'.IsWithin m'') :
    m.IsWithin m'' := fun key s hs => h' key s (h key s hs)

/-- What was not read before is remembered without forgetting anything. -/
theorem Memo.IsWithin.cons {m m' : Memo} (h : m.IsWithin m') {key : String × Query}
    (hkey : m.lookup key = none) (s : Series) : m.IsWithin ((key, s) :: m') := by
  intro key' s' hs'
  by_cases heq : key' = key
  · subst heq
    cases hkey.symm.trans hs'
  · rw [List.lookup_cons, beq_false_of_ne heq]
    exact h key' s' hs'

namespace Reading

/-- **Whether a reading is stable**: it forgets nothing, and gives the same again later. -/
structure IsStable (x : Reading Memo α) : Prop where
  grows : ∀ {m a m'}, Gives x m a m' → m.IsWithin m'
  again : ∀ {m a m' m''}, Gives x m a m' → m'.IsWithin m'' → Gives x m'' a m''

/-- Whether a reading is stable, as a way to compare, whatever it is compared with. -/
def stable : Comparison Memo Memo Unit where
  Holds R x _ := ∀ m a m', Gives x m a m' →
    m.IsWithin m' ∧ (∀ m'', m'.IsWithin m'' → Gives x m'' a m'') ∧ ∃ b, R a b
  pure hab m a m' h := by
    obtain ⟨rfl, rfl⟩ := gives_pure.1 h
    exact ⟨.refl _, fun _ _ => gives_pure.2 ⟨rfl, rfl⟩, _, hab⟩
  throw e y m a m' h := (gives_throw.1 h).elim
  mono h himp m a m' ha := by
    obtain ⟨hgrows, hagain, b, hab⟩ := h m a m' ha
    exact ⟨hgrows, hagain, b, himp a b hab⟩
  bind hxy hfg m c m'' h := by
    obtain ⟨a, m', ha, hc⟩ := gives_bind.1 h
    obtain ⟨hgrows, hagain, b, hab⟩ := hxy m a m' ha
    obtain ⟨hgrows', hagain', d, hcd⟩ := hfg a b hab m' c m'' hc
    exact ⟨hgrows.trans hgrows', fun m₃ hm₃ =>
      gives_bind.2 ⟨a, m₃, hagain m₃ (hgrows'.trans hm₃), hagain' m₃ hm₃⟩, d, hcd⟩

theorem isStable_of_holds {x : Reading Memo α} {y : Unit → Reading Memo α}
    (h : stable.Holds Eq x y) : x.IsStable where
  grows ha := (h _ _ _ ha).1
  again ha hm := (h _ _ _ ha).2.1 _ hm

theorem IsStable.holds {x : Reading Memo α} (h : x.IsStable) (y : Unit → Reading Memo α) :
    stable.Holds Eq x y :=
  fun _ a _ ha => ⟨h.grows ha, fun _ hm => h.again ha hm, a, rfl⟩

namespace IsStable

/-- **What is remembered** is given again. -/
theorem remember {x : Reading Memo Series} (hx : x.IsStable) (key : String × Query) :
    IsStable (Memo.remember key x) := by
  refine ⟨fun h => ?_, fun h hm => ?_⟩
  · rcases Engine.gives_remember.1 h with ⟨-, rfl⟩ | ⟨hnone, m₁, hs, rfl⟩
    · exact .refl _
    · exact (hx.grows hs).cons hnone _
  · rcases Engine.gives_remember.1 h with ⟨hsome, rfl⟩ | ⟨-, m₁, -, rfl⟩
    · exact Engine.gives_remember.2 (Or.inl ⟨hm _ _ hsome, rfl⟩)
    · have hlookup := hm key _ (by rw [List.lookup_cons, beq_self_eq_true])
      exact Engine.gives_remember.2 (Or.inl ⟨hlookup, rfl⟩)

theorem mapM {f : α → Reading Memo β} {as : List α} (hf : ∀ a ∈ as, (f a).IsStable) :
    IsStable (as.mapM f) :=
  isStable_of_holds (stable.mapM_same (g := fun _ => f) fun a ha => (hf a ha).holds _)

/-- **Readings one after the other**, each with a stable part that alone reaches into the memory: the
parts give what they would from the memory that is left. -/
theorem forall₂_of_gives_mapM {γ : Type} {as : List α} {y : α → Reading Memo γ}
    {R : α → β → γ → Prop} (hf : ∀ a ∈ as, (f a).IsStable)
    (hy : ∀ a ∈ as, ∀ m c m', Gives (y a) m c m' → ∃ b, Gives (f a) m b m' ∧ R a b c) {m m' : Memo}
    {cs : List γ} (h : Gives (as.mapM y) m cs m') : (∃ bs, Gives (as.mapM f) m bs m') ∧
      List.Forall₂ (fun a c => ∃ b, Gives (f a) m' b m' ∧ R a b c) as cs := by
  induction as generalizing m cs with
  | nil =>
    rw [List.mapM_nil] at h
    obtain ⟨rfl, rfl⟩ := gives_pure.1 h
    exact ⟨⟨[], by rw [List.mapM_nil]; exact gives_pure.2 ⟨rfl, rfl⟩⟩, .nil⟩
  | cons a as ih =>
    rw [List.mapM_cons] at h
    obtain ⟨c, m₁, hc, h⟩ := gives_bind.1 h
    obtain ⟨cs', m₂, hcs, h⟩ := gives_bind.1 h
    obtain ⟨rfl, rfl⟩ := gives_pure.1 h
    have hrest (c : α) (hc : c ∈ as) : (f c).IsStable := hf c (List.mem_cons_of_mem _ hc)
    obtain ⟨⟨bs, hbs⟩, hall⟩ := ih hrest (fun a ha => hy a (List.mem_cons_of_mem _ ha)) hcs
    obtain ⟨b, hb, hbc⟩ := hy a List.mem_cons_self _ _ _ hc
    refine ⟨⟨b :: bs, ?_⟩, .cons ⟨b, ?_, hbc⟩ hall⟩
    · rw [List.mapM_cons]
      exact gives_bind.2 ⟨b, m₁, hb, gives_bind.2 ⟨bs, m₂, hbs, gives_pure.2 ⟨rfl, rfl⟩⟩⟩
    · exact (hf a List.mem_cons_self).again hb ((mapM hrest).grows hbs)

end IsStable

end Reading

/-! ### The reader -/

namespace Engine

open Comparison

theorem resolves_readerBelow (e : Engine) (levels : Nat) (path : List String) :
    stable.Resolves (e.readerBelow levels path) fun _ => e.readerBelow levels path := by
  have hentering {enter : String → Except EngineError (Resolver Memo)}
      (h : stable.Enters enter fun _ => enter) :
      stable.Resolves (e.readerEntering enter) fun _ => e.readerEntering enter :=
    { series := fun name q =>
        ((isStable_of_holds (holds_readSeries h name q)).remember (name, q)).holds _
      group := holds_readGroup h
      autotrophic := fun _ _ => stable.pure_same none }
  induction levels generalizing path with
  | zero =>
    refine hentering (enters_of_ok fun label A hlabel => ?_)
    split at hlabel <;> cases hlabel
  | succ levels ih =>
    refine hentering (enters_of_ok fun label A hlabel => ⟨fun _ => A, fun _ => hlabel, ?_⟩)
    split at hlabel
    · cases hlabel
    · exact Except.ok.inj hlabel ▸ ih _

/-- **The evaluation of arguments is stable** for the reader of an engine. -/
theorem isStable_evaluateArgs (e : Engine) (call : Tree) (q : Query) :
    (evaluateArgs e.registry e.reader call q).IsStable :=
  isStable_of_holds ((resolves_readerBelow e _ _).evaluateArgs call q)

end Engine

end SeriesAlgebra
