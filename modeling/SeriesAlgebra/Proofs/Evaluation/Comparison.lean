import SeriesAlgebra.Proofs.Evaluation.Calls
import SeriesAlgebra.Proofs.Order.Map

/-!
# Comparing evaluations

Two readings may be compared in different ways: whether what one gives the other gives
as well, or whether what both give is related. What the ways have in common is that
they go through a reading step by step (`Comparison`). So there is one induction on
formulas for all of them (`Compares.evaluate`): if the leaves of two formulas that
otherwise correspond to each other compare, and every operator keeps a relation
between values, then the formulas compare.
-/

namespace SeriesAlgebra

open Evaluation

variable {σ τ ι : Type}

/-- **A way to compare** a reading with a family of others, along a relation of what they give. -/
structure Comparison (σ τ ι : Type) where
  Holds : {α β : Type} → (α → β → Prop) → Reading σ α → (ι → Reading τ β) → Prop
  pure : ∀ {α β : Type} {R : α → β → Prop} {a : α} {b : β}, R a b →
    Holds R (Pure.pure a) fun _ => Pure.pure b
  throw : ∀ {α β : Type} {R : α → β → Prop} (e : EngineError) (y : ι → Reading τ β),
    Holds R (throwThe EngineError e) y
  mono : ∀ {α β : Type} {R S : α → β → Prop} {x : Reading σ α} {y : ι → Reading τ β},
    Holds R x y → (∀ a b, R a b → S a b) → Holds S x y
  bind : ∀ {α α' β β' : Type} {R : α → β → Prop} {S : α' → β' → Prop} {x : Reading σ α}
    {y : ι → Reading τ β} {f : α → Reading σ α'} {g : ι → β → Reading τ β'}, Holds R x y →
    (∀ a b, R a b → Holds S (f a) fun i => g i b) → Holds S (x >>= f) fun i => y i >>= g i

namespace Comparison

variable {α β : Type} (C : Comparison σ τ ι)

theorem settle {R : α → β → Prop} {x : Except EngineError α} {y : Except EngineError β}
    (h : Yields R x y) : C.Holds R (settle x) fun _ => Evaluation.settle y := by
  cases x with
  | error e => exact C.throw e _
  | ok a =>
    obtain ⟨b, rfl, hab⟩ := h a rfl
    exact C.pure hab

theorem map {α' β' : Type} {R : α → β → Prop} {S : α' → β' → Prop} {x : Reading σ α}
    {y : ι → Reading τ β} {f : α → α'} {g : β → β'} (h : C.Holds R x y)
    (hfg : ∀ a b, R a b → S (f a) (g b)) : C.Holds S (f <$> x) fun i => g <$> y i :=
  C.bind h fun a b hab => C.pure (hfg a b hab)

/-! ### Ways to compare -/

open Reading

/-- Whether what both give is related. -/
def agree (σ τ : Type) : Comparison σ τ Unit where
  Holds R x y := ∀ s a s' t b t', Gives x s a s' → Gives (y ()) t b t' → R a b
  pure hab s a s' t b t' ha hb := by
    obtain ⟨rfl, -⟩ := gives_pure.1 ha
    obtain ⟨rfl, -⟩ := gives_pure.1 hb
    exact hab
  throw e y s a s' t b t' ha _ := (gives_throw.1 ha).elim
  mono h himp s a s' t b t' ha hb := himp a b (h s a s' t b t' ha hb)
  bind hxy hfg s c s'' t d t'' hx hy := by
    obtain ⟨a, s', ha, hf⟩ := gives_bind.1 hx
    obtain ⟨b, t', hb, hg⟩ := gives_bind.1 hy
    exact hfg a b (hxy s a s' t b t' ha hb) s' c s'' t' d t'' hf hg

/-- Whether what both give is related, and their states stay related. -/
def agreeWhile (J : σ → τ → Prop) : Comparison σ τ Unit where
  Holds R x y := ∀ s t, J s t → ∀ a s' b t', Gives x s a s' → Gives (y ()) t b t' →
    R a b ∧ J s' t'
  pure hab s t hst a s' b t' ha hb := by
    obtain ⟨rfl, rfl⟩ := gives_pure.1 ha
    obtain ⟨rfl, rfl⟩ := gives_pure.1 hb
    exact ⟨hab, hst⟩
  throw e y s t _ a s' b t' ha _ := (gives_throw.1 ha).elim
  mono h himp s t hst a s' b t' ha hb :=
    (h s t hst a s' b t' ha hb).imp_left (himp a b)
  bind hxy hfg s t hst c s'' d t'' hx hy := by
    obtain ⟨a, s', ha, hf⟩ := gives_bind.1 hx
    obtain ⟨b, t', hb, hg⟩ := gives_bind.1 hy
    obtain ⟨hab, hst'⟩ := hxy s t hst a s' b t' ha hb
    exact hfg a b hab s' t' hst' c s'' d t'' hf hg

/-- Whether what the one gives the other gives as well, and their states stay related. -/
def lockstep (J : σ → τ → Prop) : Comparison σ τ Unit where
  Holds R x y := ∀ s t, J s t → ∀ a s', Gives x s a s' →
    ∃ b t', Gives (y ()) t b t' ∧ R a b ∧ J s' t'
  pure hab s t hst a s' ha := by
    obtain ⟨rfl, rfl⟩ := gives_pure.1 ha
    exact ⟨_, t, gives_pure.2 ⟨rfl, rfl⟩, hab, hst⟩
  throw e y s t _ a s' ha := (gives_throw.1 ha).elim
  mono h himp s t hst a s' ha := by
    obtain ⟨b, t', hb, hab, hst'⟩ := h s t hst a s' ha
    exact ⟨b, t', hb, himp a b hab, hst'⟩
  bind hxy hfg s t hst c s'' hx := by
    obtain ⟨a, s', ha, hf⟩ := gives_bind.1 hx
    obtain ⟨b, t', hb, hab, hst'⟩ := hxy s t hst a s' ha
    obtain ⟨d, t'', hd, hcd, hst''⟩ := hfg a b hab s' t' hst' c s'' hf
    exact ⟨d, t'', gives_bind.2 ⟨b, t', hb, hd⟩, hcd, hst''⟩

/-- Whether what the one gives the others give as well from some point on, and the states of the one
keep an invariant. -/
def eventually (J : σ → Prop) : Comparison σ Unit Nat where
  Holds R x y := ∀ s, J s → ∀ a s', Gives x s a s' →
    J s' ∧ ∃ b, R a b ∧ ∃ k, ∀ n, k ≤ n → Gives (y n) () b ()
  pure hab s hs a s' ha := by
    obtain ⟨rfl, rfl⟩ := gives_pure.1 ha
    exact ⟨hs, _, hab, 0, fun _ _ => gives_pure.2 ⟨rfl, rfl⟩⟩
  throw e y s _ a s' ha := (gives_throw.1 ha).elim
  mono h himp s hs a s' ha := by
    obtain ⟨hs', b, hab, hb⟩ := h s hs a s' ha
    exact ⟨hs', b, himp a b hab, hb⟩
  bind hxy hfg s hs c s'' hx := by
    obtain ⟨a, s', ha, hf⟩ := gives_bind.1 hx
    obtain ⟨hs', b, hab, k, hb⟩ := hxy s hs a s' ha
    obtain ⟨hs'', d, hcd, l, hd⟩ := hfg a b hab s' hs' c s'' hf
    refine ⟨hs'', d, hcd, max k l, fun n hn => gives_bind.2 ⟨b, (), hb n ?_, hd n ?_⟩⟩
    · exact Nat.le_trans (Nat.le_max_left k l) hn
    · exact Nat.le_trans (Nat.le_max_right k l) hn

theorem agree_settle {R : α → β → Prop} {x : Except EngineError α} {y : Except EngineError β}
    (h : ∀ a b, x = .ok a → y = .ok b → R a b) :
    (agree σ τ).Holds R (Evaluation.settle x) fun _ => Evaluation.settle y := by
  intro s a s' t b t' ha hb
  exact h a b (gives_settle.1 ha).1 (gives_settle.1 hb).1

end Comparison

/-! ### Related arguments -/

section

variable (R : Value → Value → Prop)

/-- Whether two maps give related values to the same keys. -/
def RelatedMaps (m n : OrderedMap String Value) : Prop :=
  ∀ name, Option.Rel R (m.find? name) (n.find? name)

/-- Whether two keywords are the same and their values related. -/
def RelatedEntries (a b : String × Value) : Prop := a.1 = b.1 ∧ R a.2 b.2

/-- Whether arguments are related one by one. -/
structure RelatedArgs (args others : Args) : Prop where
  positional : List.Forall₂ R args.positional others.positional
  keywords : RelatedMaps R args.keywords others.keywords

variable {R}

theorem relatedMaps_ofList {entries others : List (String × Value)}
    (h : List.Forall₂ (RelatedEntries R) entries others) :
    RelatedMaps R (.ofList entries) (.ofList others) := by
  intro name
  induction h with
  | nil => exact .none
  | @cons e e' rest rest' he _ ih =>
    obtain ⟨key, v⟩ := e
    obtain ⟨key', w⟩ := e'
    obtain ⟨rfl, hvw⟩ := he
    rw [OrderedMap.find?_ofList_cons, OrderedMap.find?_ofList_cons]
    generalize (OrderedMap.ofList rest).find? name = a at ih
    generalize (OrderedMap.ofList rest').find? name = b at ih
    cases ih with
    | some hab => exact .some hab
    | none =>
      rw [Option.none_or, Option.none_or]
      split
      · exact .some hvw
      · exact .none

end

/-! ### Corresponding formulas -/

namespace Tree

/-- **Formulas that correspond to each other** but for their leaves: related calls of one operator
and the same literals, each of which may stand. -/
inductive Corresponds (L : List Tree → Tree → Prop) (N : Tree → Prop) : Tree → Tree → Prop
  | atom (l : Literal) (hN : N (atom l)) : Corresponds L N (atom l) (atom l)
  | leaf {items : List Tree} {u : Tree} (h : L items u) (hu : u.literal? = none) :
      Corresponds L N (list items) u
  | call {items others : List Tree} {b : Builtin} (hb : Calls items b)
      (happlied : isApplied b = true) (hN : N (list items))
      (h : List.Forall₂ (Corresponds L N) items others) : Corresponds L N (list items) (list others)

variable {L : List Tree → Tree → Prop} {N : Tree → Prop}

theorem Corresponds.keywordName? {t u : Tree} (h : Corresponds L N t u) :
    u.keywordName? = t.keywordName? := by
  cases h with
  | atom l _ => rfl
  | call _ _ _ _ => rfl
  | leaf _ hu =>
    rw [Tree.keywordName?, hu]
    rfl

theorem Corresponds.calls {items others : List Tree} {b : Builtin} (hb : Calls items b)
    (h : List.Forall₂ (Corresponds L N) items others) : Calls others b := by
  obtain ⟨args, rfl⟩ := list_of_calls hb
  cases h with
  | cons hhead _ =>
    cases hhead with
    | atom l _ => rfl

/-- The keywords among the arguments of a call. -/
def keywordNames : List Tree → List String
  | a :: b :: rest =>
    match a.keywordName? with
    | some name => name :: keywordNames rest
    | none => keywordNames (b :: rest)
  | _ => []

theorem keywordNames_keyword {a b : Tree} {name : String} (h : a.keywordName? = some name)
    (rest : List Tree) : keywordNames (a :: b :: rest) = name :: keywordNames rest := by
  rw [keywordNames, h]

theorem keywordNames_positional {a : Tree} (h : a.keywordName? = none) (rest : List Tree) :
    keywordNames (a :: rest) = keywordNames rest := by
  cases rest with
  | nil => rfl
  | cons b rest => rw [keywordNames, h]

/-- The keywords of a call whose arguments are told apart. -/
theorem names_of_ofList {operator : String} {args : List Tree} {c : CallArgs}
    (h : CallArgs.ofList operator args = .ok c) : c.keywords.map (·.1) = keywordNames args := by
  induction args using args_induct generalizing c with
  | nil =>
    obtain rfl := Except.ok.inj h
    rfl
  | dangling a name ha =>
    rw [CallArgs.ofList, ha] at h
    cases h
  | keyword a b rest name ha ih =>
    rw [CallArgs.ofList, ha] at h
    obtain ⟨c', hc', rfl⟩ := Result.map_ok h
    rw [keywordNames_keyword ha, ← ih hc', List.map_cons]
  | positional a rest ha ih =>
    rw [keywordNames_positional ha]
    cases rest with
    | nil =>
      rw [CallArgs.ofList, ha] at h
      obtain rfl := Except.ok.inj h
      rfl
    | cons b rest =>
      rw [CallArgs.ofList, ha] at h
      obtain ⟨c', hc', rfl⟩ := Result.map_ok h
      exact ih (c := c') hc'

theorem yields_ofList (operator other : String) {args others : List Tree}
    (h : List.Forall₂ (fun t u => u.keywordName? = t.keywordName?) args others) :
    Yields (fun _ _ => True) (CallArgs.ofList operator args) (CallArgs.ofList other others) := by
  induction args using args_induct generalizing others with
  | nil =>
    cases h
    exact fun _ _ => ⟨_, rfl, trivial⟩
  | dangling a name ha =>
    intro c hc
    rw [CallArgs.ofList, ha] at hc
    cases hc
  | keyword a b rest name ha ih =>
    cases h with
    | cons ha' h =>
      cases h with
      | cons hb' h =>
        intro c hc
        rw [CallArgs.ofList, ha] at hc
        obtain ⟨c', hc', -⟩ := Result.map_ok hc
        obtain ⟨d, hd, -⟩ := ih h c' hc'
        rw [CallArgs.ofList, ha', ha]
        simp only [hd]
        exact ⟨_, rfl, trivial⟩
  | positional a rest ha ih =>
    cases h with
    | @cons _ a' _ others ha' h =>
      intro c hc
      cases rest with
      | nil =>
        cases h
        rw [CallArgs.ofList, ha', ha]
        exact ⟨_, rfl, trivial⟩
      | cons b rest =>
        obtain ⟨b', others, rfl⟩ : ∃ b' others', others = b' :: others' := by
          cases h
          exact ⟨_, _, rfl⟩
        rw [CallArgs.ofList, ha] at hc
        obtain ⟨c', hc', -⟩ := Result.map_ok hc
        obtain ⟨d, hd, -⟩ := ih h c' hc'
        rw [CallArgs.ofList, ha', ha]
        simp only [hd]
        exact ⟨_, rfl, trivial⟩

theorem yields_checked {items others : List Tree}
    (h : List.Forall₂ (Corresponds L N) items others) :
    Yields (fun _ _ => True) (checked (list items)) (checked (list others)) := by
  intro _ hchecked
  have hargs : List.Forall₂ (fun t u => u.keywordName? = t.keywordName?) items.tail others.tail := by
    cases h with
    | nil => exact .nil
    | cons _ h => exact h.imp fun t u htu => htu.keywordName?
  unfold checked at hchecked ⊢
  cases hcall : (list items).callArgs with
  | error e =>
    rw [hcall] at hchecked
    cases hchecked
  | ok c =>
    obtain ⟨d, hd, -⟩ := yields_ofList _ ((list others).operator?.getD "") hargs c hcall
    rw [show (list others).callArgs = .ok d from hd]
    exact ⟨(), rfl, trivial⟩

end Tree

/-! ### Evaluation -/

/-- **What makes evaluations compare**: leaves do, and operators keep the relation of values. -/
structure Compares (C : Comparison σ τ ι) (A : Resolver σ) (B : ι → Resolver τ)
    (R : Value → Value → Prop) (Q : Query → Query → Prop) (L : List Tree → Tree → Prop)
    (N : Tree → Prop) : Prop where
  literal : ∀ {l}, N (.atom l) → R (.ofLiteral l) (.ofLiteral l)
  leaf : ∀ {items : List Tree} {u : Tree} {q q' : Query}, L items u → Q q q' →
    C.Holds R (evaluate .builtin A (.list items) q) fun i => evaluate .builtin (B i) u q'
  childQuery : ∀ {b : Builtin} {items : List Tree} {m m' : OrderedMap String Value}
    {q q' : Query}, isApplied b = true → Tree.Calls items b → N (.list items) →
    RelatedMaps R m m' → Q q q' →
    C.Holds Q (settle (b.childQuery m q)) fun _ => settle (b.childQuery m' q')
  apply : ∀ {b : Builtin} {items : List Tree} {args args' : Args} {q q' : Query},
    isApplied b = true → Tree.Calls items b → N (.list items) →
    (∀ name, args.keywords.contains name = true → name ∈ Tree.keywordNames items.tail) →
    RelatedArgs R args args' → Q q q' →
    C.Holds R (settle (b.apply args q)) fun _ => settle (b.apply args' q')

namespace Compares

variable {C : Comparison σ τ ι} {A : Resolver σ} {B : ι → Resolver τ} {R : Value → Value → Prop}
  {Q : Query → Query → Prop} {L : List Tree → Tree → Prop} {N : Tree → Prop} {q q' : Query}

/-- Whether the values of two trees compare, whatever related queries ask. -/
def Both (C : Comparison σ τ ι) (A : Resolver σ) (B : ι → Resolver τ) (R : Value → Value → Prop)
    (Q : Query → Query → Prop) (t u : Tree) : Prop :=
  ∀ q q', Q q q' → C.Holds R (evaluate .builtin A t q) fun i => evaluate .builtin (B i) u q'

/-- Whether keywords are related, and are those of a call. -/
def RelatedKeywords (R : Value → Value → Prop) (args : List Tree)
    (entries others : List (String × Value)) : Prop :=
  List.Forall₂ (RelatedEntries R) entries others ∧
    ∀ entry ∈ entries, entry.1 ∈ Tree.keywordNames args

theorem keywords {args others : List Tree}
    (h : List.Forall₂ (fun t u => u.keywordName? = t.keywordName? ∧
      C.Holds R (evaluate .builtin A t q) fun i => evaluate .builtin (B i) u q') args others) :
    C.Holds (RelatedKeywords R args) (evaluateKeywords .builtin A args q) fun i =>
      evaluateKeywords .builtin (B i) others q' := by
  induction args using args_induct generalizing others with
  | nil =>
    cases h
    simp only [evaluateKeywords]
    exact C.pure ⟨.nil, by simp⟩
  | dangling a name ha =>
    obtain ⟨b, rfl⟩ : ∃ b, others = [b] := by
      cases h with
      | cons _ h => cases h; exact ⟨_, rfl⟩
    simp only [evaluateKeywords]
    exact C.pure ⟨.nil, by simp⟩
  | keyword a b rest name ha ih =>
    cases h with
    | cons haa h =>
      cases h with
      | cons hbb h =>
        rw [evaluateKeywords_keyword A ha]
        simp only [evaluateKeywords_keyword _ (haa.1.trans ha)]
        refine C.bind (hbb.2) fun v w hvw => C.bind (ih h) fun vs ws hvs => C.pure ?_
        refine ⟨.cons ⟨rfl, hvw⟩ hvs.1, ?_⟩
        rw [Tree.keywordNames_keyword ha]
        intro entry hentry
        rcases List.mem_cons.1 hentry with rfl | hentry
        · exact List.mem_cons_self
        · exact List.mem_cons_of_mem _ (hvs.2 entry hentry)
  | positional a rest ha ih =>
    cases h with
    | cons haa h =>
      rw [evaluateKeywords_positional A ha]
      simp only [evaluateKeywords_positional _ (haa.1.trans ha)]
      rw [show RelatedKeywords R (a :: rest) = RelatedKeywords R rest by
        unfold RelatedKeywords
        rw [Tree.keywordNames_positional ha]]
      exact ih h

theorem positional {args others : List Tree}
    (h : List.Forall₂ (fun t u => u.keywordName? = t.keywordName? ∧
      C.Holds R (evaluate .builtin A t q) fun i => evaluate .builtin (B i) u q') args others) :
    C.Holds (List.Forall₂ R) (evaluatePositional .builtin A args q) fun i =>
      evaluatePositional .builtin (B i) others q' := by
  induction args using args_induct generalizing others with
  | nil =>
    cases h
    simp only [evaluatePositional]
    exact C.pure .nil
  | dangling a name ha =>
    obtain ⟨b, rfl, hb⟩ : ∃ b, others = [b] ∧ b.keywordName? = a.keywordName? := by
      cases h with
      | cons hb h => cases h; exact ⟨_, rfl, hb.1⟩
    simp only [evaluatePositional, hb, ha]
    exact C.pure .nil
  | keyword a b rest name ha ih =>
    cases h with
    | cons haa h =>
      cases h with
      | cons hbb h =>
        rw [evaluatePositional_keyword A ha]
        simp only [evaluatePositional_keyword _ (haa.1.trans ha)]
        exact ih h
  | positional a rest ha ih =>
    cases h with
    | cons haa h =>
      rw [evaluatePositional_positional A ha]
      simp only [evaluatePositional_positional _ (haa.1.trans ha)]
      exact C.bind (haa.2) fun v w hvw => C.bind (ih h) fun vs ws hvs =>
        C.pure (.cons hvw hvs)

/-- The values of keywords that are related make related maps. -/
theorem relatedKeywords_ofList {args : List Tree} {entries others : List (String × Value)}
    (h : RelatedKeywords R args entries others) :
    RelatedMaps R (.ofList entries) (.ofList others) ∧
      ∀ name, (OrderedMap.ofList entries).contains name = true → name ∈ Tree.keywordNames args := by
  refine ⟨relatedMaps_ofList h.1, fun name hname => ?_⟩
  rw [OrderedMap.contains_iff, OrderedMap.mem_keys_ofList] at hname
  obtain ⟨entry, hentry, rfl⟩ := List.mem_map.1 hname
  exact h.2 entry hentry

end Compares

/-- **What makes evaluations compare**, if what relates values depends on what is asked for: leaves
do, and calls do whose arguments, asked for what the operators ask them, are related. -/
structure ComparesByQuery (C : Comparison σ τ ι) (A : Resolver σ) (B : ι → Resolver τ)
    (R : Query → Query → Value → Value → Prop) (Q : Query → Query → Prop)
    (L : List Tree → Tree → Prop) (N : Tree → Prop) : Prop where
  literal : ∀ {l q q'}, N (.atom l) → R q q' (.ofLiteral l) (.ofLiteral l)
  leaf : ∀ {items : List Tree} {u : Tree} {q q' : Query}, L items u → Q q q' →
    C.Holds (R q q') (evaluate .builtin A (.list items) q) fun i => evaluate .builtin (B i) u q'
  call : ∀ {b : Builtin} {items : List Tree} {m m' : OrderedMap String Value} {q q' : Query},
    isApplied b = true → Tree.Calls items b → N (.list items) →
    (∀ name, m.contains name = true → name ∈ Tree.keywordNames items.tail) →
    RelatedMaps (R q q') m m' → Q q q' →
    C.Holds (fun c c' => Q c c' ∧ ∀ vs ws, List.Forall₂ (R c c') vs ws →
        C.Holds (R q q') (settle (b.apply ⟨vs, m⟩ q)) fun _ => settle (b.apply ⟨ws, m'⟩ q'))
      (settle (b.childQuery m q)) fun _ => settle (b.childQuery m' q')

/-- **Formulas that correspond to each other compare**, if their leaves do. -/
theorem ComparesByQuery.evaluate {C : Comparison σ τ ι} {A : Resolver σ} {B : ι → Resolver τ}
    {R : Query → Query → Value → Value → Prop} {Q : Query → Query → Prop}
    {L : List Tree → Tree → Prop} {N : Tree → Prop} (h : ComparesByQuery C A B R Q L N)
    {t u : Tree} (htu : Tree.Corresponds L N t u) {q q' : Query} (hq : Q q q') :
    C.Holds (R q q') (evaluate .builtin A t q) fun i => evaluate .builtin (B i) u q' := by
  induction t using Tree.inductionOn generalizing u q q' with
  | atom l =>
    cases htu with
    | atom _ hN =>
      simp only [Evaluation.evaluate]
      exact C.pure (h.literal hN)
  | list items ih =>
    cases htu with
    | leaf hleaf _ => exact h.leaf hleaf hq
    | @call _ others b hb happlied hN hitems =>
      -- The keywords are asked for the query itself, and the arguments for what it becomes.
      have hargs {c c' : Query} (hc : Q c c') : List.Forall₂ (fun t u =>
          u.keywordName? = t.keywordName? ∧ C.Holds (R c c') (Evaluation.evaluate .builtin A t c)
            fun i => Evaluation.evaluate .builtin (B i) u c') items.tail others.tail := by
        cases hitems with
        | nil => exact .nil
        | @cons t u items others _ hrest =>
          exact Result.forall₂_imp_of_mem hrest fun t ht u htu =>
            ⟨htu.keywordName?, ih t (List.mem_cons_of_mem _ ht) htu hc⟩
      rw [evaluate_call A hb happlied]
      simp only [evaluate_call _ (Tree.Corresponds.calls hb hitems) happlied]
      refine C.bind (C.settle (Tree.yields_checked hitems)) fun _ _ _ => ?_
      refine C.bind (C.map (S := fun m m' => RelatedMaps (R q q') m m' ∧
        ∀ name, m.contains name = true → name ∈ Tree.keywordNames items.tail)
        (Compares.keywords (hargs hq)) fun _ _ hm => Compares.relatedKeywords_ofList hm)
        fun m m' hm => ?_
      refine C.bind (h.call happlied hb hN hm.2 hm.1 hq) fun c c' hc => ?_
      exact C.bind (Compares.positional (hargs hc.1)) fun vs ws hvs => hc.2 vs ws hvs

/-- Formulas that correspond to each other compare along one relation of values. -/
theorem Compares.evaluate {C : Comparison σ τ ι} {A : Resolver σ} {B : ι → Resolver τ}
    {R : Value → Value → Prop} {Q : Query → Query → Prop} {L : List Tree → Tree → Prop}
    {N : Tree → Prop} (h : Compares C A B R Q L N) {t u : Tree} (htu : Tree.Corresponds L N t u) :
    Both C A B R Q t u := by
  have hcompares : ComparesByQuery C A B (fun _ _ => R) Q L N := by
    refine ⟨h.literal, h.leaf, fun happlied hb hN hnames hm hq => ?_⟩
    exact C.mono (h.childQuery happlied hb hN hm hq) fun c c' hc =>
      ⟨hc, fun vs ws hvs => h.apply happlied hb hN hnames ⟨hvs, hm⟩ hq⟩
  exact fun q q' hq => hcompares.evaluate htu hq

end SeriesAlgebra
