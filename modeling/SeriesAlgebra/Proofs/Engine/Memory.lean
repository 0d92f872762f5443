import SeriesAlgebra.Proofs.Engine.Remembering

/-!
# Memory makes no difference

What is read for one part of a call is remembered for the others, so a reading may be done
from any memory that earlier readings left. This makes no difference: a reading that gives
something from nothing gives the same from all that may be remembered by then
(`Engine.gives_of_nothing`), with every registry and over every store.

A memory that readings leave is **closed** (`Engine.IsClosed`): whatever it holds can be read
again by looking at nothing but the memory. So a series that is remembered is the one that
would be read, and the series below it are remembered too, which matters because a series
that is remembered is answered without a look at how deep the reader is.
-/

namespace SeriesAlgebra

open Evaluation Reading Comparison

variable {σ τ α : Type}

/-! ### Entering -/

namespace Comparison

/-- Readers that are entered agree, if they do wherever both are entered. -/
theorem enters_agreeWhile {J : σ → τ → Prop} {enter : String → Except EngineError (Resolver σ)}
    {enter' : String → Except EngineError (Resolver τ)}
    (h : ∀ label A B, enter label = .ok A → enter' label = .ok B →
      (agreeWhile J).Resolves A fun _ => B) : (agreeWhile J).Enters enter fun _ => enter' := by
  intro label α f g hfg
  cases hlabel : enter label with
  | error cause => exact throw_same _ cause _
  | ok A =>
    cases hlabel' : enter' label with
    | error cause =>
      intro s t _ a s' b t' _ hb
      obtain ⟨B, _, hB, -⟩ := gives_bind.1 hb
      cases hlabel'.symm.trans (gives_settle.1 hB).1
    | ok B =>
      simp only [hlabel']
      exact hfg A (fun _ => B) (h label A B hlabel hlabel')

end Comparison

namespace Engine

variable (e : Engine)

/-- What is entered below a path of names being read, with a number of levels left. -/
def enterBelow : Nat → List String → String → Except EngineError (Resolver Memo)
  | 0, path, label =>
    if path.contains label then .error (.tree (.cycle (path ++ [label])))
    else .error (.tree (.tooDeep e.config.maxDepth))
  | levels + 1, path, label =>
    if path.contains label then .error (.tree (.cycle (path ++ [label])))
    else .ok (e.readerBelow levels (path ++ [label]))

variable {e} {levels : Nat} {path : List String}

theorem readerBelow_eq (levels : Nat) (path : List String) :
    e.readerBelow levels path = e.readerEntering (e.enterBelow levels path) := by
  cases levels <;> rfl

theorem enterBelow_ok {label : String} {A : Resolver Memo}
    (h : e.enterBelow levels path label = .ok A) :
    ∃ l, levels = l + 1 ∧ A = e.readerBelow l (path ++ [label]) := by
  cases levels with
  | zero =>
    rw [enterBelow] at h
    split at h <;> cases h
  | succ l =>
    rw [enterBelow] at h
    split at h
    · cases h
    · exact ⟨l, rfl, (Except.ok.inj h).symm⟩

/-- A name that is not on the path is refused only if there is no level left. -/
theorem enterBelow_error {label : String} {cause : EngineError} (hnot : label ∉ path)
    (h : e.enterBelow levels path label = .error cause) :
    levels = 0 ∧ cause = .tree (.tooDeep e.config.maxDepth) := by
  have hcontains : path.contains label ≠ true := fun hmem => hnot (List.contains_iff_mem.1 hmem)
  cases levels with
  | zero =>
    rw [enterBelow, if_neg hcontains] at h
    exact ⟨rfl, (Except.error.inj h).symm⟩
  | succ l =>
    rw [enterBelow, if_neg hcontains] at h
    cases h

/-! ### Looking at a memory only -/

/-- What a memory holds of a series. -/
def held (memo : Memo) (name : String) (q : Query) : Except EngineError Series :=
  match memo.lookup (name, q) with
  | some s => .ok s
  | none => .error (.unknownName name)

theorem held_ok {memo : Memo} {name : String} {q : Query} {s : Series} :
    held memo name q = .ok s ↔ memo.lookup (name, q) = some s := by
  unfold held
  cases memo.lookup (name, q) with
  | none => exact ⟨nofun, nofun⟩
  | some r => exact ⟨fun h => congrArg some (Except.ok.inj h), fun h => congrArg Except.ok (Option.some.inj h)⟩

variable (e) in
/-- The reader that knows a series only if a memory holds it, and enters groups in a given way. -/
def heldEntering (memo : Memo) (enter : String → Except EngineError (Resolver Unit)) :
    Resolver Unit where
  series name q := settle (held memo name q)
  group := e.readGroup enter
  autotrophic := Resolver.noAutotrophic

variable (e) in
/-- **The reader that only looks at a memory**, with a number of levels. -/
def heldReader (memo : Memo) : Nat → Resolver Unit
  | 0 => e.heldEntering memo fun _ => .error (.tree (.tooDeep e.config.maxDepth))
  | n + 1 => e.heldEntering memo fun _ => .ok (heldReader memo n)

variable (e) in
/-- What is entered by the reader that only looks at a memory. -/
def heldEnter (memo : Memo) : Nat → String → Except EngineError (Resolver Unit)
  | 0, _ => .error (.tree (.tooDeep e.config.maxDepth))
  | n + 1, _ => .ok (e.heldReader memo n)

theorem heldReader_eq (memo : Memo) (n : Nat) :
    e.heldReader memo n = e.heldEntering memo (e.heldEnter memo n) := by
  cases n <;> rfl

variable (e) in
/-- **Whether a memory is closed**: what it holds is read again by looking at nothing else. -/
def IsClosed (memo : Memo) : Prop := ∀ name q s, memo.lookup (name, q) = some s →
  ∃ n, Gives (e.readSeries (e.heldEnter memo n) name q) () s ()

theorem isClosed_nil : e.IsClosed [] := fun _ _ _ h => by cases h

variable {memo : Memo}

/-- Levels make no difference to what is read. -/
theorem enters_heldEnter (memo : Memo) (n n' : Nat) :
    (agreeWhile fun (_ _ : Unit) => True).Enters (e.heldEnter memo n) fun _ =>
      e.heldEnter memo n' := by
  refine enters_agreeWhile fun label A B hA hB => ?_
  cases n with
  | zero => cases hA
  | succ n =>
    cases n' with
    | zero => cases hB
    | succ n' =>
      rw [← Except.ok.inj hA, ← Except.ok.inj hB, heldReader_eq, heldReader_eq]
      exact ⟨fun name q => settle_same _ _, holds_readGroup (enters_heldEnter memo n n'),
        fun _ _ => pure_same _ none⟩

/-- What is read by looking at a memory is one series. -/
theorem eq_of_held {name : String} {q : Query} {n n' : Nat} {s s' : Series}
    (hs : Gives (e.readSeries (e.heldEnter memo n) name q) () s ())
    (hs' : Gives (e.readSeries (e.heldEnter memo n') name q) () s' ()) : s = s' :=
  (holds_readSeries (enters_heldEnter memo n n') name q () () trivial s () s' () hs hs').1

/-- What is read by looking at a memory is read by looking at a larger one. -/
theorem enters_larger {memo' : Memo} (h : memo.IsWithin memo') (n : Nat) :
    (lockstep fun (_ _ : Unit) => True).Enters (e.heldEnter memo n) fun _ =>
      e.heldEnter memo' n := by
  induction n with
  | zero => exact enters_of_ok nofun
  | succ n ih =>
    refine enters_of_ok fun label A hA => ⟨fun _ => e.heldReader memo' n, fun _ => rfl, ?_⟩
    rw [← Except.ok.inj hA, heldReader_eq, heldReader_eq]
    refine ⟨fun name q => ?_, holds_readGroup ih, fun _ _ => pure_same _ none⟩
    refine Comparison.settle _ fun s hs => ⟨s, ?_, rfl⟩
    exact held_ok.2 (h _ _ (held_ok.1 hs))

theorem gives_larger {memo' : Memo} (h : memo.IsWithin memo') {name : String} {q : Query} {n : Nat}
    {s : Series} (hs : Gives (e.readSeries (e.heldEnter memo n) name q) () s ()) :
    Gives (e.readSeries (e.heldEnter memo' n) name q) () s () := by
  obtain ⟨s', _, hs', rfl, -⟩ := holds_readSeries (enters_larger h n) name q () () trivial s () hs
  exact hs'

/-! ### What readings leave -/

variable (e) in
/-- **Whether a reading leaves a trace**: from a closed memory it leaves a closed one that holds more,
and what it gives is read again by looking at that one, or at a larger one. -/
def traced : Comparison Memo Unit Memo where
  Holds R x y := ∀ m, e.IsClosed m → ∀ a m', Gives x m a m' →
    e.IsClosed m' ∧ m.IsWithin m' ∧ ∃ b, R a b ∧ ∀ m'', m'.IsWithin m'' → Gives (y m'') () b ()
  pure hab m hm a m' h := by
    obtain ⟨rfl, rfl⟩ := gives_pure.1 h
    exact ⟨hm, .refl _, _, hab, fun _ _ => gives_pure.2 ⟨rfl, rfl⟩⟩
  throw cause y m _ a m' h := (gives_throw.1 h).elim
  mono h himp m hm a m' ha := by
    obtain ⟨hm', hgrows, b, hab, hb⟩ := h m hm a m' ha
    exact ⟨hm', hgrows, b, himp a b hab, hb⟩
  bind hxy hfg m hm c m'' h := by
    obtain ⟨a, m', ha, hc⟩ := gives_bind.1 h
    obtain ⟨hm', hgrows, b, hab, hb⟩ := hxy m hm a m' ha
    obtain ⟨hm'', hgrows', d, hcd, hd⟩ := hfg a b hab m' hm' c m'' hc
    exact ⟨hm'', hgrows.trans hgrows', d, hcd, fun m₃ hm₃ =>
      gives_bind.2 ⟨b, (), hb m₃ (hgrows'.trans hm₃), hd m₃ hm₃⟩⟩

/-- What is read and remembered leaves a trace. -/
theorem traced_remember {name : String} {q : Query} {enter : String → Except EngineError (Resolver Memo)}
    {n : Nat} (h : e.traced.Holds Eq (e.readSeries enter name q) fun m =>
      e.readSeries (e.heldEnter m n) name q) :
    e.traced.Holds Eq (Memo.remember (name, q) (e.readSeries enter name q)) fun m =>
      settle (held m name q) := by
  intro m hm s m' hs
  rcases gives_remember.1 hs with ⟨hlookup, rfl⟩ | ⟨hnone, m'', hcompute, rfl⟩
  · exact ⟨hm, .refl _, s, rfl, fun m'' hm'' => gives_settle.2 ⟨held_ok.2 (hm'' _ _ hlookup), rfl⟩⟩
  · obtain ⟨hm'', hgrows, _, rfl, hagain⟩ := h m hm s m'' hcompute
    -- A series that is read while it is read is the same one.
    have hwithin : m''.IsWithin (((name, q), s) :: m'') := by
      intro key r hr
      rw [List.lookup_cons]
      split
      · rename_i heq
        obtain rfl := beq_iff_eq.1 heq
        obtain ⟨n', hr⟩ := hm'' name q r hr
        exact congrArg some (eq_of_held (hagain m'' (.refl _)) hr)
      · exact hr
    refine ⟨fun name' q' r hr => ?_, hgrows.cons hnone s, s, rfl, fun m₃ hm₃ => ?_⟩
    · rw [List.lookup_cons] at hr
      split at hr
      · rename_i heq
        obtain ⟨rfl, rfl⟩ := Prod.mk.inj (beq_iff_eq.1 heq)
        obtain rfl := Option.some.inj hr
        exact ⟨n, hagain _ hwithin⟩
      · obtain ⟨n', hr⟩ := hm'' name' q' r hr
        exact ⟨n', gives_larger hwithin hr⟩
    · exact gives_settle.2 ⟨held_ok.2 (hm₃ _ _ (by rw [List.lookup_cons, beq_self_eq_true])), rfl⟩

theorem traced_of_enters (h : e.traced.Enters (e.enterBelow levels path) (e.heldEnter · levels)) :
    e.traced.Resolves (e.readerBelow levels path) (e.heldReader · levels) := by
  rw [readerBelow_eq]
  simp only [heldReader_eq]
  exact ⟨fun name q => traced_remember (holds_readSeries h name q), holds_readGroup h,
    fun _ _ => pure_same _ none⟩

theorem traced_enterBelow (levels : Nat) (path : List String) :
    e.traced.Enters (e.enterBelow levels path) (e.heldEnter · levels) := by
  refine enters_of_ok fun label A hA => ?_
  obtain ⟨l, rfl, rfl⟩ := enterBelow_ok hA
  exact ⟨(e.heldReader · l), fun _ => rfl, traced_of_enters (traced_enterBelow l _)⟩

/-- **The reader of an engine leaves traces.** -/
theorem traced_readerBelow (levels : Nat) (path : List String) :
    e.traced.Resolves (e.readerBelow levels path) (e.heldReader · levels) :=
  traced_of_enters (traced_enterBelow levels path)

/-! ### Other memories -/

/-- What is read of a series that a closed memory holds is what it holds, and nothing new is
remembered. -/
theorem enters_held (memo : Memo) (levels n : Nat) (path : List String) :
    (agreeWhile fun (m : Memo) (_ : Unit) => m = memo).Enters (e.enterBelow levels path) fun _ =>
      e.heldEnter memo n := by
  refine enters_agreeWhile fun label A B hA hB => ?_
  obtain ⟨l, rfl, rfl⟩ := enterBelow_ok hA
  cases n with
  | zero => cases hB
  | succ n =>
    rw [← Except.ok.inj hB, heldReader_eq, readerBelow_eq]
    refine ⟨fun name q => ?_, holds_readGroup (enters_held memo l n _), fun _ _ => pure_same _ none⟩
    intro m _ hm s m' r _ hs hr
    subst hm
    have hlookup := held_ok.1 (gives_settle.1 hr).1
    rcases gives_remember.1 hs with ⟨hsome, rfl⟩ | ⟨hnone, -⟩
    · exact ⟨Option.some.inj (hsome.symm.trans hlookup), rfl⟩
    · cases hnone.symm.trans hlookup

variable (e) in
/-- Whether two memories are closed and the one holds what the other does. -/
def BothClosed (m m' : Memo) : Prop := e.IsClosed m ∧ e.IsClosed m' ∧ m.IsWithin m'

/-- **A series is read alike from a larger memory.** -/
theorem lockstep_remember (name : String) (q : Query)
    (h : (lockstep e.BothClosed).Enters (e.enterBelow levels path) fun _ => e.enterBelow levels path) :
    (lockstep e.BothClosed).Holds Eq ((e.readerBelow levels path).series name q) fun _ =>
      (e.readerBelow levels path).series name q := by
  intro m₁ m₂ hclosed s m₁' hs
  have htraced := (traced_readerBelow (e := e) levels path).series name q
  obtain ⟨hclosed₁', -⟩ := htraced m₁ hclosed.1 s m₁' hs
  rw [readerBelow_eq] at hs htraced ⊢
  rcases gives_remember.1 hs with ⟨hlookup, rfl⟩ | ⟨hnone, m₁'', hcompute, rfl⟩
  · exact ⟨s, m₂, gives_remember.2 (Or.inl ⟨hclosed.2.2 _ _ hlookup, rfl⟩), rfl, hclosed⟩
  · obtain ⟨_, m₂'', hcompute₂, rfl, hclosed''⟩ :=
      holds_readSeries h name q m₁ m₂ hclosed s m₁'' hcompute
    cases hlookup : m₂.lookup (name, q) with
    | none =>
      have hs₂ := gives_remember.2 (Or.inr ⟨hlookup, m₂'', hcompute₂, rfl⟩)
      obtain ⟨hclosed₂', -⟩ := htraced m₂ hclosed.2.1 s _ hs₂
      refine ⟨s, _, hs₂, rfl, hclosed₁', hclosed₂', fun key r hr => ?_⟩
      rw [List.lookup_cons] at hr ⊢
      split
      · rename_i heq
        rwa [heq] at hr
      · rename_i heq
        rw [heq] at hr
        exact hclosed''.2.2 key r hr
    | some r =>
      -- What the larger memory holds was read alike, and all that is below it is there too.
      obtain ⟨n, hr⟩ := hclosed.2.1 name q r hlookup
      obtain ⟨rfl, rfl⟩ := holds_readSeries (enters_held m₂ levels n path) name q m₂ () rfl s m₂''
        r () hcompute₂ hr
      refine ⟨s, m₂'', gives_remember.2 (Or.inl ⟨hlookup, rfl⟩), rfl, hclosed₁', hclosed.2.1,
        fun key r hr => ?_⟩
      rw [List.lookup_cons] at hr
      split at hr
      · rename_i heq
        obtain rfl := beq_iff_eq.1 heq
        exact hlookup.trans hr
      · exact hclosed''.2.2 key r hr

theorem lockstep_of_enters
    (h : (lockstep e.BothClosed).Enters (e.enterBelow levels path) fun _ => e.enterBelow levels path) :
    (lockstep e.BothClosed).Resolves (e.readerBelow levels path) fun _ =>
      e.readerBelow levels path := by
  refine ⟨fun name q => lockstep_remember name q h, ?_, ?_⟩
  · rw [readerBelow_eq]
    exact holds_readGroup h
  · rw [readerBelow_eq]
    exact fun _ _ => pure_same _ none

theorem lockstep_enterBelow (levels : Nat) (path : List String) :
    (lockstep e.BothClosed).Enters (e.enterBelow levels path) fun _ =>
      e.enterBelow levels path := by
  refine enters_of_ok fun label A hA => ⟨fun _ => A, fun _ => hA, ?_⟩
  obtain ⟨l, rfl, rfl⟩ := enterBelow_ok hA
  exact lockstep_of_enters (lockstep_enterBelow l _)

/-- **The reader of an engine reads alike from larger memories.** -/
theorem lockstep_readerBelow (levels : Nat) (path : List String) :
    (lockstep e.BothClosed).Resolves (e.readerBelow levels path) fun _ =>
      e.readerBelow levels path :=
  lockstep_of_enters (lockstep_enterBelow levels path)

/-- **What is read from nothing is read alike from every memory** that may be there by then. -/
theorem gives_of_nothing {x : Reading Memo α}
    (hx : (lockstep e.BothClosed).Holds Eq x fun _ => x) {a : α} {m : Memo} (h : Gives x [] a m)
    {memo : Memo} (hmemo : e.IsClosed memo) : ∃ memo', Gives x memo a memo' ∧ e.IsClosed memo' := by
  obtain ⟨_, memo', ha, rfl, -, hclosed, -⟩ :=
    hx [] memo ⟨isClosed_nil, hmemo, fun _ _ h => by cases h⟩ a m h
  exact ⟨memo', ha, hclosed⟩

/-! ### Answers -/

variable {β : Type}

variable (e) in
/-- **Whether a reading has an answer whatever is remembered**, and leaves a closed memory. -/
def Answers (x : Reading Memo α) (a : α) : Prop :=
  ∀ memo, e.IsClosed memo → ∃ memo', Gives x memo a memo' ∧ e.IsClosed memo'

theorem answers_of_answerOf {x : Reading Memo α} (hx : (lockstep e.BothClosed).Holds Eq x fun _ => x)
    {a : α} (h : answerOf x = .ok a) : e.Answers x a := by
  obtain ⟨m, hm⟩ := gives_of_answerOf h
  exact fun memo hmemo => gives_of_nothing hx hm hmemo

theorem answers_pure (a : α) : e.Answers (Pure.pure a) a :=
  fun memo hmemo => ⟨memo, gives_pure.2 ⟨rfl, rfl⟩, hmemo⟩

theorem answers_settle {x : Except EngineError α} {a : α} (h : x = .ok a) :
    e.Answers (Evaluation.settle x) a :=
  fun memo hmemo => ⟨memo, gives_settle.2 ⟨h, rfl⟩, hmemo⟩

theorem Answers.bind {x : Reading Memo α} {f : α → Reading Memo β} {a : α} {b : β}
    (h : e.Answers x a) (hf : e.Answers (f a) b) : e.Answers (x >>= f) b := by
  intro memo hmemo
  obtain ⟨memo', ha, hmemo'⟩ := h memo hmemo
  obtain ⟨memo'', hb, hmemo''⟩ := hf memo' hmemo'
  exact ⟨memo'', gives_bind.2 ⟨a, memo', ha, hb⟩, hmemo''⟩

theorem answers_mapM {f : α → Reading Memo β} {as : List α} {bs : List β}
    (h : List.Forall₂ (fun a b => e.Answers (f a) b) as bs) : e.Answers (as.mapM f) bs := by
  induction h with
  | nil =>
    rw [List.mapM_nil]
    exact answers_pure []
  | cons hhead _ ih =>
    rw [List.mapM_cons]
    exact hhead.bind (ih.bind (answers_pure _))

/-- What follows what is answered. -/
theorem Answers.run_bind {x : Reading Memo α} {a : α} (h : e.Answers x a) (f : α → Reading Memo β)
    {memo : Memo} (hmemo : e.IsClosed memo) :
    ∃ memo', e.IsClosed memo' ∧ (x >>= f).run memo = (f a).run memo' := by
  obtain ⟨memo', ha, hmemo'⟩ := h memo hmemo
  refine ⟨memo', hmemo', ?_⟩
  rw [Reading.run_bind, show x.run memo = (.ok a, memo') from ha]

end Engine

end SeriesAlgebra
