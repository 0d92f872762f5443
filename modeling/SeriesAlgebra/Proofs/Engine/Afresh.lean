import SeriesAlgebra.Proofs.Engine.Memory
import SeriesAlgebra.Proofs.Engine.Reachable

/-!
# Reading afresh

A reader that remembers nothing (`Engine.freshReader`) reads every formula again wherever it
is met, and looks at the path and at the levels that are left each time. What it gives, the
reader of the engine gives as well (`Engine.read_of_fresh`): with every registry, over every
store, and for groups as for series.

What the fresh reader gives of a series depends on the series and the query only, and not on
where the series is met (`Engine.enters_freshBelow`). So all that needs to be known of a memory
is that what it holds was given by fresh readers, at some place or other
(`Engine.IsFresh`). The converse fails: a series that is remembered is answered without a look
at the levels that are left, so that a reading may succeed only because it remembers.
-/

namespace SeriesAlgebra

open Evaluation Reading Comparison

namespace Engine

variable (e : Engine)

/-! ### Fresh readers -/

/-- The reader that enters formulas in a given way and remembers nothing. -/
def freshEntering (enter : String → Except EngineError (Resolver Unit)) : Resolver Unit where
  series := e.readSeries enter
  group := e.readGroup enter
  autotrophic := Resolver.noAutotrophic

/-- What is entered by a reader that remembers nothing, below a path of names being read. -/
def freshEnter : Nat → List String → String → Except EngineError (Resolver Unit)
  | 0, path, label =>
    if path.contains label then .error (.tree (.cycle (path ++ [label])))
    else .error (.tree (.tooDeep e.config.maxDepth))
  | levels + 1, path, label =>
    if path.contains label then .error (.tree (.cycle (path ++ [label])))
    else .ok (e.freshEntering (freshEnter levels (path ++ [label])))

/-- The reader that remembers nothing below a path of names being read. -/
def freshBelow (levels : Nat) (path : List String) : Resolver Unit :=
  e.freshEntering (e.freshEnter levels path)

/-- **The reader that remembers nothing.** -/
def freshReader : Resolver Unit := e.freshBelow e.config.maxDepth []

/-- **Reading a series afresh**: as `Engine.read`, but every formula each time it is met. -/
def readFresh (name : String) (query : Query) : Except EngineError (Option Series) :=
  if e.formulas.contains name then (outcome (e.freshReader.series name query)).map some
  else match e.store.read? name query with
    | some s => .ok (some s)
    | none =>
      match e.sourceOf? name with
      | some source => source.read? name query
      | none => .ok none

/-- **Reading a group afresh**: as `Engine.readTable`, but every formula each time it is met. -/
def readTableFresh (name : String) (query : Query) : Except EngineError (Option Frame) :=
  if e.containsGroup name then (outcome (e.freshReader.group name query)).map some
  else .ok none

variable {e}

theorem freshEnter_ok {levels : Nat} {path : List String} {label : String} {A : Resolver Unit}
    (h : e.freshEnter levels path label = .ok A) :
    ∃ l, levels = l + 1 ∧ label ∉ path ∧ A = e.freshBelow l (path ++ [label]) := by
  cases levels with
  | zero =>
    rw [freshEnter] at h
    split at h <;> cases h
  | succ l =>
    rw [freshEnter] at h
    split at h
    · cases h
    · rename_i hlabel
      exact ⟨l, rfl, by simpa using hlabel, (Except.ok.inj h).symm⟩

/-- Where a fresh reader enters a formula, the reader does that has come as far. -/
theorem enterBelow_of_freshEnter {levels : Nat} {path : List String} {label : String}
    {A : Resolver Unit} (h : e.freshEnter levels path label = .ok A) :
    ∃ l, levels = l + 1 ∧ A = e.freshBelow l (path ++ [label]) ∧
      e.enterBelow levels path label = .ok (e.readerBelow l (path ++ [label])) := by
  obtain ⟨l, rfl, hlabel, rfl⟩ := freshEnter_ok h
  refine ⟨l, rfl, rfl, ?_⟩
  rw [enterBelow, if_neg (by simpa using hlabel)]

/-- **Where a formula is met makes no difference to what is read afresh.** -/
theorem enters_freshBelow (levels levels' : Nat) (path path' : List String) :
    (agreeWhile fun (_ _ : Unit) => True).Enters (e.freshEnter levels path) fun _ =>
      e.freshEnter levels' path' := by
  induction levels generalizing levels' path path' with
  | zero =>
    refine enters_agreeWhile fun label A B hA _ => ?_
    obtain ⟨l, hl, -⟩ := freshEnter_ok hA
    omega
  | succ levels ih =>
    refine enters_agreeWhile fun label A B hA hB => ?_
    obtain ⟨l, hl, -, rfl⟩ := freshEnter_ok hA
    obtain ⟨l', rfl, -, rfl⟩ := freshEnter_ok hB
    obtain rfl : levels = l := Nat.succ.inj hl
    -- Both readers enter the same formula, and meet what it refers to afresh again.
    have hbelow := ih l' (path ++ [label]) (path' ++ [label])
    exact ⟨holds_readSeries hbelow, holds_readGroup hbelow, fun _ _ => pure_same _ none⟩

/-! ### Memories -/

variable (e) in
/-- **Whether a memory is fresh**: what it holds is read afresh somewhere. -/
def IsFresh (memo : Memo) : Prop := ∀ name q s, memo.lookup (name, q) = some s →
  ∃ levels path, Gives ((e.freshBelow levels path).series name q) () s ()

theorem isFresh_nil : e.IsFresh [] := by
  rintro _ _ _ ⟨⟩

theorem IsFresh.cons {memo : Memo} (h : e.IsFresh memo) {levels : Nat} {path : List String}
    {name : String} {q : Query} {s : Series}
    (hs : Gives ((e.freshBelow levels path).series name q) () s ()) :
    e.IsFresh (((name, q), s) :: memo) := by
  intro name' q' s' hs'
  rw [List.lookup_cons] at hs'
  split at hs'
  · rename_i heq
    obtain ⟨rfl, rfl⟩ := Prod.mk.inj (beq_iff_eq.1 heq)
    obtain rfl := Option.some.inj hs'
    exact ⟨levels, path, hs⟩
  · exact h name' q' s' hs'

/-- A fresh memory holds what is read afresh, wherever that is. -/
theorem IsFresh.eq {memo : Memo} (h : e.IsFresh memo) {levels : Nat} {path : List String}
    {name : String} {q : Query} {r s : Series} (hr : memo.lookup (name, q) = some r)
    (hs : Gives ((e.freshBelow levels path).series name q) () s ()) : r = s := by
  obtain ⟨levels', path', hr⟩ := h name q r hr
  exact (holds_readSeries (enters_freshBelow levels' levels path' path) name q () () trivial
    r () s () hr hs).1

variable (e) in
/-- **Whether what is read afresh is read from every fresh memory**, which stays fresh. -/
abbrev remembering : Comparison Unit Memo Unit := lockstep fun _ memo => e.IsFresh memo

/-- What is read afresh is found in a fresh memory, or read and remembered. -/
theorem remembering_remember {levels : Nat} {path : List String}
    (h : e.remembering.Enters (e.freshEnter levels path) fun _ => e.enterBelow levels path)
    (name : String) (q : Query) :
    e.remembering.Holds Eq ((e.freshBelow levels path).series name q) fun _ =>
      Memo.remember (name, q) (e.readSeries (e.enterBelow levels path) name q) := by
  intro _ memo hmemo s _ hs
  cases hlookup : memo.lookup (name, q) with
  | some r =>
    -- What is held may have been read at another place, with the same outcome.
    obtain rfl := hmemo.eq hlookup hs
    exact ⟨r, memo, gives_remember.2 (.inl ⟨hlookup, rfl⟩), rfl, hmemo⟩
  | none =>
    obtain ⟨_, memo', hcompute, rfl, hmemo'⟩ := holds_readSeries h name q () memo hmemo s () hs
    exact ⟨s, _, gives_remember.2 (.inr ⟨hlookup, memo', hcompute, rfl⟩), rfl, hmemo'.cons hs⟩

theorem remembering_of_enters {levels : Nat} {path : List String}
    (h : e.remembering.Enters (e.freshEnter levels path) fun _ => e.enterBelow levels path) :
    e.remembering.Resolves (e.freshBelow levels path) fun _ => e.readerBelow levels path := by
  rw [readerBelow_eq]
  exact ⟨remembering_remember h, holds_readGroup h, fun _ _ => pure_same _ none⟩

theorem remembering_enterBelow (levels : Nat) (path : List String) :
    e.remembering.Enters (e.freshEnter levels path) fun _ => e.enterBelow levels path := by
  induction levels generalizing path with
  | zero =>
    refine enters_of_ok fun label A hA => ?_
    obtain ⟨l, hl, -⟩ := freshEnter_ok hA
    omega
  | succ levels ih =>
    refine enters_of_ok fun label A hA => ?_
    obtain ⟨l, hl, rfl, hB⟩ := enterBelow_of_freshEnter hA
    obtain rfl : levels = l := Nat.succ.inj hl
    exact ⟨fun _ => e.readerBelow levels (path ++ [label]), fun _ => hB,
      remembering_of_enters (ih _)⟩

/-- **The reader of an engine gives what the fresh one does.** -/
theorem remembering_reader : e.remembering.Resolves e.freshReader fun _ => e.reader :=
  remembering_of_enters (remembering_enterBelow _ _)

/-- What is given afresh is the answer of a reading that remembers nothing at first. -/
theorem answerOf_of_outcome {α : Type} {x : Reading Unit α} {y : Reading Memo α}
    (h : e.remembering.Holds Eq x fun _ => y) {a : α} (ha : outcome x = .ok a) :
    answerOf y = .ok a := by
  obtain ⟨_, memo, hy, rfl, -⟩ := h () [] isFresh_nil a () (gives_of_outcome ha)
  exact congrArg Prod.fst hy

/-- **To remember makes no difference**: what is read afresh, a series or a group, is what is
read. -/
theorem read_of_fresh (e : Engine) (name : String) (q : Query) :
    (∀ answer, e.readFresh name q = .ok answer → e.read name q = .ok answer) ∧
    ∀ answer, e.readTableFresh name q = .ok answer → e.readTable name q = .ok answer := by
  refine ⟨fun answer h => ?_, fun answer h => ?_⟩
  · unfold readFresh at h
    unfold read
    split at h
    · rename_i hname
      obtain ⟨s, hs, rfl⟩ := Result.map_ok h
      rw [if_pos hname, answerOf_of_outcome (remembering_reader.series name q) hs]
      rfl
    · rename_i hname
      rw [if_neg hname]
      exact h
  · unfold readTableFresh at h
    unfold readTable
    split at h
    · rename_i hname
      obtain ⟨table, htable, rfl⟩ := Result.map_ok h
      rw [if_pos hname, answerOf_of_outcome (remembering_reader.group name q) htable]
      rfl
    · rename_i hname
      rw [if_neg hname]
      exact h

/-- An engine with a formula that meets another one twice, once below a third, and with a group of
two scenarios that it is bound to. -/
def metTwice (config : Config) : Engine :=
  (overNothing config).performAll [
    .updateGroup "tide" ⟨⟨[dayOf2024 0]⟩, [("low", [1.0]), ("high", [2.0])]⟩ (dayOf2024 0),
    .updateSeries "level" (.ofPoints "level" [(dayOf2024 0, 3.0)]) (dayOf2024 0) false,
    .registerFormula "swell" "(constant 1 \"2024-01-01\" \"2024-01-02\" \"D\" \"2024-01-01\")"
      ⟨none, false⟩,
    .registerFormula "storm" "(add (series \"level\") (series \"swell\"))" ⟨none, false⟩,
    .registerFormula "height" "(add (series \"swell\") (series \"storm\"))" ⟨none, false⟩,
    .registerBinding "heights" "height" [⟨"level", "tide", "sea"⟩]]

theorem read_metTwice :
    (∃ s, (metTwice .initial).readFresh "height" .latest = .ok (some s) ∧
      (metTwice .initial).read "height" .latest = .ok (some s)) ∧
    ∃ table, (metTwice .initial).readTableFresh "heights" .latest = .ok (some table) ∧
      (metTwice .initial).readTable "heights" .latest = .ok (some table) := by
  have hcomputed :
      ((metTwice .initial).readFresh "height" .latest).toOption.join.isSome = true ∧
      ((metTwice .initial).readTableFresh "heights" .latest).toOption.join.isSome = true := by
    decide +kernel
  obtain ⟨s, hs⟩ := Result.exists_ok_some hcomputed.1
  obtain ⟨table, htable⟩ := Result.exists_ok_some hcomputed.2
  exact ⟨⟨s, hs, (read_of_fresh _ _ _).1 _ hs⟩, table, htable, (read_of_fresh _ _ _).2 _ htable⟩

/-- With two levels the formula is read only because the reader remembers. -/
example : let e := metTwice { Config.initial with maxDepth := 2 }
    (e.readFresh "height" .latest).toOption.isNone = true ∧
      (e.read "height" .latest).toOption.join.isSome = true := by
  decide +kernel

end Engine

end SeriesAlgebra
