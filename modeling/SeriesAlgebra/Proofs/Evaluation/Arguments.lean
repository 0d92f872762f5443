import SeriesAlgebra.Proofs.Evaluation.Carrying
import SeriesAlgebra.Proofs.Formula.Expansion

/-!
# Arguments that are told apart

Evaluation and type inference go through the arguments of a call as they are written, a
keyword before its value. Once the arguments are told apart (`Tree.callArgs`), both are
maps: evaluation over the positional arguments and over the values of the keywords
(`Evaluation.evaluatePositional_told`, `Evaluation.evaluateKeywords_told`), inference over
the same trees and the places they stand in (`Typing.ArgsAdmitted`,
`Typing.argsAdmitted_of_infer`).
-/

namespace SeriesAlgebra

open Evaluation Reading

variable {σ : Type} {operator : String} {args : List Tree} {told : CallArgs}

/-! ### Telling apart -/

namespace CallArgs

/-- **How arguments are told apart**, from the left. -/
inductive Tells : List Tree → CallArgs → Prop
  | nil : Tells [] ⟨[], []⟩
  | keyword {a b : Tree} {rest : List Tree} {name : String} {told : CallArgs}
      (ha : a.keywordName? = some name) (h : Tells rest told) :
      Tells (a :: b :: rest) { told with keywords := (name, b) :: told.keywords }
  | positional {a : Tree} {rest : List Tree} {told : CallArgs} (ha : a.keywordName? = none)
      (h : Tells rest told) : Tells (a :: rest) { told with positional := a :: told.positional }

theorem ofList_keyword {a b : Tree} {rest : List Tree} {name : String}
    (ha : a.keywordName? = some name) : ofList operator (a :: b :: rest) =
      (fun told => { told with keywords := (name, b) :: told.keywords }) <$>
        ofList operator rest := by
  rw [ofList, ha]
  rfl

theorem ofList_positional {a : Tree} {rest : List Tree} (ha : a.keywordName? = none) :
    ofList operator (a :: rest) =
      (fun told => { told with positional := a :: told.positional }) <$>
        ofList operator rest := by
  cases rest with
  | nil =>
    rw [ofList, ofList, ha]
    rfl
  | cons b rest =>
    rw [ofList, ha]
    rfl

theorem tells_of_ofList (h : ofList operator args = .ok told) : Tells args told := by
  induction args using args_induct generalizing told with
  | nil =>
    obtain rfl := Except.ok.inj h
    exact .nil
  | dangling a name ha =>
    rw [ofList, ha] at h
    cases h
  | keyword a b rest name ha ih =>
    rw [ofList_keyword ha] at h
    obtain ⟨told, htold, rfl⟩ := Result.map_ok h
    exact .keyword ha (ih htold)
  | positional a rest ha ih =>
    rw [ofList_positional ha] at h
    obtain ⟨told, htold, rfl⟩ := Result.map_ok h
    exact .positional ha (ih htold)

/-- Arguments that can be told apart are. -/
theorem ofList_of_tells (h : Tells args told) : ofList operator args = .ok told := by
  induction h with
  | nil => rfl
  | keyword ha _ ih =>
    rw [ofList_keyword ha, ih]
    rfl
  | positional ha _ ih =>
    rw [ofList_positional ha, ih]
    rfl

theorem tells_of_callArgs {items : List Tree} (h : (Tree.list items).callArgs = .ok told) :
    Tells items.tail told := by
  cases items <;> exact tells_of_ofList h

theorem Tells.exists_of_positional {a : Tree} {rest : List Tree} {told : CallArgs}
    (h : Tells (a :: rest) told) (ha : a.keywordName? = none) : ∃ more, Tells rest more ∧
      told = { more with positional := a :: more.positional } := by
  cases h with
  | keyword hname _ => cases hname.symm.trans ha
  | positional _ h => exact ⟨_, h, rfl⟩

/-- What is told apart are arguments. -/
theorem Tells.mem (h : Tells args told) :
    (∀ a ∈ told.positional, a ∈ args) ∧ ∀ entry ∈ told.keywords, entry.2 ∈ args := by
  induction h with
  | nil => exact ⟨nofun, nofun⟩
  | keyword ha h ih =>
    refine ⟨fun c hc => by simp [ih.1 c hc], fun entry hentry => ?_⟩
    rcases List.mem_cons.1 hentry with rfl | hentry
    · simp
    · simp [ih.2 entry hentry]
  | positional ha h ih =>
    refine ⟨fun c hc => ?_, fun entry hentry => by simp [ih.2 entry hentry]⟩
    rcases List.mem_cons.1 hc with rfl | hc
    · simp
    · simp [ih.1 c hc]

/-- Every argument is a keyword, its value, or positional. -/
theorem Tells.cases (h : Tells args told) {a : Tree} (ha : a ∈ args) :
    a.keywordName?.isSome = true ∨ a ∈ told.positional ∨ ∃ name, (name, a) ∈ told.keywords := by
  induction h with
  | nil => cases ha
  | keyword hname h ih =>
    rcases List.mem_cons.1 ha with rfl | ha
    · exact Or.inl (hname ▸ rfl)
    · rcases List.mem_cons.1 ha with rfl | ha
      · exact Or.inr (Or.inr ⟨_, List.mem_cons_self⟩)
      · exact (ih ha).imp_right (Or.imp_right fun ⟨name, hmem⟩ =>
          ⟨name, List.mem_cons_of_mem _ hmem⟩)
  | positional _ h ih =>
    rcases List.mem_cons.1 ha with rfl | ha
    · exact Or.inr (Or.inl List.mem_cons_self)
    · exact (ih ha).imp_right (Or.imp_left (List.mem_cons_of_mem _))

/-- Without keywords all arguments are positional. -/
theorem Tells.eq_positional (h : Tells args told) (hkeywords : told.keywords = []) :
    args = told.positional := by
  induction h with
  | nil => rfl
  | keyword ha h ih => cases hkeywords
  | positional ha h ih => rw [ih hkeywords]

end CallArgs

/-! ### Evaluation -/

namespace Evaluation

variable {registry : Registry} (A : Resolver σ)

/-- **The positional arguments of a call are evaluated one after the other.** -/
theorem evaluatePositional_told (h : CallArgs.Tells args told) (q : Query) :
    evaluatePositional registry A args q =
      told.positional.mapM fun a => evaluate registry A a q := by
  induction h with
  | nil => rw [evaluatePositional, List.mapM_nil]
  | @keyword a b rest name told ha h ih => rw [evaluatePositional_keyword A ha, ih]
  | @positional a rest told ha h ih => rw [evaluatePositional_positional A ha, ih, List.mapM_cons]

/-- **The keywords of a call are evaluated one after the other.** -/
theorem evaluateKeywords_told (h : CallArgs.Tells args told) (q : Query) :
    evaluateKeywords registry A args q = told.keywords.mapM fun entry => do
      return (entry.1, ← evaluate registry A entry.2 q) := by
  induction h with
  | nil => rw [evaluateKeywords, List.mapM_nil]
  | @keyword a b rest name told ha h ih =>
    rw [evaluateKeywords_keyword A ha, ih, List.mapM_cons, bind_assoc]
    simp only [pure_bind]
  | @positional a rest told ha h ih => rw [evaluateKeywords_positional A ha, ih]

variable {A}

/-- The values of positional arguments are values of them, one by one. -/
theorem forall₂_of_positional (h : CallArgs.Tells args told) {q : Query} {s s' : σ}
    {vs : List Value} (hvs : Gives (evaluatePositional .builtin A args q) s vs s') :
    List.Forall₂ (HasValue A q) told.positional vs := by
  rw [evaluatePositional_told A h] at hvs
  exact forall₂_of_gives_mapM hvs

/-- The values of keywords are values of them, one by one. -/
theorem forall₂_of_keywords (h : CallArgs.Tells args told) {q : Query} {s s' : σ}
    {entries : List (String × Value)}
    (hentries : Gives (evaluateKeywords .builtin A args q) s entries s') :
    List.Forall₂ (fun entry entry' => entry'.1 = entry.1 ∧ HasValue A q entry.2 entry'.2)
      told.keywords entries := by
  rw [evaluateKeywords_told A h] at hentries
  refine (forall₂_of_gives_mapM hentries).imp fun entry entry' hgives => ?_
  obtain ⟨t, t', hgives⟩ := hgives
  obtain ⟨v, t₁, hv, hpure⟩ := gives_bind.1 hgives
  obtain ⟨rfl, -⟩ := gives_pure.1 hpure
  exact ⟨rfl, t, t₁, hv⟩

/-- What the evaluation of a call whose operator is applied gives: the operator applied to the
values of its arguments, the keywords for the same query and the others for another. -/
theorem exists_of_gives_applied {items : List Tree} {b : Builtin} (hb : Tree.Calls items b)
    (happlied : isApplied b = true) (h : (Tree.list items).callArgs = .ok told) {q : Query}
    {s s' : σ} {v : Value} (hv : Gives (evaluate .builtin A (.list items) q) s v s') :
    ∃ entries vs c,
      List.Forall₂ (fun entry entry' => entry'.1 = entry.1 ∧ HasValue A q entry.2 entry'.2)
        told.keywords entries ∧
      List.Forall₂ (HasValue A c) told.positional vs ∧
      b.apply ⟨vs, .ofList entries⟩ q = .ok v := by
  obtain ⟨rest, rfl⟩ := list_of_calls hb
  rw [evaluate_call A hb happlied] at hv
  obtain ⟨_, _, -, hv⟩ := gives_bind.1 hv
  obtain ⟨m, s₁, hm, hv⟩ := gives_bind.1 hv
  obtain ⟨entries, s₂, hentries, hm⟩ := gives_bind.1 hm
  obtain ⟨rfl, -⟩ := gives_pure.1 hm
  obtain ⟨c, s₃, -, hv⟩ := gives_bind.1 hv
  obtain ⟨vs, s₄, hvs, hv⟩ := gives_bind.1 hv
  have htells := CallArgs.tells_of_callArgs h
  exact ⟨entries, vs, c, forall₂_of_keywords htells hentries, forall₂_of_positional htells hvs,
    (gives_settle.1 hv).1⟩

end Evaluation

/-! ### Inference -/

namespace Typing

variable {registry : Registry} {s : Signature}

/-- **What inference says of the arguments of a call**: there are as many as there may be, each has
a type, and the type is admitted in its place. -/
structure ArgsAdmitted (registry : Registry) (s : Signature) (told : CallArgs)
    (types : List TypeTag) : Prop where
  arity : s.arity.admits told.positional.length = true
  inferred : List.Forall₂ (fun a type => infer registry a = .ok type) told.positional types
  positional : ∀ position type, types[position]? = some type →
    TypeTag.anyAccepts (s.expectedAt position) type = true
  keywords : ∀ name a, (name, a) ∈ told.keywords → ∃ expected type,
    s.keyword? name = some expected ∧ infer registry a = .ok type ∧
      TypeTag.anyAccepts expected type = true

theorem inferPositional_keyword {a b : Tree} {name : String} (h : a.keywordName? = some name)
    (rest : List Tree) (position : Nat) :
    inferPositional registry operator s position (a :: b :: rest) =
      inferPositional registry operator s position rest := by
  rw [inferPositional, h]

theorem inferPositional_positional {a : Tree} (h : a.keywordName? = none) (rest : List Tree)
    (position : Nat) :
    inferPositional registry operator s position (a :: rest) = (do
      let actual ← infer registry a
      checkPositional operator s position actual
      return actual :: (← inferPositional registry operator s (position + 1) rest)) := by
  cases rest with
  | nil =>
    rw [inferPositional, inferPositional, h]
    rfl
  | cons b rest => rw [inferPositional, h]

theorem inferKeywords_keyword {a b : Tree} {name : String} (h : a.keywordName? = some name)
    (rest : List Tree) :
    inferKeywords registry operator s (a :: b :: rest) =
      (match s.keyword? name with
      | none => .error (.unknownKeyword operator name)
      | some expected => do
        checkKeyword operator name expected (← infer registry b)
        inferKeywords registry operator s rest) := by
  rw [inferKeywords]
  generalize a.keywordName? = found at h ⊢
  subst h
  rfl

theorem inferKeywords_positional {a : Tree} (h : a.keywordName? = none) (rest : List Tree) :
    inferKeywords registry operator s (a :: rest) = inferKeywords registry operator s rest := by
  cases rest with
  | nil => rw [inferKeywords, inferKeywords]
  | cons b rest => rw [inferKeywords, h]

theorem anyAccepts_of_checkPositional {position : Nat} {actual : TypeTag}
    (h : checkPositional operator s position actual = .ok ()) :
    TypeTag.anyAccepts (s.expectedAt position) actual = true := by
  unfold checkPositional at h
  dsimp only at h
  split at h
  · assumption
  · cases h

theorem anyAccepts_of_checkKeyword {keyword : String} {expected : List TypeTag} {actual : TypeTag}
    (h : checkKeyword operator keyword expected actual = .ok ()) :
    TypeTag.anyAccepts expected actual = true := by
  unfold checkKeyword at h
  split at h
  · assumption
  · cases h

/-- The positional arguments of a call that was checked from a position on. -/
theorem positional_of_infer (h : CallArgs.Tells args told) :
    ∀ {position : Nat} {types : List TypeTag},
      inferPositional registry operator s position args = .ok types →
      List.Forall₂ (fun a type => infer registry a = .ok type) told.positional types ∧
        ∀ i type, types[i]? = some type →
          TypeTag.anyAccepts (s.expectedAt (position + i)) type = true := by
  induction h with
  | nil =>
    intro position types hinfer
    rw [inferPositional] at hinfer
    obtain rfl := Except.ok.inj hinfer
    exact ⟨.nil, fun i type hi => by cases hi⟩
  | @keyword a b rest name told ha h ih =>
    intro position types hinfer
    rw [inferPositional_keyword ha] at hinfer
    exact ih hinfer
  | @positional a rest told ha h ih =>
    intro position types hinfer
    rw [inferPositional_positional ha] at hinfer
    obtain ⟨type, htype, hinfer⟩ := Result.bind_ok hinfer
    obtain ⟨_, hcheck, hinfer⟩ := Result.bind_ok hinfer
    obtain ⟨types, htypes, hinfer⟩ := Result.bind_ok hinfer
    obtain rfl := Except.ok.inj hinfer
    obtain ⟨hall, hplaces⟩ := ih htypes
    refine ⟨.cons htype hall, fun i type' hi => ?_⟩
    cases i with
    | zero =>
      obtain rfl := Option.some.inj hi
      exact anyAccepts_of_checkPositional hcheck
    | succ i =>
      have hplace := hplaces i type' hi
      rwa [Nat.add_assoc, Nat.add_comm 1 i] at hplace

/-- The keywords of a call that was checked. -/
theorem keywords_of_infer (h : CallArgs.Tells args told) :
    inferKeywords registry operator s args = .ok () →
      ∀ name a, (name, a) ∈ told.keywords → ∃ expected type,
        s.keyword? name = some expected ∧ infer registry a = .ok type ∧
          TypeTag.anyAccepts expected type = true := by
  induction h with
  | nil => exact fun _ => nofun
  | @keyword a b rest name told ha h ih =>
    intro hinfer name' a' hmem
    rw [inferKeywords_keyword ha] at hinfer
    split at hinfer
    · cases hinfer
    · rename_i expected hexpected
      obtain ⟨type, htype, hinfer⟩ := Result.bind_ok hinfer
      obtain ⟨_, hcheck, hinfer⟩ := Result.bind_ok hinfer
      rcases List.mem_cons.1 hmem with heq | hmem
      · obtain ⟨rfl, rfl⟩ := Prod.mk.inj heq
        exact ⟨expected, type, hexpected, htype, anyAccepts_of_checkKeyword hcheck⟩
      · exact ih hinfer name' a' hmem
  | @positional a rest told ha h ih =>
    intro hinfer
    rw [inferKeywords_positional ha] at hinfer
    exact ih hinfer

/-- What is inferred for a list, from its operator and its arguments. -/
theorem infer_list (registry : Registry) (items : List Tree) :
    infer registry (.list items) =
      match registry.operatorOf? (.list items) with
      | none => .ok .any
      | some op => do
        let symbol := (Tree.headSymbol? items).getD ""
        let told ← (CallArgs.ofList symbol items.tail).mapError (ofTreeError symbol)
        checkArity symbol op.signature told.positional.length
        let types ← inferPositional registry symbol op.signature 0 items.tail
        checkScalarOperand symbol op.signature types
        inferKeywords registry symbol op.signature items.tail
        return returned op.signature types := by
  cases items with
  | nil => rfl
  | cons head args =>
    rw [infer]
    cases registry.operatorOf? (.list (head :: args)) <;> rfl

/-- **A call that has a type has arguments whose types are admitted**, and its type is what its
operator returns for theirs. -/
theorem argsAdmitted_of_infer {items : List Tree} {b : Builtin} (hb : Tree.Calls items b)
    {type : TypeTag} (h : infer .builtin (.list items) = .ok type) :
    ∃ told types, (Tree.list items).callArgs = .ok told ∧
      ArgsAdmitted .builtin b.signature told types ∧ type = returned b.signature types := by
  rw [infer_list, hb.operatorOf?] at h
  obtain ⟨told, htold, h⟩ := Result.bind_ok h
  obtain ⟨_, harity, h⟩ := Result.bind_ok h
  obtain ⟨types, htypes, h⟩ := Result.bind_ok h
  obtain ⟨_, -, h⟩ := Result.bind_ok h
  obtain ⟨_, hkeywords, h⟩ := Result.bind_ok h
  obtain rfl := Except.ok.inj h
  have hcall := Result.mapError_ok htold
  have htells := CallArgs.tells_of_callArgs hcall
  obtain ⟨hall, hplaces⟩ := positional_of_infer htells htypes
  refine ⟨told, types, hcall, ⟨?_, hall, fun i type hi => ?_, keywords_of_infer htells hkeywords⟩,
    rfl⟩
  · unfold checkArity at harity
    split at harity
    · assumption
    · cases harity
  · have hplace := hplaces i type hi
    rwa [Nat.zero_add] at hplace

/-- **The parts of a call that has a type have types.** -/
theorem exists_infer_of_item {items : List Tree} {b : Builtin} (hb : Tree.Calls items b)
    {type : TypeTag} (h : infer .builtin (.list items) = .ok type) {a : Tree} (ha : a ∈ items) :
    ∃ u, infer .builtin a = .ok u := by
  have hatom (l : Literal) : ∃ u, infer .builtin (.atom l) = .ok u := ⟨l.type, by rw [infer]⟩
  obtain ⟨told, types, htold, hargs, -⟩ := argsAdmitted_of_infer hb h
  obtain ⟨args, rfl⟩ := list_of_calls hb
  rcases List.mem_cons.1 ha with rfl | ha
  · exact hatom _
  · rcases (CallArgs.tells_of_callArgs htold).cases ha with hkeyword | hpositional | ⟨name, hmem⟩
    · obtain ⟨l, rfl⟩ := Tree.keyword_isAtom hkeyword
      exact hatom l
    · obtain ⟨u, -, hu⟩ := Result.exists_of_mem_left hargs.inferred hpositional
      exact ⟨u, hu⟩
    · obtain ⟨expected, u, -, hu, -⟩ := hargs.keywords name a hmem
      exact ⟨u, hu⟩

/-- All nodes of a formula that has a type have types, if its operators are known. -/
theorem exists_infer_of_node {t u : Tree} (hknown : t.Everywhere Tree.IsKnownNode) {type : TypeTag}
    (h : infer .builtin t = .ok type) (hu : u ∈ t.nodes) : ∃ type, infer .builtin u = .ok type := by
  induction t using Tree.inductionOn generalizing type with
  | atom l => exact List.mem_singleton.1 hu ▸ ⟨type, h⟩
  | list items ih =>
    obtain ⟨⟨b, hb⟩, hitems⟩ := Tree.everywhere_list.1 hknown
    rcases Tree.mem_nodes_list.1 hu with rfl | ⟨a, ha, hua⟩
    · exact ⟨type, h⟩
    · obtain ⟨v, hv⟩ := exists_infer_of_item hb h ha
      exact ih a ha (hitems a ha) hv hua

/-- If an operator has no keywords, all arguments of a call that has a type are positional. -/
theorem ArgsAdmitted.eq_positional {types : List TypeTag} {items : List Tree}
    (h : ArgsAdmitted registry s told types) (hkeywords : s.keywords = [])
    (htold : (Tree.list items).callArgs = .ok told) : items.tail = told.positional := by
  refine (CallArgs.tells_of_callArgs htold).eq_positional
    (List.eq_nil_iff_forall_not_mem.2 fun entry hentry => ?_)
  obtain ⟨expected, -, hexpected, -⟩ := h.keywords entry.1 entry.2 hentry
  rw [Signature.keyword?, hkeywords] at hexpected
  cases hexpected

/-- What has no known operator at its head has the type `any`. -/
theorem infer_list_of_unknown {items : List Tree}
    (h : registry.operatorOf? (.list items) = none) : infer registry (.list items) = .ok .any := by
  rw [infer_list, h]

theorem infer_of_unknown {items : List Tree}
    (hunknown : Registry.builtin.operatorOf? (.list items) = none) {type : TypeTag}
    (h : infer .builtin (.list items) = .ok type) : type = .any :=
  Except.ok.inj (h.symm.trans (infer_list_of_unknown hunknown))

end Typing

/-! ### Calls that have a type and a value -/

/-- Whether a resolver leaves autotrophic calls to their operator. -/
def Resolver.LeavesAutotrophic (A : Resolver σ) : Prop :=
  ∀ call q s v s', ¬ Gives (A.autotrophic call q) s (some v) s'

theorem Resolver.leavesAutotrophic_of_eq {A : Resolver σ} (h : A.autotrophic = noAutotrophic) :
    A.LeavesAutotrophic := by
  intro call q s v s' hv
  rw [h] at hv
  cases (gives_pure.1 hv).1

namespace Evaluation

open SeriesAlgebra.Tree

variable {A : Resolver σ} {items : List Tree} {b : Builtin} {q : Query} {v : Value}

/-- What has a value is a literal or a call of a built-in operator. -/
theorem calls_of_gives {s s' : σ} (h : Gives (evaluate .builtin A (list items) q) s v s') :
    ∃ b, Calls items b := by
  cases items with
  | nil =>
    rw [evaluate] at h
    exact (gives_throw.1 h).elim
  | cons head args =>
    cases hop : Registry.builtin.operatorOf? (list (head :: args)) with
    | none =>
      rw [evaluate] at h
      simp only [hop] at h
      exact (gives_throw.1 h).elim
    | some op =>
      obtain ⟨b, hb, -⟩ := calls_of_operatorOf? hop
      exact ⟨b, hb⟩

/-- A group leaf is a question to the resolver. -/
theorem evaluate_group (h : Calls items .group) (q : Query) :
    evaluate .builtin A (list items) q =
      match (list items).firstName? Builtin.group.name with
      | none => throw (.invalidArgument Builtin.group.name .noGroupName)
      | some name => do return .table (← A.group name q) := by
  obtain ⟨args, rfl⟩ := list_of_calls h
  rw [evaluate, h.operatorOf?]
  rfl

/-- The only positional argument of a series leaf that has a type is its name. -/
theorem positional_of_leaf {name : String} (hname : leafName? items = some name)
    (htold : (list items).callArgs = .ok told) {types : List TypeTag}
    (hargs : Typing.ArgsAdmitted .builtin Builtin.series.signature told types) :
    told.positional = [str name] := by
  have htells := CallArgs.tells_of_callArgs htold
  have hlength : told.positional.length = 1 := beq_iff_eq.1 hargs.arity
  rw [leaf_eq hname, List.tail_cons] at htells
  obtain ⟨more, -, rfl⟩ := htells.exists_of_positional rfl
  exact congrArg (str name :: ·) (List.length_eq_zero_iff.1 (Nat.succ.inj hlength))

/-- The only argument of a group leaf that has a type is its name. -/
theorem args_of_group {name : String} (hname : (list items).firstName? Builtin.group.name = some name)
    (htold : (list items).callArgs = .ok told) {types : List TypeTag}
    (hargs : Typing.ArgsAdmitted .builtin Builtin.group.signature told types) :
    items.tail = [str name] := by
  have hlength : told.positional.length = 1 := beq_iff_eq.1 hargs.arity
  rw [← hargs.eq_positional rfl htold] at hlength
  obtain ⟨a, ha⟩ := List.length_eq_one_iff.1 hlength
  unfold firstName? at hname
  split at hname
  · obtain ⟨a', ha', hstr⟩ := Option.bind_eq_some_iff.1 hname
    have hargs' : (list items).args = items.tail := by cases items <;> rfl
    rw [hargs', ha] at ha'
    obtain rfl := Option.some.inj ha'
    cases a with
    | list _ => cases hstr
    | atom l =>
      cases l <;> cases hstr
      exact ha
  · cases hname

/-- **The arguments of a call that has a type and a value have types and values too**, but for
literals. A constant call need not look at its arguments if the resolver answers it. -/
theorem values_of_call (hA : b = .constant → A.LeavesAutotrophic)
    (hb : Calls items b) {type : TypeTag} (htype : Typing.infer .builtin (list items) = .ok type)
    (h : HasValue A q (list items) v) : ∀ a ∈ items, (∃ l, a = atom l) ∨
      (∃ type, Typing.infer .builtin a = .ok type) ∧ ∃ c w, HasValue A c a w := by
  obtain ⟨told, types, htold, hargs, -⟩ := Typing.argsAdmitted_of_infer hb htype
  have htells := CallArgs.tells_of_callArgs htold
  have hvalues : (∀ a ∈ told.positional, (∃ l, a = atom l) ∨ ∃ c w, HasValue A c a w) ∧
      ∀ entry ∈ told.keywords, ∃ w, HasValue A q entry.2 w := by
    obtain ⟨s, s', h⟩ := h
    have hall {entries : List (String × Value)} {s₁ s₂ : σ}
        (hentries : Gives (evaluateKeywords .builtin A items.tail q) s₁ entries s₂) :
        ∀ entry ∈ told.keywords, ∃ w, HasValue A q entry.2 w := by
      intro entry hentry
      obtain ⟨entry', -, -, hw⟩ :=
        Result.exists_of_mem_left (forall₂_of_keywords htells hentries) hentry
      exact ⟨_, hw⟩
    cases happlied : isApplied b with
    | true =>
      obtain ⟨entries, vs, c, hentries, hvs, -⟩ := exists_of_gives_applied hb happlied htold h
      refine ⟨fun a ha => Or.inr ?_, fun entry hentry => ?_⟩
      · obtain ⟨w, -, hw⟩ := Result.exists_of_mem_left hvs ha
        exact ⟨c, w, hw⟩
      · obtain ⟨entry', -, -, hw⟩ := Result.exists_of_mem_left hentries hentry
        exact ⟨_, hw⟩
    | false =>
      cases b with
      | series =>
        cases hname : leafName? items with
        | none =>
          rw [evaluate_nameless A hb hname] at h
          exact (gives_throw.1 h).elim
        | some name =>
          rw [evaluate_leaf A hb hname] at h
          obtain ⟨_, _, -, h⟩ := gives_bind.1 h
          obtain ⟨entries, _, hentries, -⟩ := gives_bind.1 h
          refine ⟨fun a ha => Or.inl ⟨.str name, ?_⟩, hall hentries⟩
          rw [positional_of_leaf hname htold hargs] at ha
          exact List.mem_singleton.1 ha
      | group =>
        rw [evaluate_group hb] at h
        cases hname : (list items).firstName? Builtin.group.name with
        | none =>
          simp only [hname] at h
          exact (gives_throw.1 h).elim
        | some name =>
          have htail := args_of_group hname htold hargs
          refine ⟨fun a ha => Or.inl ⟨.str name, ?_⟩, fun entry hentry => ?_⟩
          · rw [← hargs.eq_positional rfl htold, htail] at ha
            exact List.mem_singleton.1 ha
          · obtain ⟨expected, -, hexpected, -⟩ := hargs.keywords entry.1 entry.2 hentry
            cases hexpected
      | constant =>
        rw [evaluate_autotrophic A hb] at h
        obtain ⟨known, _, hknown, h⟩ := gives_bind.1 h
        cases known with
        | some w => exact absurd hknown (hA rfl _ _ _ _ _)
        | none =>
          obtain ⟨_, _, -, h⟩ := gives_bind.1 h
          obtain ⟨m, _, hm, h⟩ := gives_bind.1 h
          obtain ⟨entries, _, hentries, -⟩ := gives_bind.1 hm
          obtain ⟨vs, _, hvs, -⟩ := gives_bind.1 h
          refine ⟨fun a ha => Or.inr ?_, hall hentries⟩
          obtain ⟨w, -, hw⟩ := Result.exists_of_mem_left (forall₂_of_positional htells hvs) ha
          exact ⟨q, w, hw⟩
      | _ => cases happlied
  obtain ⟨args, rfl⟩ := list_of_calls hb
  intro a ha
  rcases List.mem_cons.1 ha with rfl | ha
  · exact Or.inl ⟨_, rfl⟩
  · rcases htells.cases ha with hkeyword | hpositional | ⟨name, hkeyword⟩
    · exact Or.inl (keyword_isAtom hkeyword)
    · obtain ⟨type, -, htype⟩ := Result.exists_of_mem_left hargs.inferred hpositional
      exact (hvalues.1 a hpositional).imp_right fun hvalue => ⟨⟨type, htype⟩, hvalue⟩
    · obtain ⟨expected, type, -, htype, -⟩ := hargs.keywords name a hkeyword
      exact Or.inr ⟨⟨type, htype⟩, q, hvalues.2 _ hkeyword⟩

/-- **All parts of a formula that has a type and a value have types and values too**, but for
literals. -/
theorem value_of_node (hA : A.LeavesAutotrophic) {t u : Tree} {type : TypeTag}
    (htype : Typing.infer .builtin t = .ok type) (h : HasValue A q t v) (hu : u ∈ t.nodes) :
    (∃ l, u = atom l) ∨ (∃ type, Typing.infer .builtin u = .ok type) ∧ ∃ c w, HasValue A c u w := by
  induction t using inductionOn generalizing type q v with
  | atom l => exact Or.inl ⟨l, List.mem_singleton.1 hu⟩
  | list items ih =>
    rcases mem_nodes_list.1 hu with rfl | ⟨a, ha, hua⟩
    · exact Or.inr ⟨⟨type, htype⟩, q, v, h⟩
    · obtain ⟨s, s', hgives⟩ := h
      obtain ⟨b, hb⟩ := calls_of_gives hgives
      rcases values_of_call (fun _ => hA) hb htype ⟨s, s', hgives⟩ a ha with
        ⟨l, rfl⟩ | ⟨⟨type', hu⟩, c, w, hw⟩
      · exact Or.inl ⟨l, List.mem_singleton.1 hua⟩
      · exact ih a ha hu hw hua

end Evaluation

end SeriesAlgebra
