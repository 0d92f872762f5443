import SeriesAlgebra.Proofs.Evaluation.Rules
import SeriesAlgebra.Proofs.Operator.TypeErrors

/-!
# Formulas that have a type

What a formula that has a type is evaluated to is of the kind that its type tells, so an
operator is only given values of kinds that it admits. Two faults are not seen by types
(`Tree.isFaulty`): arithmetic of two integers has the type of integers, but a quotient or a
result out of range is a double, which will not do for a keyword that must be an integer unless
it is a whole number; and a sum of tables admits numbers, but numbers alone do not make a table.

A formula with a type and without such a fault is never found to hold a value of the wrong kind,
whoever answers for its leaves; a formula with such a fault never has a value
(`Typing.not_isTypeError_of_check`).
-/

namespace SeriesAlgebra

open Evaluation SeriesAlgebra.Tree

variable {σ α β : Type}

/-! ### Readings -/

namespace Reading

/-- Whether a reading that fails does so for another reason than a value of the wrong kind. -/
def IsSafe (x : Reading σ α) : Prop := ∀ s e s', x.run s = (.error e, s') → e.isTypeError = false

theorem isSafe_pure (a : α) : IsSafe (pure a : Reading σ α) := failsOnly_pure a

theorem isSafe_throw {e : EngineError} (h : e.isTypeError = false) :
    IsSafe (throw e : Reading σ α) := failsOnly_throw h

theorem isSafe_settle {x : Except EngineError α} (h : Result.IsSafe x) :
    IsSafe (settle x : Reading σ α) := failsOnly_settle h

theorem isSafe_bind {x : Reading σ α} {f : α → Reading σ β} (hx : IsSafe x)
    (hf : ∀ a s s', Gives x s a s' → IsSafe (f a)) : IsSafe (x >>= f) := failsOnly_bind hx hf

theorem isSafe_mapM {f : α → Reading σ β} {as : List α} (h : ∀ a ∈ as, IsSafe (f a)) :
    IsSafe (as.mapM f) := failsOnly_mapM h

theorem isSafe_of_gives {x : Reading σ α} (h : ∀ s, ∃ a s', Gives x s a s') : IsSafe x :=
  failsOnly_of_gives h

end Reading

open Reading

/-- **Whether a resolver does not go wrong itself**: it finds no value of the wrong kind, and if it
answers an autotrophic call, then with a series. A resolver that answers whatever it is asked for
is one. -/
structure Resolver.IsSafe (A : Resolver σ) : Prop where
  series : ∀ name q, Reading.IsSafe (A.series name q)
  group : ∀ name q, Reading.IsSafe (A.group name q)
  autotrophic : ∀ call q, Reading.IsSafe (A.autotrophic call q)
  answersSeries : A.AnswersSeries

/-! ### Faults that types do not tell -/

namespace Tree

/-- Whether the type of a formula is that of a number. -/
def isNumber (t : Tree) : Bool := (Typing.infer .builtin t).toOption.any (·.isNumeric)

/-- Whether a formula is a scalar that does not count as an integer. -/
def isFraction (t : Tree) : Bool := (scalarValue t).toOption.any fun v => !v.isWhole

/-- **Whether a call has a fault that types do not tell**: a keyword that must be an integer is
given none, or all operands of a sum of tables are numbers. -/
def isFaulty (t : Tree) : Bool :=
  match Registry.builtin.operatorOf? t, t.callArgs with
  | some (.builtin b), .ok told =>
    (b.signature.keywords.any fun (name, expected) =>
      expected == [.int] && ((OrderedMap.ofList told.keywords).find? name).any isFraction) ||
    b == .groupAdd && told.positional.all isNumber
  | _, _ => false

theorem isFaulty_iff {items : List Tree} {b : Builtin} {told : CallArgs} (hb : Calls items b)
    (htold : (list items).callArgs = .ok told) : (list items).isFaulty = true ↔
      (∃ name a, (name, [.int]) ∈ b.signature.keywords ∧
        (OrderedMap.ofList told.keywords).find? name = some a ∧ a.isFraction = true) ∨
      b = .groupAdd ∧ ∀ a ∈ told.positional, a.isNumber = true := by
  rw [isFaulty, hb.operatorOf?, htold]
  simp [Option.any_eq_true]

theorem isNumber_of_infer {t : Tree} {type : TypeTag} (h : Typing.infer .builtin t = .ok type) :
    t.isNumber = type.isNumeric := by
  rw [isNumber, h]
  rfl

theorem isFraction_of_value {t : Tree} {v : Value} (h : scalarValue t = .ok v) :
    t.isFraction = !v.isWhole := by
  rw [isFraction, h]
  rfl

theorem isNumeric_of_broadcast {t u : TypeTag}
    (hoperand : ∀ v ∈ [t, u], TypeTag.anyAccepts Builtin.operand v = true)
    (h : (TypeTag.broadcast [t, u]).isNumeric = true) :
    t.isNumeric = true ∧ u.isNumeric = true := by
  have ht := hoperand t (by simp)
  have hu := hoperand u (by simp)
  cases t <;> cases u <;> first
    | exact ⟨rfl, rfl⟩
    | exact absurd ht (by decide)
    | exact absurd hu (by decide)
    | cases h

/-- Numbers are scalars. -/
theorem isScalar_of_isNumber {t : Tree} (h : t.isNumber = true) : t.IsScalar := by
  induction t using inductionOn with
  | atom l => exact everywhere_atom.2 trivial
  | list items ih =>
    obtain ⟨type, htype, hnumeric⟩ := Result.exists_ok_any h
    cases hop : Registry.builtin.operatorOf? (list items) with
    | none =>
      rw [Typing.infer_of_unknown hop htype] at hnumeric
      cases hnumeric
    | some op =>
      obtain ⟨b, hb, rfl⟩ := calls_of_operatorOf? hop
      -- No other operator returns a number, and the operands of arithmetic that does are numbers.
      have harithmetic : b.isArithmetic = true := by
        obtain ⟨told, types, -, -, rfl⟩ := Typing.argsAdmitted_of_infer hb htype
        cases b <;> first | rfl | cases hnumeric
      obtain ⟨x, y, t, u, htail, hx, hy, hoperand, rfl⟩ :=
        Typing.operands_of_infer hb harithmetic htype
      obtain ⟨ht, hu⟩ := isNumeric_of_broadcast hoperand hnumeric
      obtain ⟨args, rfl⟩ := list_of_calls hb
      rw [List.tail_cons] at htail
      subst htail
      refine everywhere_list.2 ⟨⟨b, hb, by rw [Builtin.isScalar, harithmetic]; rfl⟩, ?_⟩
      intro a ha
      simp only [List.mem_cons, List.not_mem_nil, or_false] at ha
      rcases ha with rfl | rfl | rfl
      · exact everywhere_atom.2 trivial
      · exact ih _ (by simp) ((isNumber_of_infer hx).trans ht)
      · exact ih _ (by simp) ((isNumber_of_infer hy).trans hu)

end Tree

/-! ### Arguments of the kinds that are admitted -/

namespace Typing

theorem any_not_mem_admitted (b : Builtin) : TypeTag.any ∉ admitted b.signature := by
  cases b <;> decide

variable {A : Resolver σ} {items : List Tree} {b : Builtin} {told : CallArgs}
  {types : List TypeTag} {q : Query}

/-- A keyword that must be an integer is a scalar, so its value is the same for every resolver. -/
theorem scalarValue_of_int (hargs : ArgsAdmitted .builtin b.signature told types) {name : String}
    (hname : (name, [.int]) ∈ b.signature.keywords) {a : Tree} (ha : (name, a) ∈ told.keywords)
    {v : Value} (hvalue : HasValue A q a v) : scalarValue a = .ok v := by
  obtain ⟨expected, type, hexpected, htype, haccepts⟩ := hargs.keywords name a ha
  obtain rfl : expected = [.int] := by
    rcases Builtin.cases_of_int hname with ⟨rfl | rfl, rfl⟩ | ⟨rfl, rfl⟩ <;>
      exact (Option.some.inj hexpected).symm
  have hint : type = .int := by
    cases type <;> first | rfl | exact absurd hvalue (not_hasValue_any htype) | cases haccepts
  obtain ⟨s, s', hgives⟩ := hvalue
  rw [evaluate_scalar A (isScalar_of_isNumber (by rw [isNumber_of_infer htype, hint]; rfl))] at hgives
  exact (gives_settle.1 hgives).1

/-- **Keywords of a call that has a type and no fault** are of the kinds that are admitted. -/
theorem admitsKeywords_of_values (hA : A.AnswersSeries) (hb : Calls items b)
    (htold : (list items).callArgs = .ok told)
    (hargs : ArgsAdmitted .builtin b.signature told types) (hfaulty : (list items).isFaulty = false)
    {entries : List (String × Value)}
    (hentries : List.Forall₂ (fun entry entry' => entry'.1 = entry.1 ∧
      HasValue A q entry.2 entry'.2) told.keywords entries) :
    b.AdmitsKeywords (.ofList entries) := by
  intro name v hv
  have hrel := OrderedMap.rel_find?_ofList hentries name
  rw [hv] at hrel
  obtain ⟨a, ha, hvalue⟩ : ∃ a, (OrderedMap.ofList told.keywords).find? name = some a ∧
      HasValue A q a v := by
    generalize (OrderedMap.ofList told.keywords).find? name = found at hrel
    cases hrel with
    | some h => exact ⟨_, rfl, h⟩
  have hmem := OrderedMap.mem_ofList (OrderedMap.mem_of_lookup ha)
  obtain ⟨expected, type, hexpected, htype, haccepts⟩ := hargs.keywords name a hmem
  have hfits := fits_of_infer hA htype hvalue
  refine ⟨expected, hexpected, hfits.some (fun hany => any_not_mem_admitted b
    (mem_admitted_of_keyword? hexpected hany)) haccepts, ?_⟩
  rintro rfl
  -- The type allows a double in the place of an integer, so this is where the fault would be.
  have hkeyword := OrderedMap.mem_of_lookup hexpected
  have hscalar := isFraction_of_value (scalarValue_of_int hargs hkeyword hmem hvalue)
  cases hwhole : v.isWhole with
  | true => rfl
  | false =>
    rw [hwhole] at hscalar
    rw [(isFaulty_iff hb htold).2 (Or.inl ⟨name, a, hkeyword, ha, hscalar⟩)] at hfaulty
    cases hfaulty

/-- **Arguments of a call that has a type and no fault** are of the kinds that are admitted. -/
theorem admits_of_values (hA : A.AnswersSeries) (hb : Calls items b)
    (htold : (list items).callArgs = .ok told)
    (hargs : ArgsAdmitted .builtin b.signature told types) (hfaulty : (list items).isFaulty = false)
    {keywords : OrderedMap String Value} (hkeywords : b.AdmitsKeywords keywords)
    {vs : List Value} (hvs : List.Forall₂ (HasValue A q) told.positional vs) :
    b.Admits ⟨vs, keywords⟩ where
  positional := by
    intro position v hv
    have hfits : List.Forall₂ (fun v type => v.Fits type) vs types :=
      Result.forall₂_comp hvs.flip hargs.inferred fun v _ a _ type hvalue htype =>
        fits_of_infer hA htype hvalue
    obtain ⟨hposition, rfl⟩ := List.getElem?_eq_some_iff.1 hv
    have htype := List.getElem?_eq_getElem (hfits.length_eq ▸ hposition)
    have hvalue := hfits.get hposition (hfits.length_eq ▸ hposition)
    exact Value.Fits.some hvalue
      (fun hany => any_not_mem_admitted b (mem_admitted_of_expectedAt hany))
      (hargs.positional position _ htype)
  keywords := hkeywords
  operand := by
    rintro rfl
    obtain ⟨a, ha, hnumber⟩ : ∃ a ∈ told.positional, ¬ a.isNumber = true := by
      by_contra hnone
      push Not at hnone
      rw [(isFaulty_iff hb htold).2 (Or.inr ⟨rfl, hnone⟩)] at hfaulty
      cases hfaulty
    obtain ⟨type, hmem, htype⟩ := Result.exists_of_mem_left hargs.inferred ha
    obtain ⟨v, hv, hvalue⟩ := Result.exists_of_mem_left hvs ha
    obtain ⟨position, hposition⟩ := List.getElem?_of_mem hmem
    have haccepts := hargs.positional position type hposition
    have hexpected : Builtin.groupAdd.signature.expectedAt position =
        [.table, .series, .number] := by cases position <;> rfl
    rw [hexpected] at haccepts
    rw [isNumber_of_infer htype] at hnumber
    have hrank : type.rank ≠ 0 ∧ type.isNumeric = false := by
      cases type <;> first
        | exact ⟨by decide, rfl⟩
        | exact absurd rfl hnumber
        | exact absurd hvalue (not_hasValue_any htype)
        | cases haccepts
    exact ⟨v, hv, by rw [Value.type_of_fits (fits_of_infer hA htype hvalue) hrank.2]; exact hrank.1⟩

end Typing

/-! ### Formulas without faults -/

namespace Evaluation

variable {A : Resolver σ} {items : List Tree} {b : Builtin} {told : CallArgs}
  {types : List TypeTag}

/-- A call goes wrong only if one of its arguments does, or if it has a fault itself. -/
theorem isSafe_call (hA : A.IsSafe) (hb : Calls items b) (htold : (list items).callArgs = .ok told)
    (hargs : Typing.ArgsAdmitted .builtin b.signature told types)
    (hfaulty : (list items).isFaulty = false)
    (hsafe : ∀ a ∈ items, (∃ type, Typing.infer .builtin a = .ok type) →
      ∀ q, Reading.IsSafe (evaluate .builtin A a q)) (q : Query) :
    Reading.IsSafe (evaluate .builtin A (list items) q) := by
  have htells := CallArgs.tells_of_callArgs htold
  have hitem {a : Tree} (ha : a ∈ items.tail) : a ∈ items := List.mem_of_mem_tail ha
  have hchecked : Reading.IsSafe (settle (checked (list items)) : Reading σ Unit) := by
    rw [checked, htold]
    exact isSafe_pure ()
  have hkeywords (q : Query) :
      Reading.IsSafe (evaluateKeywords .builtin A items.tail q) := by
    rw [evaluateKeywords_told A htells]
    refine isSafe_mapM fun entry hentry => isSafe_bind ?_ fun v _ _ _ => isSafe_pure _
    obtain ⟨expected, type, -, htype, -⟩ := hargs.keywords entry.1 entry.2 hentry
    exact hsafe _ (hitem (htells.mem.2 entry hentry)) ⟨type, htype⟩ q
  have hpositional (q : Query) :
      Reading.IsSafe (evaluatePositional .builtin A items.tail q) := by
    rw [evaluatePositional_told A htells]
    refine isSafe_mapM fun a ha => ?_
    obtain ⟨type, -, htype⟩ := Result.exists_of_mem_left hargs.inferred ha
    exact hsafe a (hitem (htells.mem.1 a ha)) ⟨type, htype⟩ q
  have hadmits {entries : List (String × Value)} {s s' : σ}
      (hentries : Gives (evaluateKeywords .builtin A items.tail q) s entries s') :
      b.AdmitsKeywords (.ofList entries) :=
    Typing.admitsKeywords_of_values hA.answersSeries hb htold hargs hfaulty
      (forall₂_of_keywords htells hentries)
  have happly {keywords : OrderedMap String Value} (hkeywords : b.AdmitsKeywords keywords)
      {c : Query} {vs : List Value} {s s' : σ}
      (hvs : Gives (evaluatePositional .builtin A items.tail c) s vs s') :
      Reading.IsSafe (settle (b.apply ⟨vs, keywords⟩ q) : Reading σ Value) :=
    isSafe_settle (Builtin.isSafe_apply (Typing.admits_of_values hA.answersSeries hb htold hargs
      hfaulty hkeywords (forall₂_of_positional htells hvs)) q)
  -- Leaves and groups look at a name before anything else, and a constant asks the resolver first.
  cases happlied : isApplied b with
  | true =>
    rw [evaluate_call A hb happlied]
    refine isSafe_bind hchecked fun _ _ _ _ => isSafe_bind
      (isSafe_bind (hkeywords q) fun _ _ _ _ => isSafe_pure _) fun keywords _ _ hgives => ?_
    obtain ⟨entries, _, hentries, hpure⟩ := gives_bind.1 hgives
    obtain ⟨rfl, -⟩ := gives_pure.1 hpure
    refine isSafe_bind (isSafe_settle (Builtin.isSafe_childQuery (hadmits hentries) q))
      fun c _ _ _ => isSafe_bind (hpositional c) fun vs _ _ hvs => ?_
    exact happly (hadmits hentries) hvs
  | false =>
    cases b with
    | series =>
      cases hname : leafName? items with
      | none =>
        rw [evaluate_nameless A hb hname]
        exact isSafe_throw rfl
      | some name =>
        rw [evaluate_leaf A hb hname]
        refine isSafe_bind hchecked fun _ _ _ _ => isSafe_bind (hkeywords q)
          fun entries _ _ hentries => isSafe_bind (isSafe_settle ?_) fun o _ _ _ =>
            isSafe_bind (hA.series name q) fun s _ _ _ => isSafe_pure _
        exact Application.isSafe_update (hadmits hentries) rfl rfl rfl _ _
    | group =>
      rw [evaluate_group hb]
      cases hname : (list items).firstName? Builtin.group.name with
      | none => exact isSafe_throw rfl
      | some name => exact isSafe_bind (hA.group name q) fun f _ _ _ => isSafe_pure _
    | constant =>
      rw [evaluate_autotrophic A hb]
      refine isSafe_bind (hA.autotrophic _ q) fun known _ _ _ => ?_
      cases known with
      | some v => exact isSafe_pure v
      | none =>
        refine isSafe_bind hchecked fun _ _ _ _ => isSafe_bind
          (isSafe_bind (hkeywords q) fun _ _ _ _ => isSafe_pure _) fun keywords _ _ hgives => ?_
        obtain ⟨entries, _, hentries, hpure⟩ := gives_bind.1 hgives
        obtain ⟨rfl, -⟩ := gives_pure.1 hpure
        exact isSafe_bind (hpositional q) fun vs _ _ hvs => happly (hadmits hentries) hvs
    | _ => cases happlied

/-- A list without a known operator at its head is no value, but for another reason. -/
theorem isSafe_unknown (hop : Registry.builtin.operatorOf? (list items) = none) (q : Query) :
    Reading.IsSafe (evaluate .builtin A (list items) q) := by
  cases items with
  | nil =>
    rw [evaluate]
    exact isSafe_throw rfl
  | cons head args =>
    rw [evaluate]
    simp only [hop]
    refine isSafe_throw ?_
    unfold unknownHead
    split <;> rfl

/-- **A formula that has a type and no faults does not go wrong.** -/
theorem isSafe_evaluate (hA : A.IsSafe) {t : Tree} {type : TypeTag}
    (htype : Typing.infer .builtin t = .ok type) (hfaulty : ∀ u ∈ t.nodes, u.isFaulty = false)
    (q : Query) : Reading.IsSafe (evaluate .builtin A t q) := by
  induction t using inductionOn generalizing type q with
  | atom l =>
    rw [evaluate]
    exact isSafe_pure _
  | list items ih =>
    cases hop : Registry.builtin.operatorOf? (list items) with
    | none => exact isSafe_unknown hop q
    | some op =>
      obtain ⟨b, hb, rfl⟩ := calls_of_operatorOf? hop
      obtain ⟨told, types, htold, hargs, -⟩ := Typing.argsAdmitted_of_infer hb htype
      refine isSafe_call hA hb htold hargs (hfaulty _ (self_mem_nodes _)) ?_ q
      rintro a ha ⟨u, hu⟩ q
      exact ih a ha hu (fun u hu => hfaulty u (mem_nodes_list.2 (Or.inr ⟨a, ha, hu⟩))) q

/-! ### Formulas with faults -/

/-- A call with a fault has no value. -/
theorem not_hasValue_of_isFaulty (hA : A.AnswersSeries) {type : TypeTag}
    (htype : Typing.infer .builtin (list items) = .ok type) (hfaulty : (list items).isFaulty = true)
    {q : Query} {v : Value} : ¬ HasValue A q (list items) v := by
  rintro ⟨s, s', h⟩
  obtain ⟨b, hb⟩ := calls_of_gives h
  obtain ⟨told, types, htold, hargs, -⟩ := Typing.argsAdmitted_of_infer hb htype
  have htells := CallArgs.tells_of_callArgs htold
  rcases (isFaulty_iff hb htold).1 hfaulty with ⟨name, a, hname, ha, hfraction⟩ | ⟨rfl, hnumbers⟩
  · have hkeyword {entries : List (String × Value)} (hentries : List.Forall₂
        (fun entry entry' => entry'.1 = entry.1 ∧ HasValue A q entry.2 entry'.2)
        told.keywords entries) : ∃ w, (OrderedMap.ofList entries).find? name = some w ∧
          w.isWhole = false := by
      have hrel := OrderedMap.rel_find?_ofList hentries name
      rw [ha] at hrel
      generalize (OrderedMap.ofList entries).find? name = found at hrel
      cases hrel with
      | @some _ w hvalue =>
        have hmem := OrderedMap.mem_ofList (OrderedMap.mem_of_lookup ha)
        rw [isFraction_of_value (Typing.scalarValue_of_int hargs hname hmem hvalue)] at hfraction
        exact ⟨w, rfl, by simpa using hfraction⟩
    -- The keyword is read where the operator is applied, and of a leaf before it is.
    cases happlied : isApplied b with
    | true =>
      obtain ⟨entries, vs, c, hentries, -, happly⟩ := exists_of_gives_applied hb happlied htold h
      obtain ⟨w, hw, hwhole⟩ := hkeyword hentries
      rw [Builtin.isWhole_of_apply happly hname hw] at hwhole
      cases hwhole
    | false =>
      obtain ⟨rfl, rfl⟩ : b = .series ∧ name = "prune" := by
        rcases Builtin.cases_of_int hname with ⟨rfl | rfl, rfl⟩ | ⟨rfl, rfl⟩
        · exact ⟨rfl, rfl⟩
        · cases happlied
        · cases happlied
      cases hleaf : leafName? items with
      | none =>
        rw [evaluate_nameless A hb hleaf] at h
        exact (gives_throw.1 h).elim
      | some leaf =>
        rw [evaluate_leaf A hb hleaf] at h
        obtain ⟨_, _, -, h⟩ := gives_bind.1 h
        obtain ⟨entries, _, hentries, h⟩ := gives_bind.1 h
        obtain ⟨o, _, ho, -⟩ := gives_bind.1 h
        obtain ⟨w, hw, hwhole⟩ := hkeyword (forall₂_of_keywords htells hentries)
        rw [Builtin.isWhole_of_update (gives_settle.1 ho).1 hw] at hwhole
        cases hwhole
  · -- Numbers make a sum that is a number, and no table.
    obtain ⟨entries, vs, c, -, hvs, happly⟩ := exists_of_gives_applied hb rfl htold h
    have hscalars : ∀ v ∈ vs, v.type.rank = 0 := by
      intro v hv
      obtain ⟨a, ha, hvalue⟩ := Result.exists_of_mem_right hvs hv
      obtain ⟨u, hu, hnumeric⟩ := Result.exists_ok_any (hnumbers a ha)
      exact Value.rank_of_isNumeric
        (Value.isNumeric_of_fits (Typing.fits_of_infer hA hu hvalue) hnumeric)
    obtain ⟨f, hf, -⟩ := Result.bind_ok happly
    exact Application.not_groupSum hscalars hf

/-- **A formula with a fault anywhere has no value.** -/
theorem not_hasValue_of_faulty_node (hA : A.autotrophic = Resolver.noAutotrophic) {t u : Tree}
    {type : TypeTag} (htype : Typing.infer .builtin t = .ok type) (hu : u ∈ t.nodes)
    (hfaulty : u.isFaulty = true) {q : Query} {v : Value} : ¬ HasValue A q t v := by
  intro h
  rcases value_of_node (Resolver.leavesAutotrophic_of_eq hA) htype h hu with
    ⟨l, rfl⟩ | ⟨⟨type', htype'⟩, c, w, hw⟩
  · cases hfaulty
  · cases u with
    | atom l => cases hfaulty
    | list items =>
      exact not_hasValue_of_isFaulty (Resolver.answersSeries_of_noAutotrophic hA) htype' hfaulty hw

end Evaluation

/-! ### Formulas that are accepted -/

/-- A resolver that answers every series and every group, and leaves autotrophic calls to their
operator, does not go wrong itself. -/
theorem Resolver.isSafe_of_answers {A : Resolver σ}
    (hseries : ∀ name q s, ∃ r s', Gives (A.series name q) s r s')
    (hgroup : ∀ name q s, ∃ f s', Gives (A.group name q) s f s')
    (hautotrophic : A.autotrophic = noAutotrophic) : A.IsSafe where
  series name q := isSafe_of_gives (hseries name q)
  group name q := isSafe_of_gives (hgroup name q)
  autotrophic call q := by
    rw [hautotrophic]
    exact isSafe_pure none
  answersSeries := answersSeries_of_noAutotrophic hautotrophic

/-- **A formula that is accepted goes wrong only by a fault that types do not tell.** Without such a
fault no operator is given a value of the wrong kind, whoever answers for the leaves and whatever
is asked; with one the formula has no value at all. -/
theorem Typing.not_isTypeError_of_check {expected type : TypeTag} {t : Tree}
    (h : check .builtin expected t = .ok type) :
    ((∀ u ∈ t.nodes, u.isFaulty = false) → ∀ (σ : Type) (A : Resolver σ), A.IsSafe →
      ∀ q s e s', (evaluate .builtin A t q).run s = (.error e, s') → e.isTypeError = false) ∧
    ((∃ u ∈ t.nodes, u.isFaulty = true) → ∀ (σ : Type) (A : Resolver σ),
      A.autotrophic = Resolver.noAutotrophic → ∀ q s v s',
        (evaluate .builtin A t q).run s ≠ (.ok v, s')) := by
  obtain ⟨actual, hinfer, -⟩ := Result.bind_ok h
  refine ⟨fun hfaultless σ A hA q => isSafe_evaluate hA hinfer hfaultless q, ?_⟩
  rintro ⟨u, hu, hfaulty⟩ σ A hA q s v s' hv
  exact not_hasValue_of_faulty_node hA hinfer hu hfaulty ⟨s, s', hv⟩

/-- The reader for which every series and every group is empty. -/
def answeringEmpty : Resolver Unit where
  series name _ := pure (.ofPoints name [])
  group _ _ := pure .empty
  autotrophic := Resolver.noAutotrophic

theorem isSafe_answeringEmpty : answeringEmpty.IsSafe :=
  Resolver.isSafe_of_answers (fun _ _ s => ⟨_, s, rfl⟩) (fun _ _ s => ⟨_, s, rfl⟩) rfl

/-- A series rounded to as many decimals as a scalar says. -/
def roundedTo (decimals : Tree) : Tree :=
  .list [.symbol "round", .list [.symbol "series", .str "a"], .symbol "#:decimals", decimals]

/-- A table whose columns are raised by a rounded series. -/
def raisedByRounded : Tree :=
  .list [.symbol "group-add", .list [.symbol "group", .str "g"],
    roundedTo (.list [.symbol "+", .atom (.int 1), .atom (.int 2)]), .atom (.int 3)]

/-- A quotient of integers that is none. -/
def oneByZero : Tree := .list [.symbol "/", .atom (.int 1), .atom (.int 0)]

theorem not_isTypeError_raisedByRounded :
    (∀ q s e s', (evaluate .builtin answeringEmpty raisedByRounded q).run s = (.error e, s') →
      e.isTypeError = false) ∧
    ∀ q s v s', (evaluate .builtin answeringEmpty (roundedTo oneByZero) q).run s ≠
      (.ok v, s') := by
  have hraised : Typing.check .builtin .table raisedByRounded = .ok .table :=
    Result.ok_of_toOption (by decide +kernel)
  have hrounded : Typing.check .builtin .series (roundedTo oneByZero) = .ok .series :=
    Result.ok_of_toOption (by decide +kernel)
  exact ⟨(Typing.not_isTypeError_of_check hraised).1 (by decide +kernel) Unit answeringEmpty
      isSafe_answeringEmpty,
    (Typing.not_isTypeError_of_check hrounded).2 (by decide +kernel) Unit answeringEmpty rfl⟩

/-- **A quotient of integers has the type of integers, but need not be one**: a formula whose
operators are known and that is accepted as a series goes wrong for a reader that answers all. -/
theorem isTypeError_roundedTo_oneByZero :
    (roundedTo oneByZero).checkOperators .builtin = .ok () ∧
    Typing.check .builtin .series (roundedTo oneByZero) = .ok .series ∧
    answeringEmpty.IsSafe ∧
    ∃ e, (evaluate .builtin answeringEmpty (roundedTo oneByZero) .latest).run () = (.error e, ()) ∧
      e.isTypeError = true := by
  refine ⟨rfl, Result.ok_of_toOption (by decide +kernel), isSafe_answeringEmpty, ?_⟩
  obtain ⟨e, he, herror⟩ := Result.exists_error_any (p := EngineError.isTypeError)
    (x := outcome (evaluate .builtin answeringEmpty (roundedTo oneByZero) .latest))
    (by decide +kernel)
  exact ⟨e, Prod.ext he rfl, herror⟩

end SeriesAlgebra
