import SeriesAlgebra.Proofs.Evaluation.Arguments
import SeriesAlgebra.Proofs.Formula.Relabeling.Expansion
import SeriesAlgebra.Proofs.Formula.StopNames

/-!
# Types of formulas that are put together

Inference looks at a call only through its operator, the places and names of its arguments, and
their types. So a call may be given other arguments of the same types
(`Typing.infer_of_sameTypes`), and what a leaf may carry, a call of `options` may carry too
(`Tree.infer_withCarried`). From both follows that expansion keeps types, if the formulas that
names stand for are series (`Tree.infer_of_expand`).
-/

namespace SeriesAlgebra

open Evaluation

/-! ### Arguments of the same types -/

namespace Typing

variable {registry : Registry} {operator : String} {s : Signature} {args others : List Tree}

/-- **Whether inference takes one argument for another**: as keywords they are the same, and so is
what is inferred for them. -/
structure SameType (registry : Registry) (a b : Tree) : Prop where
  keyword : b.keywordName? = a.keywordName?
  inferred : infer registry b = infer registry a

/-- Arguments of the same types: as many are told apart as positional, or none for the same
reason. -/
theorem ofList_of_sameTypes (h : List.Forall₂ (SameType registry) args others) :
    (·.positional.length) <$> CallArgs.ofList operator others =
      (·.positional.length) <$> CallArgs.ofList operator args := by
  induction args using args_induct generalizing others with
  | nil =>
    cases h
    rfl
  | dangling a name ha =>
    cases h with
    | cons hhead htail =>
      cases htail
      rw [CallArgs.ofList, CallArgs.ofList, hhead.keyword, ha]
  | keyword a b rest name ha ih =>
    cases h with
    | cons hhead htail =>
      cases htail with
      | cons _ hrest =>
        have hlength := ih hrest
        rw [CallArgs.ofList_keyword ha, CallArgs.ofList_keyword (hhead.keyword.trans ha)]
        simp only [Functor.map_map]
        exact hlength
  | positional a rest ha ih =>
    cases h with
    | cons hhead hrest =>
      have hlength := congrArg ((· + 1) <$> ·) (ih hrest)
      rw [CallArgs.ofList_positional ha, CallArgs.ofList_positional (hhead.keyword.trans ha)]
      simp only [Functor.map_map] at hlength ⊢
      exact hlength

theorem inferPositional_of_sameTypes (h : List.Forall₂ (SameType registry) args others)
    (position : Nat) : inferPositional registry operator s position others =
      inferPositional registry operator s position args := by
  induction args using args_induct generalizing others position with
  | nil =>
    cases h
    rfl
  | dangling a name ha =>
    cases h with
    | cons hhead htail =>
      cases htail
      rw [inferPositional, inferPositional, hhead.keyword, ha]
  | keyword a b rest name ha ih =>
    cases h with
    | cons hhead htail =>
      cases htail with
      | cons _ hrest =>
        rw [inferPositional_keyword ha, inferPositional_keyword (hhead.keyword.trans ha)]
        exact ih hrest position
  | positional a rest ha ih =>
    cases h with
    | cons hhead hrest =>
      rw [inferPositional_positional ha, inferPositional_positional (hhead.keyword.trans ha),
        hhead.inferred]
      simp only [ih hrest]

theorem inferKeywords_of_sameTypes (h : List.Forall₂ (SameType registry) args others) :
    inferKeywords registry operator s others = inferKeywords registry operator s args := by
  induction args using args_induct generalizing others with
  | nil =>
    cases h
    rfl
  | dangling a name ha =>
    cases h with
    | cons hhead htail =>
      cases htail
      rw [inferKeywords, inferKeywords]
  | keyword a b rest name ha ih =>
    cases h with
    | cons hhead htail =>
      cases htail with
      | cons hvalue hrest =>
        rw [inferKeywords_keyword ha, inferKeywords_keyword (hhead.keyword.trans ha),
          hvalue.inferred]
        simp only [ih hrest]
  | positional a rest ha ih =>
    cases h with
    | cons hhead hrest =>
      rw [inferKeywords_positional ha, inferKeywords_positional (hhead.keyword.trans ha)]
      exact ih hrest

theorem operatorOf?_congr {items others : List Tree}
    (h : Tree.headSymbol? others = Tree.headSymbol? items) :
    registry.operatorOf? (.list others) = registry.operatorOf? (.list items) :=
  congrArg (Option.bind · registry.find?) h

/-- **A call with other arguments of the same types** has the type of the call, or the same is wrong
with it. -/
theorem infer_of_sameTypes {items others : List Tree}
    (hhead : Tree.headSymbol? others = Tree.headSymbol? items)
    (h : List.Forall₂ (SameType registry) items.tail others.tail) :
    infer registry (.list others) = infer registry (.list items) := by
  rw [infer_list, infer_list, operatorOf?_congr hhead]
  cases registry.operatorOf? (.list items) with
  | none => rfl
  | some op =>
    simp only [hhead, inferPositional_of_sameTypes h, inferKeywords_of_sameTypes h]
    exact Result.mapError_bind_congr (ofList_of_sameTypes h) _ fun count => do
      checkArity _ op.signature count
      let types ← inferPositional registry _ op.signature 0 items.tail
      checkScalarOperand _ op.signature types
      inferKeywords registry _ op.signature items.tail
      return returned op.signature types

/-! ### Arguments that are admitted -/

theorem checkPositional_of_accepts {position : Nat} {actual : TypeTag}
    (h : TypeTag.anyAccepts (s.expectedAt position) actual = true) :
    checkPositional operator s position actual = .ok () := if_pos h

theorem checkKeyword_of_accepts {keyword : String} {expected : List TypeTag} {actual : TypeTag}
    (h : TypeTag.anyAccepts expected actual = true) :
    checkKeyword operator keyword expected actual = .ok () := if_pos h

/-- Positional arguments whose types are admitted from a position on have these types. -/
theorem inferPositional_of_admitted {told : CallArgs} (h : CallArgs.Tells args told) :
    ∀ {position : Nat} {types : List TypeTag},
      List.Forall₂ (fun a type => infer registry a = .ok type) told.positional types →
      (∀ i type, types[i]? = some type →
        TypeTag.anyAccepts (s.expectedAt (position + i)) type = true) →
      inferPositional registry operator s position args = .ok types := by
  induction h with
  | nil =>
    intro position types hall _
    cases hall
    rfl
  | keyword ha _ ih =>
    intro position types hall hplaces
    rw [inferPositional_keyword ha]
    exact ih hall hplaces
  | positional ha _ ih =>
    intro position types hall hplaces
    cases hall with
    | @cons _ _ _ rest htype hall =>
      have hplaces' (i : Nat) (type : TypeTag) (hi : rest[i]? = some type) :
          TypeTag.anyAccepts (s.expectedAt (position + 1 + i)) type = true := by
        have hplace := hplaces (i + 1) type hi
        rwa [← Nat.add_assoc, Nat.add_right_comm] at hplace
      rw [inferPositional_positional ha, htype, ih hall hplaces']
      exact Result.bind_of_ok (checkPositional_of_accepts (hplaces 0 _ rfl)) _

/-- Keywords whose values are admitted are accepted. -/
theorem inferKeywords_of_admitted {told : CallArgs} (h : CallArgs.Tells args told)
    (hkeywords : ∀ name a, (name, a) ∈ told.keywords → ∃ expected type,
      s.keyword? name = some expected ∧ infer registry a = .ok type ∧
        TypeTag.anyAccepts expected type = true) :
    inferKeywords registry operator s args = .ok () := by
  induction h with
  | nil => rfl
  | keyword ha _ ih =>
    obtain ⟨expected, type, hexpected, htype, haccepts⟩ := hkeywords _ _ List.mem_cons_self
    have hrest := ih fun name a hmem => hkeywords name a (List.mem_cons_of_mem _ hmem)
    rw [inferKeywords_keyword ha, hexpected, htype]
    exact (Result.bind_of_ok (checkKeyword_of_accepts haccepts) _).trans hrest
  | positional ha _ ih =>
    rw [inferKeywords_positional ha]
    exact ih hkeywords

/-- **A call whose arguments are admitted has the type that its operator returns for them**, if it
needs no number. -/
theorem infer_of_argsAdmitted {items : List Tree} {b : Builtin} (hb : Tree.Calls items b)
    {told : CallArgs} (htold : CallArgs.Tells items.tail told) {types : List TypeTag}
    (h : ArgsAdmitted .builtin b.signature told types)
    (hscalar : b.signature.scalarOperand = false) :
    infer .builtin (.list items) = .ok (returned b.signature types) := by
  have hplaces : ∀ i type, types[i]? = some type →
      TypeTag.anyAccepts (b.signature.expectedAt (0 + i)) type = true := by
    simpa only [Nat.zero_add] using h.positional
  have harity {operator : String} :
      checkArity operator b.signature told.positional.length = .ok () := if_pos h.arity
  have hnumber {operator : String} : checkScalarOperand operator b.signature types = .ok () := by
    unfold checkScalarOperand
    split
    · rw [hscalar]
      rfl
    · rfl
  have hlist : CallArgs.ofList b.name items.tail = .ok told := CallArgs.ofList_of_tells htold
  have htold' := congrArg (Except.mapError (ofTreeError b.name)) hlist
  rw [infer_list, hb.operatorOf?, hb, Option.getD_some]
  refine (Result.bind_of_ok htold' _).trans ?_
  refine (Result.bind_of_ok harity _).trans ?_
  refine (Result.bind_of_ok (inferPositional_of_admitted htold h.inferred hplaces) _).trans ?_
  refine (Result.bind_of_ok hnumber _).trans ?_
  exact Result.bind_of_ok (inferKeywords_of_admitted htold h.keywords) _

end Typing

/-! ### Expansion -/

namespace Tree

open Typing

variable {resolve : String → Except TreeError (Option Tree)} {stop : List String}
  {limit levels : Nat} {path : List String} {t u body : Tree} {items : List Tree} {name : String}
  {type : TypeTag}

/-- **A leaf and an inlined series that carries what the leaf does have the same type.** -/
theorem infer_withCarried (hname : leafName? items = some name) (hlist : body.keywordName? = none)
    (htype : infer .builtin (list items) = .ok type) (hbody : infer .builtin body = .ok .series) :
    infer .builtin (withCarried items body) = .ok type := by
  obtain ⟨told, types, htold, hargs, rfl⟩ := argsAdmitted_of_infer (calls_of_leafName? hname) htype
  unfold withCarried
  split
  · exact hbody
  have hpositional := positional_of_leaf hname htold hargs
  have htells := CallArgs.tells_of_callArgs htold
  rw [leaf_eq hname, List.tail_cons] at htells
  -- What stands after the name are keywords with their values.
  obtain ⟨⟨positional, keywords⟩, hcarried, rfl⟩ := htells.exists_of_positional rfl
  obtain rfl : positional = [] := (List.cons.inj hpositional).2
  -- The call of `options` has the series for an argument, and it admits these keywords as well.
  have hadmitted : ArgsAdmitted .builtin Builtin.options.signature ⟨[body], keywords⟩ [.series] :=
    { arity := rfl
      inferred := .cons hbody .nil
      positional := by
        intro position type hplace
        cases position with
        | zero =>
          obtain rfl := Option.some.inj hplace
          rfl
        | succ position => cases hplace
      keywords := hargs.keywords }
  have hcall : Calls (symbol optionsOperator :: body :: items.drop 2) .options := rfl
  exact infer_of_argsAdmitted hcall (.positional hlist hcarried) hadmitted rfl

/-- What has the type of a series is no literal. -/
theorem isList_of_series {registry : Registry} (h : infer registry t = .ok .series) :
    t.literal? = none := by
  cases t with
  | list items => rfl
  | atom l =>
    rw [infer] at h
    cases l <;> cases h

theorem headSymbol?_congr {others : List Tree}
    (h : List.Forall₂ (fun t u => u.literal? = t.literal?) items others) :
    headSymbol? others = headSymbol? items := by
  cases h with
  | nil => rfl
  | cons htu _ => exact congrArg (Option.bind · Literal.symbol?) htu

section

variable (hresolve : ∀ name s, resolve name = .ok (some s) → infer .builtin s = .ok .series)

include hresolve

theorem literal?_expandBelow (h : expandBelow resolve stop limit levels path t = .ok u) :
    u.literal? = t.literal? := by
  rw [expandBelow_eq_mapLeaves] at h
  exact literal?_mapLeaves (fun _ _ _ hw =>
    isList_expandLeafBelow (fun name s hs => isList_of_series (hresolve name s hs)) hw) h

/-- **Expansion below a path keeps types.** -/
theorem infer_expandBelow (htype : infer .builtin t = .ok type)
    (h : expandBelow resolve stop limit levels path t = .ok u) : infer .builtin u = .ok type := by
  -- A formula is expanded at a lower level, and the items of a list at the same one.
  induction levels using Nat.strong_induction_on generalizing path t u type with
  | _ levels ihlevels =>
    induction t using inductionOn generalizing u type with
    | atom l =>
      rw [expandBelow_literal rfl] at h
      exact Except.ok.inj h ▸ htype
    | list items ih =>
      cases hname : leafName? items with
      | some name =>
        rw [expandBelow_leaf hname] at h
        rcases expandLeafBelow_ok h with - | - | ⟨-, rfl, hs, hbody⟩
        · exact htype
        · exact htype
        · have hseries := hresolve _ _ hs
          have hlist := (literal?_expandBelow hresolve hbody).trans (isList_of_series hseries)
          refine infer_withCarried hname ?_ htype (ihlevels _ (Nat.lt_succ_self _) hseries hbody)
          exact congrArg (Option.bind · Literal.keywordName?) hlist
      | none =>
        obtain ⟨others, rfl, hall⟩ := (expandBelow_list_iff hname).1 h
        have hhead := headSymbol?_congr (hall.imp fun _ _ h => literal?_expandBelow hresolve h)
        cases hop : Registry.builtin.operatorOf? (list items) with
        | none =>
          -- A call of an unknown operator has the same type whatever its arguments are.
          obtain rfl := infer_of_unknown hop htype
          exact infer_list_of_unknown ((operatorOf?_congr hhead).trans hop)
        | some op =>
          obtain ⟨b, hb, -⟩ := calls_of_operatorOf? hop
          have hsame : List.Forall₂ (SameType .builtin) items others := by
            refine Result.forall₂_imp_of_mem hall fun a ha v hv => ⟨?_, ?_⟩
            · exact congrArg (Option.bind · Literal.keywordName?) (literal?_expandBelow hresolve hv)
            · obtain ⟨type, ha'⟩ := exists_infer_of_item hb htype ha
              exact (ih a ha ha' hv).trans ha'.symm
          rw [infer_of_sameTypes hhead (forall₂_tail hsame), htype]

/-- **Expansion keeps types**, if what names stand for are series: the type of an expanded formula
is that of the formula, up to which names it may be expanded, and however deep. -/
theorem infer_of_expand (htype : infer .builtin t = .ok type)
    (h : t.expand resolve stop limit = .ok u) : infer .builtin u = .ok type :=
  infer_expandBelow hresolve htype h

end

theorem infer_of_expand_nested : infer .builtin nestedReferences = .ok .series ∧
    nestedReferences.expand (namedIn nestedFormulas) [] 16 = .ok (nestedUpTo "x") ∧
    infer .builtin (nestedUpTo "x") = .ok .series := by
  have hformulas : ∀ formula ∈ nestedFormulas, infer .builtin formula.2 = .ok .series :=
    List.forall_mem_cons.2 ⟨rfl, List.forall_mem_singleton.2 rfl⟩
  have htype : infer .builtin nestedReferences = .ok .series := rfl
  have hexpand : nestedReferences.expand (namedIn nestedFormulas) [] 16 = .ok (nestedUpTo "x") :=
    rfl
  have hresolve (name : String) (s : Tree) (hs : namedIn nestedFormulas name = .ok (some s)) :
      infer .builtin s = .ok .series :=
    of_namedIn (P := fun s => infer .builtin s = .ok .series) hformulas hs
  exact ⟨htype, hexpand, infer_of_expand hresolve htype hexpand⟩

end Tree

end SeriesAlgebra
