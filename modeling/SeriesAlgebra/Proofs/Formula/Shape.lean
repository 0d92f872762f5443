import SeriesAlgebra.Analysis.References
import SeriesAlgebra.Proofs.Formula.Codec
import SeriesAlgebra.Proofs.Order.Map
import SeriesAlgebra.Proofs.Result
import SeriesAlgebra.Typing.Inference

/-!
# The shape of formulas that give series

A formula that is accepted as a series is a list, uses built-in operators only, and no
table stands anywhere in it; what is written in a series leaf or in a call of `constant`
is scalar, that is, put together by arithmetic and `date` (`Tree.IsFormula`).

Main statement: a formula with known operators whose type fits a series has this shape
(`Tree.isFormula_of_check`). The shape is in what an evaluation meets; that the types fit
is not, because a formula that was written and read again may have a word where there was
an infinite double.
-/

namespace SeriesAlgebra

/-! ### The built-in registry -/

namespace Registry

theorem find?_name (b : Builtin) : builtin.find? b.name = some (.builtin b) := by
  cases b <;> rfl

/-- The symbols of the built-in registry are the names of the built-in operators. -/
theorem find?_builtin {symbol : String} {op : Operator} (h : builtin.find? symbol = some op) :
    ∃ b : Builtin, symbol = b.name ∧ op = .builtin b := by
  have hmem := OrderedMap.mem_ofList (OrderedMap.mem_of_find? h)
  obtain ⟨b, -, hb⟩ := List.mem_map.1 hmem
  obtain ⟨hname, hop⟩ := Prod.mk.inj hb
  exact ⟨b, hname.symm, hop.symm⟩

end Registry

/-- Whether an operator is arithmetic of two operands. -/
def Builtin.isArithmetic : Builtin → Bool
  | .plus | .times | .divide => true
  | _ => false

/-- Whether an operator makes scalars of scalars. -/
def Builtin.isScalar (b : Builtin) : Bool := b.isArithmetic || b == .date

namespace Tree

/-! ### Shapes -/

/-- Whether a list is a call of a built-in operator. -/
def Calls (items : List Tree) (b : Builtin) : Prop := headSymbol? items = some b.name

theorem Calls.operatorOf? {items : List Tree} {b : Builtin} (h : Calls items b) :
    Registry.builtin.operatorOf? (list items) = some (.builtin b) := by
  change (headSymbol? items).bind _ = _
  rw [h]
  exact Registry.find?_name b

theorem calls_of_operatorOf? {items : List Tree} {op : Operator}
    (h : Registry.builtin.operatorOf? (list items) = some op) :
    ∃ b, Calls items b ∧ op = .builtin b := by
  obtain ⟨symbol, hsymbol, hfind⟩ := Option.bind_eq_some_iff.1 h
  obtain ⟨b, rfl, hop⟩ := Registry.find?_builtin hfind
  exact ⟨b, hsymbol, hop⟩

theorem name_injective {b c : Builtin} (h : b.name = c.name) : b = c := by
  have hb := Registry.find?_name b
  rw [h, Registry.find?_name c] at hb
  exact (Operator.builtin.inj (Option.some.inj hb)).symm

theorem Calls.unique {items : List Tree} {b c : Builtin} (hb : Calls items b) (hc : Calls items c) :
    b = c :=
  name_injective (Option.some.inj (hb.symm.trans hc))

/-- Whether a node is a literal or a call that makes a scalar of scalars. -/
def IsScalarNode : Tree → Prop
  | atom _ => True
  | list items => ∃ b, Calls items b ∧ b.isScalar = true

/-- Whether a formula is put together by arithmetic and dates, from literals only. -/
def IsScalar (t : Tree) : Prop := t.Everywhere IsScalarNode

/-- Whether a node may stand in a formula that gives a series. -/
def IsFormulaNode : Tree → Prop
  | atom _ => True
  | list items => ∃ b, Calls items b ∧ b ≠ .group ∧ b ≠ .groupAdd ∧
      (b = .series ∨ b = .constant ∨ b = .date → ∀ t ∈ items.tail, t.IsScalar) ∧
      (b.isArithmetic = true → items.tail.length = 2)

/-- **The shape of a formula that gives a series.** -/
structure IsFormula (t : Tree) : Prop where
  isList : t.literal? = none
  nodes : t.Everywhere IsFormulaNode

end Tree

/-! ### Types of arguments -/

namespace Typing

/-- Whether a type is that of a scalar. -/
def isScalarType : TypeTag → Bool
  | .int | .number | .str | .timestamp => true
  | .series | .table | .any => false

/-- The types that an operator admits somewhere. -/
def admitted (s : Signature) : List TypeTag := s.positional.flatten ++ (s.keywords.map (·.2)).flatten

theorem mem_admitted_of_expectedAt {s : Signature} {position : Nat} {t : TypeTag}
    (h : t ∈ s.expectedAt position) : t ∈ admitted s := by
  unfold Signature.expectedAt at h
  cases hplace : (s.positional[position]?.orElse fun _ => s.positional.getLast?) with
  | none =>
    rw [hplace] at h
    cases h
  | some types =>
    rw [hplace] at h
    have hmem : types ∈ s.positional := by
      cases hposition : s.positional[position]? with
      | some _ =>
        rw [hposition] at hplace
        obtain rfl := Option.some.inj hplace
        exact List.mem_of_getElem? hposition
      | none =>
        rw [hposition] at hplace
        exact List.mem_of_getLast? hplace
    exact List.mem_append_left _ (List.mem_flatten.2 ⟨types, hmem, h⟩)

theorem mem_admitted_of_keyword? {s : Signature} {name : String} {types : List TypeTag}
    (h : s.keyword? name = some types) {t : TypeTag} (ht : t ∈ types) : t ∈ admitted s :=
  List.mem_append_right _ (List.mem_flatten.2
    ⟨types, List.mem_map.2 ⟨(name, types), OrderedMap.mem_of_lookup h, rfl⟩, ht⟩)

/-- What a type check says about an argument that is no keyword: its type is admitted, and is among
those of the positional arguments unless it is the value of a keyword. -/
def IsTyped (registry : Registry) (s : Signature) (types : List TypeTag) (a : Tree) : Prop :=
  ∃ t, infer registry a = .ok t ∧ TypeTag.anyAccepts (admitted s) t = true ∧
    (t ∈ types ∨ s.keywords ≠ [])

theorem anyAccepts_of_subset {some all : List TypeTag} (h : ∀ t ∈ some, t ∈ all) {t : TypeTag}
    (ht : TypeTag.anyAccepts some t = true) : TypeTag.anyAccepts all t = true := by
  obtain ⟨u, hu, hut⟩ := List.any_eq_true.1 ht
  exact List.any_eq_true.2 ⟨u, h u hu, hut⟩

theorem isTyped_mono {registry : Registry} {s : Signature} {types more : List TypeTag} {a : Tree}
    (h : IsTyped registry s types a) (hsub : ∀ t ∈ types, t ∈ more) :
    IsTyped registry s more a := by
  obtain ⟨t, ht, hadmitted, hmem⟩ := h
  exact ⟨t, ht, hadmitted, hmem.imp_left (hsub t)⟩

/-- **The arguments of a call that was checked have types that are admitted.** -/
theorem isTyped_of_infer {registry : Registry} {operator : String} {s : Signature} :
    ∀ {args : List Tree} {position : Nat} {types : List TypeTag},
      inferPositional registry operator s position args = .ok types →
      inferKeywords registry operator s args = .ok () →
      ∀ a ∈ args, a.keywordName?.isSome ∨ IsTyped registry s types a
  | [], _, _, _, _, _, ha => by cases ha
  | [a], position, types, hpositional, _, b, hb => by
    rw [List.mem_singleton.1 hb]
    cases hk : a.keywordName? with
    | some name => exact Or.inl rfl
    | none =>
      rw [inferPositional, hk] at hpositional
      obtain ⟨t, ht, hpositional⟩ := Result.bind_ok hpositional
      obtain ⟨_, hcheck, hpositional⟩ := Result.bind_ok hpositional
      obtain rfl := Except.ok.inj hpositional
      unfold checkPositional at hcheck
      dsimp only at hcheck
      split at hcheck
      · rename_i haccepts
        exact Or.inr ⟨t, ht, anyAccepts_of_subset (fun _ => mem_admitted_of_expectedAt) haccepts,
          Or.inl (List.mem_singleton.2 rfl)⟩
      · cases hcheck
  | a :: b :: rest, position, types, hpositional, hkeywords, c, hc => by
    cases hk : a.keywordName? with
    | some name =>
      rw [inferPositional, hk] at hpositional
      rw [inferKeywords, hk] at hkeywords
      dsimp only at hpositional hkeywords
      cases hname : s.keyword? name with
      | none =>
        rw [hname] at hkeywords
        cases hkeywords
      | some expected =>
        rw [hname] at hkeywords
        obtain ⟨t, ht, hkeywords⟩ := Result.bind_ok hkeywords
        obtain ⟨_, hcheck, hkeywords⟩ := Result.bind_ok hkeywords
        have hne : s.keywords ≠ [] := by
          intro hnil
          rw [Signature.keyword?, hnil] at hname
          cases hname
        rcases List.mem_cons.1 hc with rfl | hc
        · exact Or.inl (by rw [hk]; rfl)
        · rcases List.mem_cons.1 hc with rfl | hc
          · unfold checkKeyword at hcheck
            split at hcheck
            · rename_i haccepts
              exact Or.inr ⟨t, ht, anyAccepts_of_subset
                (fun _ => mem_admitted_of_keyword? hname) haccepts, Or.inr hne⟩
            · cases hcheck
          · exact isTyped_of_infer hpositional hkeywords c hc
    | none =>
      rw [inferPositional, hk] at hpositional
      rw [inferKeywords, hk] at hkeywords
      dsimp only at hpositional hkeywords
      obtain ⟨t, ht, hpositional⟩ := Result.bind_ok hpositional
      obtain ⟨_, hcheck, hpositional⟩ := Result.bind_ok hpositional
      obtain ⟨more, hmore, hpositional⟩ := Result.bind_ok hpositional
      obtain rfl := Except.ok.inj hpositional
      rcases List.mem_cons.1 hc with rfl | hc
      · unfold checkPositional at hcheck
        dsimp only at hcheck
        split at hcheck
        · rename_i haccepts
          exact Or.inr ⟨t, ht, anyAccepts_of_subset (fun _ => mem_admitted_of_expectedAt) haccepts,
            Or.inl List.mem_cons_self⟩
        · cases hcheck
      · exact (isTyped_of_infer hmore hkeywords c hc).imp_right fun h =>
          isTyped_mono h fun _ => List.mem_cons_of_mem _

/-- The types of the positional arguments are types of arguments. -/
theorem mem_args_of_infer {registry : Registry} {operator : String} {s : Signature} :
    ∀ {args : List Tree} {position : Nat} {types : List TypeTag},
      inferPositional registry operator s position args = .ok types →
      ∀ t ∈ types, ∃ a ∈ args, a.keywordName? = none ∧ infer registry a = .ok t
  | [], _, types, h, t, ht => by
    rw [inferPositional] at h
    obtain rfl := Except.ok.inj h
    cases ht
  | [a], position, types, h, t, ht => by
    cases hk : a.keywordName? with
    | some name =>
      rw [inferPositional, hk] at h
      obtain rfl := Except.ok.inj h
      cases ht
    | none =>
      rw [inferPositional, hk] at h
      obtain ⟨u, hu, h⟩ := Result.bind_ok h
      obtain ⟨_, -, h⟩ := Result.bind_ok h
      obtain rfl := Except.ok.inj h
      exact ⟨a, List.mem_cons_self, hk, by rw [List.mem_singleton.1 ht]; exact hu⟩
  | a :: b :: rest, position, types, h, t, ht => by
    cases hk : a.keywordName? with
    | some name =>
      rw [inferPositional, hk] at h
      obtain ⟨c, hc, hct⟩ := mem_args_of_infer h t ht
      exact ⟨c, List.mem_cons_of_mem _ (List.mem_cons_of_mem _ hc), hct⟩
    | none =>
      rw [inferPositional, hk] at h
      obtain ⟨u, hu, h⟩ := Result.bind_ok h
      obtain ⟨_, -, h⟩ := Result.bind_ok h
      obtain ⟨more, hmore, h⟩ := Result.bind_ok h
      obtain rfl := Except.ok.inj h
      rcases List.mem_cons.1 ht with rfl | ht
      · exact ⟨a, List.mem_cons_self, hk, hu⟩
      · obtain ⟨c, hc, hct⟩ := mem_args_of_infer hmore t ht
        exact ⟨c, List.mem_cons_of_mem _ hc, hct⟩

/-- A call without keywords has as many positional arguments as arguments. -/
theorem length_positional {registry : Registry} {operator operator' : String} {s : Signature}
    (hs : s.keywords = []) :
    ∀ {args : List Tree} {told : CallArgs}, CallArgs.ofList operator args = .ok told →
      inferKeywords registry operator' s args = .ok () → told.positional.length = args.length
  | [], told, htold, _ => by
    obtain rfl := Except.ok.inj htold
    rfl
  | [a], told, htold, _ => by
    rw [CallArgs.ofList] at htold
    split at htold
    · cases htold
    · obtain rfl := Except.ok.inj htold
      rfl
  | a :: b :: rest, told, htold, hkeywords => by
    cases hk : a.keywordName? with
    | some name =>
      rw [inferKeywords, hk] at hkeywords
      have hnone : s.keyword? name = none := by
        unfold Signature.keyword?
        rw [hs]
        rfl
      simp only [hnone] at hkeywords
      cases hkeywords
    | none =>
      rw [CallArgs.ofList, hk] at htold
      rw [inferKeywords, hk] at hkeywords
      obtain ⟨more, hmore, rfl⟩ := Result.map_ok htold
      exact congrArg (· + 1) (length_positional hs hmore hkeywords)

/-- What admits no table and no series admits scalars only. -/
theorem isScalarType_of_admitted : ∀ (b : Builtin) (t : TypeTag),
    b = .series ∨ b = .constant ∨ b = .date → t ≠ .any →
      TypeTag.anyAccepts (admitted b.signature) t = true → isScalarType t = true := by
  intro b t
  cases b <;> cases t <;> decide

/-- Only arithmetic and what makes tables takes tables. -/
theorem ne_table_of_admitted : ∀ (b : Builtin) (t : TypeTag),
    b ≠ .plus ∧ b ≠ .times ∧ b ≠ .divide ∧ b ≠ .groupAdd → t ≠ .any →
      TypeTag.anyAccepts (admitted b.signature) t = true → t ≠ .table := by
  intro b t
  cases b <;> cases t <;> decide

/-- Arithmetic of no table gives none, and scalars come from scalars only. -/
theorem of_broadcast {types : List TypeTag} (hany : .any ∉ types) {t : TypeTag} (ht : t ∈ types) :
    TypeTag.broadcast types ≠ .any ∧ (TypeTag.broadcast types ≠ .table → t ≠ .table) ∧
      (isScalarType (TypeTag.broadcast types) = true → t ≠ .table ∧ t ≠ .series) := by
  unfold TypeTag.broadcast
  rw [if_neg (by simpa using hany)]
  split
  · exact ⟨by decide, fun h => absurd rfl h, fun h => by cases h⟩
  · rename_i htable
    have hne : t ≠ .table := by
      rintro rfl
      exact htable (by simpa using ht)
    split
    · exact ⟨by decide, fun _ => hne, fun h => by cases h⟩
    · rename_i hseries
      have hne' : t ≠ .series := by
        rintro rfl
        exact hseries (by simpa using ht)
      split <;> exact ⟨by decide, fun _ => hne, fun _ => ⟨hne, hne'⟩⟩

theorem broadcast_ne_any {types : List TypeTag} (hany : .any ∉ types) :
    TypeTag.broadcast types ≠ .any := by
  unfold TypeTag.broadcast
  rw [if_neg (by simpa using hany)]
  split
  · decide
  · split
    · decide
    · split <;> decide

theorem isScalarType_of_ne {t : TypeTag} (hany : t ≠ .any) (htable : t ≠ .table)
    (hseries : t ≠ .series) : isScalarType t = true := by
  cases t <;> first | rfl | contradiction

end Typing

namespace Tree

/-! ### Formulas that were checked -/

theorem keyword_isAtom {t : Tree} (h : t.keywordName?.isSome = true) : ∃ l, t = atom l := by
  cases t with
  | atom l => exact ⟨l, rfl⟩
  | list items => cases h

theorem head_of_headSymbol? {head : Tree} {args : List Tree} {symbol : String}
    (h : headSymbol? (head :: args) = some symbol) : head = Tree.symbol symbol := by
  cases head with
  | list items => cases h
  | atom l =>
    cases l with
    | symbol name =>
      obtain rfl := Option.some.inj h
      rfl
    | str s => cases h
    | int n => cases h
    | float x => cases h

/-- What an inferred type says about the shape of a formula. -/
structure FitsType (t : Tree) (type : TypeTag) : Prop where
  ne_any : type ≠ .any
  formula : type ≠ .table → t.Everywhere IsFormulaNode
  scalar : Typing.isScalarType type = true → t.IsScalar

theorem fitsType_atom (l : Literal) : (atom l).FitsType l.type where
  ne_any := by cases l <;> exact TypeTag.noConfusion
  formula _ := everywhere_atom.2 trivial
  scalar _ := everywhere_atom.2 trivial

/-- Whether a list is a call of an operator that is built in. -/
def IsKnownNode : Tree → Prop
  | atom _ => True
  | list items => ∃ b, Calls items b

/-- What is known of the arguments of a call that was checked: each is a keyword, or its type is
admitted and tells its shape. -/
def ArgsFit (b : Builtin) (types : List TypeTag) (args : List Tree) : Prop :=
  ∀ a ∈ args, a.keywordName?.isSome = false → ∃ u, a.FitsType u ∧
    TypeTag.anyAccepts (Typing.admitted b.signature) u = true ∧
    (u ∈ types ∨ b.signature.keywords ≠ [])

theorem ArgsFit.everywhere {b : Builtin} {types : List TypeTag} {args : List Tree}
    (h : ArgsFit b types args)
    (hne : ∀ u, u ≠ .any → TypeTag.anyAccepts (Typing.admitted b.signature) u = true →
      (u ∈ types ∨ b.signature.keywords ≠ []) → u ≠ .table) :
    ∀ a ∈ args, a.Everywhere IsFormulaNode := by
  intro a ha
  cases hk : a.keywordName?.isSome with
  | true =>
    obtain ⟨l, rfl⟩ := keyword_isAtom hk
    exact everywhere_atom.2 trivial
  | false =>
    obtain ⟨u, hu, hadmitted, hmem⟩ := h a ha hk
    exact hu.formula (hne u hu.ne_any hadmitted hmem)

theorem ArgsFit.isScalar {b : Builtin} {types : List TypeTag} {args : List Tree}
    (h : ArgsFit b types args)
    (hscalar : ∀ u, u ≠ .any → TypeTag.anyAccepts (Typing.admitted b.signature) u = true →
      (u ∈ types ∨ b.signature.keywords ≠ []) → Typing.isScalarType u = true) :
    ∀ a ∈ args, a.IsScalar := by
  intro a ha
  cases hk : a.keywordName?.isSome with
  | true =>
    obtain ⟨l, rfl⟩ := keyword_isAtom hk
    exact everywhere_atom.2 trivial
  | false =>
    obtain ⟨u, hu, hadmitted, hmem⟩ := h a ha hk
    exact hu.scalar (hscalar u hu.ne_any hadmitted hmem)

/-- A call has the shape that its type tells, if its arguments have. -/
theorem fitsType_call {b : Builtin} {head : Tree} {args : List Tree} {types : List TypeTag}
    (hb : Calls (head :: args) b) (hargs : ArgsFit b types args) (hany : .any ∉ types)
    (hlength : b.isArithmetic = true → args.length = 2) :
    (list (head :: args)).FitsType (Typing.returned b.signature types) := by
  have hhead := head_of_headSymbol? hb
  have hformula (hnode : IsFormulaNode (list (head :: args)))
      (h : ∀ a ∈ args, a.Everywhere IsFormulaNode) :
      (list (head :: args)).Everywhere IsFormulaNode := by
    refine everywhere_list.2 ⟨hnode, fun t ht => ?_⟩
    rcases List.mem_cons.1 ht with rfl | ht
    · rw [hhead]
      exact everywhere_atom.2 trivial
    · exact h t ht
  have hscalar (hnode : b.isScalar = true) (h : ∀ a ∈ args, a.IsScalar) :
      (list (head :: args)).IsScalar := by
    refine everywhere_list.2 ⟨⟨b, hb, hnode⟩, fun t ht => ?_⟩
    rcases List.mem_cons.1 ht with rfl | ht
    · rw [hhead]
      exact everywhere_atom.2 trivial
    · exact h t ht
  by_cases htable : b = .group ∨ b = .groupAdd
  · have hreturned : Typing.returned b.signature types = .table := by
      rcases htable with rfl | rfl <;> rfl
    rw [hreturned]
    exact ⟨TypeTag.noConfusion, fun h => absurd rfl h, fun h => by cases h⟩
  have hgroup : b ≠ .group := fun h => htable (Or.inl h)
  have hgroupAdd : b ≠ .groupAdd := fun h => htable (Or.inr h)
  by_cases harithmetic : b = .plus ∨ b = .times ∨ b = .divide
  · -- Arithmetic: no keywords, and the type comes from those of the operands.
    have hreturned : Typing.returned b.signature types = TypeTag.broadcast types := by
      rcases harithmetic with rfl | rfl | rfl <;> rfl
    have hkeywords : b.signature.keywords = [] := by
      rcases harithmetic with rfl | rfl | rfl <;> rfl
    have hnode : IsFormulaNode (list (head :: args)) := by
      refine ⟨b, hb, hgroup, hgroupAdd, fun h => ?_, hlength⟩
      rcases harithmetic with rfl | rfl | rfl <;> rcases h with h | h | h <;> cases h
    have hisScalar : b.isScalar = true := by
      rcases harithmetic with rfl | rfl | rfl <;> rfl
    rw [hreturned]
    refine ⟨Typing.broadcast_ne_any hany, fun h => hformula hnode (hargs.everywhere ?_),
      fun h => hscalar hisScalar (hargs.isScalar ?_)⟩
    · rintro u - - (hu | hu)
      · exact (Typing.of_broadcast hany hu).2.1 h
      · exact absurd hkeywords hu
    · rintro u huany - (hu | hu)
      · obtain ⟨h1, h2⟩ := (Typing.of_broadcast hany hu).2.2 h
        exact Typing.isScalarType_of_ne huany h1 h2
      · exact absurd hkeywords hu
  · have hplus : b ≠ .plus ∧ b ≠ .times ∧ b ≠ .divide ∧ b ≠ .groupAdd :=
      ⟨fun h => harithmetic (Or.inl h), fun h => harithmetic (Or.inr (Or.inl h)),
        fun h => harithmetic (Or.inr (Or.inr h)), hgroupAdd⟩
    have hnode : IsFormulaNode (list (head :: args)) := by
      refine ⟨b, hb, hgroup, hgroupAdd, fun h => hargs.isScalar fun u huany hadmitted _ => ?_,
        hlength⟩
      exact Typing.isScalarType_of_admitted b u h huany hadmitted
    have heverywhere := hformula hnode (hargs.everywhere fun u huany hadmitted _ =>
      Typing.ne_table_of_admitted b u hplus huany hadmitted)
    by_cases hdate : b = .date
    · subst hdate
      exact ⟨TypeTag.noConfusion, fun _ => heverywhere,
        fun _ => hscalar rfl (hargs.isScalar fun u huany hadmitted _ =>
          Typing.isScalarType_of_admitted .date u (Or.inr (Or.inr rfl)) huany hadmitted)⟩
    · have hreturned : Typing.returned b.signature types = .series := by
        cases b <;> first | rfl | simp_all
      rw [hreturned]
      exact ⟨TypeTag.noConfusion, fun _ => heverywhere, fun h => by cases h⟩

/-- The type of a formula with known operators tells its shape. -/
theorem fitsType_of_infer {t : Tree} (hknown : t.Everywhere IsKnownNode) {type : TypeTag}
    (h : Typing.infer .builtin t = .ok type) : t.FitsType type := by
  induction t using inductionOn generalizing type with
  | atom l =>
    rw [Typing.infer] at h
    obtain rfl := Except.ok.inj h
    exact fitsType_atom l
  | list items ih =>
    obtain ⟨⟨b, hb⟩, hitems⟩ := everywhere_list.1 hknown
    cases items with
    | nil => cases hb
    | cons head args =>
      rw [Typing.infer] at h
      simp only [hb.operatorOf?] at h
      obtain ⟨told, htold, h⟩ := Result.bind_ok h
      obtain ⟨_, harity, h⟩ := Result.bind_ok h
      obtain ⟨types, htypes, h⟩ := Result.bind_ok h
      obtain ⟨_, -, h⟩ := Result.bind_ok h
      obtain ⟨_, hkeywords, h⟩ := Result.bind_ok h
      obtain rfl := Except.ok.inj h
      have hfits {a : Tree} (ha : a ∈ args) {u : TypeTag}
          (hu : Typing.infer .builtin a = .ok u) : a.FitsType u :=
        ih a (List.mem_cons_of_mem _ ha) (hitems a (List.mem_cons_of_mem _ ha)) hu
      have htyped := Typing.isTyped_of_infer htypes hkeywords
      refine fitsType_call hb (fun a ha hk => ?_) (fun hany => ?_) fun harithmetic => ?_
      · rcases htyped a ha with h | ⟨u, hu, hadmitted, hmem⟩
        · rw [hk] at h
          cases h
        · exact ⟨u, hfits ha hu, hadmitted, hmem⟩
      · obtain ⟨a, ha, -, hu⟩ := Typing.mem_args_of_infer htypes _ hany
        exact (hfits ha hu).ne_any rfl
      · have hsignature : b.signature.keywords = [] ∧ b.signature.arity = .exactly 2 := by
          cases b <;> first | exact ⟨rfl, rfl⟩ | cases harithmetic
        have hlength : told.positional.length = args.length :=
          Typing.length_positional hsignature.1 (Result.mapError_ok htold) hkeywords
        rw [← hlength]
        unfold Typing.checkArity at harity
        rw [show (Operator.builtin b).signature = b.signature from rfl, hsignature.2] at harity
        split at harity
        · rename_i hcount
          exact beq_iff_eq.1 hcount
        · cases harity

/-- A call in a formula that passed the check is one of an operator that is built in. -/
theorem calls_of_check {t : Tree} (h : t.checkOperators .builtin = .ok ()) {items : List Tree}
    (hitems : list items ∈ t.nodes) {symbol : String} (hsymbol : headSymbol? items = some symbol) :
    ∃ b, Calls items b := by
  have hmem : symbol ∈ t.operators := by
    rw [operators, List.mem_eraseDups]
    exact List.mem_filterMap.2 ⟨list items, hitems, hsymbol⟩
  have hcontains : Registry.builtin.contains symbol = true := by
    unfold checkOperators at h
    cases hunknown : t.unknownOperators .builtin with
    | cons _ _ =>
      rw [hunknown] at h
      cases h
    | nil =>
      by_contra hnot
      have hin : symbol ∈ t.unknownOperators .builtin := by
        rw [unknownOperators, List.mem_filter]
        exact ⟨hmem, by simpa using hnot⟩
      rw [hunknown] at hin
      cases hin
  obtain ⟨op, hop⟩ := Option.isSome_iff_exists.1 hcontains
  obtain ⟨b, rfl, -⟩ := Registry.find?_builtin hop
  exact ⟨b, hsymbol⟩

/-- Whether a node, if it is a list, has an operator at its head, as in every formula that was read
from a text. -/
def isHeadedNode (t : Tree) : Bool := t.literal?.isSome || t.operator?.isSome

theorem exists_headSymbol? {items : List Tree} (h : (list items).isHeadedNode = true) :
    ∃ symbol, headSymbol? items = some symbol := Option.isSome_iff_exists.1 h

/-- Parts of a formula that passed the check are calls of operators that are built in, where lists
have operators at their heads. -/
theorem isKnown_of_headed {t u : Tree} (h : t.checkOperators .builtin = .ok ()) (hu : u ∈ t.nodes)
    (hheaded : u.Everywhere fun v => v.isHeadedNode = true) : u.Everywhere IsKnownNode := by
  intro v hv
  cases v with
  | atom l => trivial
  | list items =>
    obtain ⟨symbol, hsymbol⟩ := exists_headSymbol? (hheaded _ hv)
    exact calls_of_check h (nodes_trans hv hu) hsymbol

theorem isHeadedNode_of_isReadable {t : Tree} (h : IsReadableNode t) : t.isHeadedNode = true := by
  cases t with
  | atom l => rfl
  | list items =>
    obtain ⟨name, rest, rfl, -⟩ := isHeaded_iff.1 h
    rfl

/-- The operators of a formula that passed the check are built in. -/
theorem isKnown_of_check {t : Tree} (hreadable : t.IsReadable)
    (h : t.checkOperators .builtin = .ok ()) : t.Everywhere IsKnownNode :=
  isKnown_of_headed h t.self_mem_nodes (hreadable.nodes.mono fun _ => isHeadedNode_of_isReadable)

/-- A formula with known operators that fits a place of a series has the shape of one. -/
theorem isFormula_of_known {t : Tree} (hknown : t.Everywhere IsKnownNode) {type : TypeTag}
    (htype : Typing.check .builtin .series t = .ok type) : t.IsFormula := by
  unfold Typing.check at htype
  obtain ⟨actual, hactual, htype⟩ := Result.bind_ok htype
  have hfits := fitsType_of_infer hknown hactual
  have hseries : actual = .series := by
    have hany := hfits.ne_any
    cases actual <;> first | rfl | exact absurd rfl hany | cases htype
  subst hseries
  refine ⟨?_, hfits.formula TypeTag.noConfusion⟩
  cases t with
  | list items => rfl
  | atom l =>
    rw [Typing.infer] at hactual
    cases l <;> cases hactual

/-- **A formula that is accepted as a series has the shape of one.** -/
theorem isFormula_of_check {t : Tree} (hreadable : t.IsReadable)
    (hoperators : t.checkOperators .builtin = .ok ()) {type : TypeTag}
    (htype : Typing.check .builtin .series t = .ok type) : t.IsFormula :=
  isFormula_of_known (isKnown_of_check hreadable hoperators) htype

end Tree

end SeriesAlgebra
