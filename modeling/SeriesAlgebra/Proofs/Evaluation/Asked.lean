import SeriesAlgebra.Proofs.Evaluation.Rules
import SeriesAlgebra.Proofs.Evaluation.TypeErrors

/-!
# What an evaluation asks for

A resolver that notes the series it is asked for answers like the one it is made of
(`Resolver.noting`, `Evaluation.run_noting`), so what an evaluation asks for is what is noted
(`Evaluation.asked`).

The search for references stops at a series leaf, while its keywords are evaluated as well. In a
formula that has a type these are scalars, which ask for nothing, unless one of them is a list
without an operator, about which types say nothing. Such a list may have been put into a tree by
hand, and no text has one. Without it only references are asked for, and if there is a value, all
of them are: every part of a formula that has a value is evaluated (`Tree.mem_asked_of_check`).
-/

namespace SeriesAlgebra

open Evaluation Reading

variable {σ α β : Type}

/-! ### Taking notes -/

namespace Reading

/-- A reading beside which names are noted. -/
def beside (x : Reading σ α) : Reading (σ × List String) α := ExceptT.mk fun state =>
  ((x.run state.1).1, ((x.run state.1).2, state.2))

theorem gives_of_beside {x : Reading σ α} {s s' : σ × List String} {a : α}
    (h : Gives x.beside s a s') : Gives x s.1 a s'.1 := by
  have hrun : ((x.run s.1).1, ((x.run s.1).2, s.2)) = (.ok a, s') := h
  have hanswer := congrArg Prod.fst hrun
  have hstate := congrArg (fun r => r.2.1) hrun
  exact Prod.ext hanswer hstate

/-- A reading with a name that is noted first. -/
def noting (name : String) (x : Reading σ α) : Reading (σ × List String) α := do
  modify fun state => (state.1, name :: state.2)
  x.beside

theorem run_noting (name : String) (x : Reading σ α) (s : σ) (names : List String) :
    (x.noting name).run (s, names) = ((x.run s).1, ((x.run s).2, name :: names)) := rfl

/-- Whether a reading keeps what is noted, where it gives something. -/
def Keeps (x : Reading (σ × List String) α) : Prop :=
  ∀ s a s', Gives x s a s' → s.2 ⊆ s'.2

/-- Whether a name is noted by a reading, where it gives something. -/
def Notes (name : String) (x : Reading (σ × List String) α) : Prop :=
  ∀ s a s', Gives x s a s' → name ∈ s'.2

variable {name : String} {x : Reading (σ × List String) α} {f : α → Reading (σ × List String) β}

theorem keeps_pure (a : α) : Keeps (pure a : Reading (σ × List String) α) := by
  intro s b s' h
  obtain ⟨-, rfl⟩ := gives_pure.1 h
  exact List.Subset.refl _

theorem keeps_settle (r : Except EngineError α) :
    Keeps (settle r : Reading (σ × List String) α) := by
  intro s a s' h
  obtain ⟨-, rfl⟩ := gives_settle.1 h
  exact List.Subset.refl _

theorem keeps_bind (hx : Keeps x) (hf : ∀ a, Keeps (f a)) : Keeps (x >>= f) := by
  intro s b s'' h
  obtain ⟨a, s', ha, hb⟩ := gives_bind.1 h
  exact List.Subset.trans (hx s a s' ha) (hf a s' b s'' hb)

/-- What is noted first is there afterwards. -/
theorem notes_bind_left (hx : Notes name x) (hf : ∀ a, Keeps (f a)) : Notes name (x >>= f) := by
  intro s b s'' h
  obtain ⟨a, s', ha, hb⟩ := gives_bind.1 h
  exact hf a s' b s'' hb (hx s a s' ha)

theorem notes_bind_right (hf : ∀ a s s', Gives x s a s' → Notes name (f a)) :
    Notes name (x >>= f) := by
  intro s b s'' h
  obtain ⟨a, s', ha, hb⟩ := gives_bind.1 h
  exact hf a s s' ha s' b s'' hb

theorem keeps_mapM {f : α → Reading (σ × List String) β} {as : List α}
    (h : ∀ a ∈ as, Keeps (f a)) : Keeps (as.mapM f) := by
  induction as with
  | nil =>
    rw [List.mapM_nil]
    exact keeps_pure []
  | cons a as ih =>
    rw [List.mapM_cons]
    exact keeps_bind (h a List.mem_cons_self) fun _ =>
      keeps_bind (ih fun b hb => h b (List.mem_cons_of_mem _ hb)) fun _ => keeps_pure _

/-- A name is noted that is noted for one element of a list. -/
theorem notes_mapM {f : α → Reading (σ × List String) β} {as : List α}
    (hkeeps : ∀ a ∈ as, Keeps (f a)) {a : α} (ha : a ∈ as) (h : Notes name (f a)) :
    Notes name (as.mapM f) := by
  induction as with
  | nil => cases ha
  | cons b as ih =>
    rw [List.mapM_cons]
    have hrest : ∀ c ∈ as, Keeps (f c) := fun c hc => hkeeps c (List.mem_cons_of_mem _ hc)
    rcases List.mem_cons.1 ha with rfl | ha
    · exact notes_bind_left h fun _ => keeps_bind (keeps_mapM hrest) fun _ => keeps_pure _
    · exact notes_bind_right fun _ _ _ _ => notes_bind_left (ih hrest ha) fun _ => keeps_pure _

end Reading

/-- **The resolver that notes the names of the series that it is asked for.** -/
def Resolver.noting (A : Resolver σ) : Resolver (σ × List String) where
  series name q := (A.series name q).noting name
  group name q := (A.group name q).beside
  autotrophic call q := (A.autotrophic call q).beside

/-- **The names of the series that an evaluation asks for**, whether it gives a value or not. -/
def Evaluation.asked (registry : Registry) (A : Resolver σ) (t : Tree) (q : Query) (s : σ) :
    List String :=
  ((evaluate registry A.noting t q).run (s, [])).2.2

/-- The rule that taking notes changes nothing, and that only names of a kind are noted. -/
def Rule.noting (σ : Type) (P : String → Prop) : Rule (σ × List String) σ where
  Holds x y := ∀ s names, ∃ new, (∀ name ∈ new, P name) ∧
    x.run (s, names) = ((y.run s).1, ((y.run s).2, new ++ names))
  Allows _ := True
  pure a s names := ⟨[], nofun, rfl⟩
  throw _ s names := ⟨[], nofun, rfl⟩
  bind {_ _ x y f g} hx hf := by
    intro s names
    obtain ⟨new, hnew, hrun⟩ := hx s names
    rw [run_bind, run_bind, hrun]
    rcases y.run s with ⟨e | a, s'⟩
    · exact ⟨new, hnew, rfl⟩
    · obtain ⟨more, hmore, hrest⟩ := hf a s' (new ++ names)
      refine ⟨more ++ new, fun name hname => ?_, ?_⟩
      · exact (List.mem_append.1 hname).elim (hmore name) (hnew name)
      · rw [List.append_assoc]
        exact hrest

namespace Tree

/-! ### What may be asked for -/

/-- Whether a series may be asked for in the evaluation of a formula. -/
inductive MayAsk (registry : Registry) : Tree → String → Prop
  | leaf {call : Tree} {name : String} (hop : registry.operatorOf? call = some (.builtin .series))
      (hname : call.seriesName? = some name) : MayAsk registry call name
  | arg {items : List Tree} {op : Operator} {a : Tree} {name : String}
      (hop : registry.operatorOf? (list items) = some op) (ha : a ∈ items.tail)
      (h : MayAsk registry a name) : MayAsk registry (list items) name

variable {registry : Registry} {A : Resolver σ} {t : Tree} {items : List Tree} {name : String}

/-- **Taking notes changes nothing**, and only what may be asked for is noted. -/
theorem noting_evaluate (registry : Registry) (A : Resolver σ) (t : Tree) (q : Query) :
    (Rule.noting σ (t.MayAsk registry)).Holds (evaluate registry A.noting t q)
      (evaluate registry A t q) := by
  have happlies : (Rule.noting σ (t.MayAsk registry)).Applies registry
      (fun u => ∀ name, u.MayAsk registry name → t.MayAsk registry name) A.noting A := by
    refine ⟨?_, fun _ _ => trivial, ?_, ?_, ?_⟩
    · intro items op hitems hop a ha name hname
      exact hitems name (.arg hop ha hname)
    · intro call name hcall hop hname q s names
      refine ⟨[name], fun other hother => ?_, run_noting name _ s names⟩
      rw [List.mem_singleton.1 hother]
      exact hcall name (.leaf hop hname)
    · exact fun _ _ _ q s names => ⟨[], nofun, rfl⟩
    · exact fun call q s names => ⟨[], nofun, rfl⟩
  exact happlies.evaluate (fun _ h => h) q

theorem keeps_evaluate (registry : Registry) (A : Resolver σ) (t : Tree) (q : Query) :
    Keeps (evaluate registry A.noting t q) := by
  rintro ⟨s, names⟩ a s' h
  obtain ⟨new, -, hrun⟩ := noting_evaluate registry A t q s names
  rw [← (Prod.mk.inj (hrun.symm.trans h)).2]
  exact List.subset_append_right _ _

/-- What is asked for may be asked for. -/
theorem mayAsk_of_mem_asked {q : Query} {s : σ} (h : name ∈ asked registry A t q s) :
    t.MayAsk registry name := by
  obtain ⟨new, hnew, hrun⟩ := noting_evaluate registry A t q s []
  rw [asked, hrun] at h
  simp only [List.append_nil] at h
  exact hnew name h

/-- **An evaluation that takes notes gives what it gives without**, and what it asks for. -/
theorem gives_noting {q : Query} {s s' : σ} {v : Value} (h : Gives (evaluate registry A t q) s v s') :
    Gives (evaluate registry A.noting t q) (s, []) v (s', asked registry A t q s) := by
  obtain ⟨new, -, hrun⟩ := noting_evaluate registry A t q s []
  unfold Gives at h ⊢
  rw [asked, hrun, h]

/-! ### References -/

/-- Whether no argument of a series leaf has the type `any`. -/
def LeavesTyped (t : Tree) : Prop :=
  ∀ items name, list items ∈ t.nodes → leafName? items = some name →
    ∀ a ∈ items.tail, Typing.infer .builtin a ≠ .ok .any

/-- Whether all lists inside series leaves have operators at their heads. -/
def LeavesHeaded (t : Tree) : Prop :=
  ∀ items name, list items ∈ t.nodes → leafName? items = some name →
    ∀ a ∈ items.tail, a.Everywhere fun u => u.isHeadedNode = true

theorem leavesHeaded_of_everywhere (h : t.Everywhere fun u => u.isHeadedNode = true) :
    t.LeavesHeaded := by
  intro items name hitems _ a ha
  exact (h.node hitems).item (List.mem_of_mem_tail ha)

theorem LeavesTyped.item (h : (list items).LeavesTyped) {a : Tree} (ha : a ∈ items) :
    a.LeavesTyped :=
  fun others name hothers => h others name (mem_nodes_list.2 (Or.inr ⟨a, ha, hothers⟩))

theorem leavesTyped_of_headed (hoperators : t.checkOperators .builtin = .ok ())
    (h : t.LeavesHeaded) : t.LeavesTyped := by
  intro items name hitems hname a ha htype
  have hnode : a ∈ t.nodes :=
    nodes_trans (mem_nodes_list.2 (Or.inr ⟨a, List.mem_of_mem_tail ha, a.self_mem_nodes⟩)) hitems
  have hknown := isKnown_of_headed hoperators hnode (h items name hitems hname a ha)
  exact (fitsType_of_infer hknown htype).ne_any rfl

/-- A formula that has a value has a type everywhere. -/
theorem leavesTyped_of_value (hA : A.LeavesAutotrophic) {type : TypeTag}
    (htype : Typing.infer .builtin t = .ok type) {q : Query} {v : Value} (h : HasValue A q t v) :
    t.LeavesTyped := by
  intro items name hitems hname a ha hany
  have hnode : a ∈ t.nodes :=
    nodes_trans (mem_nodes_list.2 (Or.inr ⟨a, List.mem_of_mem_tail ha, a.self_mem_nodes⟩)) hitems
  rcases value_of_node hA htype h hnode with ⟨l, rfl⟩ | ⟨-, c, w, hw⟩
  · rw [Typing.infer] at hany
    cases l <;> cases hany
  · exact Typing.not_hasValue_any hany hw

/-- Only literals have the type of texts. -/
theorem exists_atom_of_str (h : Typing.infer .builtin t = .ok .str) : ∃ l, t = atom l := by
  cases t with
  | atom l => exact ⟨l, rfl⟩
  | list items =>
    cases hop : Registry.builtin.operatorOf? (list items) with
    | none => cases Typing.infer_of_unknown hop h
    | some op =>
      obtain ⟨b, hb, rfl⟩ := calls_of_operatorOf? hop
      obtain ⟨told, types, -, -, hreturned⟩ := Typing.argsAdmitted_of_infer hb h
      have hbroadcast : TypeTag.broadcast types ≠ .str := by
        unfold TypeTag.broadcast
        split
        · nofun
        · split
          · nofun
          · split
            · nofun
            · split <;> nofun
      cases b <;> first | exact absurd hreturned.symm hbroadcast | cases hreturned

/-- **The arguments of a series leaf are scalars**, but for those about which types say nothing. -/
theorem isScalar_of_leafArg (hname : leafName? items = some name) {type : TypeTag}
    (htype : Typing.infer .builtin (list items) = .ok type) {a : Tree} (ha : a ∈ items.tail)
    (hany : Typing.infer .builtin a ≠ .ok .any) : a.IsScalar := by
  obtain ⟨told, types, htold, hargs, -⟩ :=
    Typing.argsAdmitted_of_infer (calls_of_leafName? hname) htype
  have hatom (l : Literal) : (atom l).IsScalar := everywhere_atom.2 trivial
  rcases (CallArgs.tells_of_callArgs htold).cases ha with hkeyword | hpositional | ⟨key, hkey⟩
  · obtain ⟨l, rfl⟩ := keyword_isAtom hkeyword
    exact hatom l
  · rw [positional_of_leaf hname htold hargs] at hpositional
    obtain rfl := List.mem_singleton.1 hpositional
    exact hatom _
  · obtain ⟨expected, u, hexpected, hu, haccepts⟩ := hargs.keywords key a hkey
    have hne : u ≠ .any := fun h => hany (h ▸ hu)
    have hcases : u = .str ∨ u.isNumeric = true := by
      have hmem := OrderedMap.mem_of_lookup hexpected
      simp only [Builtin.signature, Builtin.withSeriesOptions, Signature.withKeyword,
        Signature.fixed, List.mem_append, List.mem_cons, List.not_mem_nil, or_false,
        List.nil_append, Prod.mk.injEq] at hmem
      rcases hmem with (⟨-, rfl⟩ | ⟨-, rfl⟩) | ⟨-, rfl⟩ <;>
        (cases u <;> first | exact Or.inl rfl | exact Or.inr rfl | contradiction)
    rcases hcases with rfl | hnumeric
    · obtain ⟨l, rfl⟩ := exists_atom_of_str hu
      exact hatom l
    · exact isScalar_of_isNumber ((isNumber_of_infer hu).trans hnumeric)

/-- A scalar asks for nothing. -/
theorem not_mayAsk_scalar (h : t.IsScalar) : ¬ t.MayAsk .builtin name := by
  intro hname
  induction hname with
  | @leaf call name hop _ =>
    cases call with
    | atom l => cases hop
    | list items =>
      obtain ⟨b, hb, hscalar⟩ := h.self
      rw [hb.operatorOf?] at hop
      obtain rfl := Operator.builtin.inj (Option.some.inj hop)
      cases hscalar
  | arg _ ha _ ih => exact ih (h.item (List.mem_of_mem_tail ha))

/-- **What may be asked for is referred to**, in formulas of a kind in whose leaves only scalars are
written. -/
theorem mem_references_of_mayAsk_of {S : Tree → Prop}
    (hargs : ∀ items b, Calls items b → S (list items) → ∀ a ∈ items.tail, S a)
    (hscalar : ∀ items other, leafName? items = some other → S (list items) →
      ∀ a ∈ items.tail, a.IsScalar)
    (h : t.MayAsk .builtin name) (ht : S t) : name ∈ t.references .builtin := by
  induction h with
  | @leaf call name hop hname =>
    cases call with
    | atom l => cases hop
    | list items =>
      have hb := calls_of_leafName? hname
      rw [references_call hb, namedSeries?_tail hb, show leafName? items = some name from hname]
      exact List.mem_singleton.2 rfl
  | @arg items op a name hop ha hmay ih =>
    obtain ⟨b, hb, -⟩ := calls_of_operatorOf? hop
    cases hleaf : leafName? items with
    | some other =>
      -- Nothing is looked for inside a leaf, and there is nothing to be found.
      exact absurd hmay (not_mayAsk_scalar (hscalar items other hleaf ht a ha))
    | none =>
      rw [references_call hb, namedSeries?_tail hb, hleaf]
      exact mem_referencesOfAll.2 ⟨a, ha, ih (hargs items b hb ht a ha)⟩

/-- What a formula that has a type may ask for is referred to. -/
theorem mem_references_of_mayAsk (h : t.MayAsk .builtin name) {type : TypeTag}
    (htype : Typing.infer .builtin t = .ok type) (hleaves : t.LeavesTyped) :
    name ∈ t.references .builtin := by
  refine mem_references_of_mayAsk_of
    (S := fun t => (∃ type, Typing.infer .builtin t = .ok type) ∧ t.LeavesTyped) ?_ ?_ h
    ⟨⟨type, htype⟩, hleaves⟩
  · rintro items b hb ⟨⟨type, htype⟩, hleaves⟩ a ha
    exact ⟨Typing.exists_infer_of_item hb htype (List.mem_of_mem_tail ha),
      hleaves.item (List.mem_of_mem_tail ha)⟩
  · rintro items other hleaf ⟨⟨type, htype⟩, hleaves⟩ a ha
    exact isScalar_of_leafArg hleaf htype ha (hleaves items other (self_mem_nodes _) hleaf a ha)

/-! ### What is asked for -/

section

variable {b : Builtin} {told : CallArgs} {q : Query}

theorem keeps_positional (h : CallArgs.Tells items.tail told) :
    Keeps (evaluatePositional .builtin A.noting items.tail q) := by
  rw [evaluatePositional_told _ h]
  exact keeps_mapM fun a _ => keeps_evaluate _ A a q

/-- **A call whose arguments are evaluated notes what one of them does**, whatever is made of them. -/
theorem notes_arguments (h : CallArgs.Tells items.tail told) {a : Tree} (ha : a ∈ items.tail)
    (hliteral : a.keywordName?.isSome = false)
    (hnotes : ∀ q, Notes name (evaluate .builtin A.noting a q))
    (child : OrderedMap String Value → SeriesAlgebra.Reading (σ × List String) Query)
    (apply : List Value → OrderedMap String Value →
      SeriesAlgebra.Reading (σ × List String) Value)
    (hchild : ∀ keywords, Keeps (child keywords))
    (happly : ∀ positional keywords, Keeps (apply positional keywords)) :
    Notes name (do
      let keywords ← OrderedMap.ofList <$> evaluateKeywords .builtin A.noting items.tail q
      let positional ← evaluatePositional .builtin A.noting items.tail (← child keywords)
      apply positional keywords) := by
  rcases h.cases ha with hkeyword | hpositional | ⟨key, hkey⟩
  · rw [hliteral] at hkeyword
    cases hkeyword
  · refine notes_bind_right fun keywords _ _ _ => notes_bind_right fun c _ _ _ =>
      notes_bind_left ?_ fun positional => happly positional keywords
    rw [evaluatePositional_told _ h]
    exact notes_mapM (fun a _ => keeps_evaluate _ A a c) hpositional (hnotes c)
  · refine notes_bind_left (notes_bind_left ?_ fun _ => keeps_pure _) fun keywords =>
      keeps_bind (hchild keywords) fun c => keeps_bind (keeps_positional h) fun positional =>
        happly positional keywords
    rw [evaluateKeywords_told _ h]
    exact notes_mapM (fun entry _ => keeps_bind (keeps_evaluate _ A entry.2 q) fun _ =>
      keeps_pure _) hkey (notes_bind_left (hnotes q) fun _ => keeps_pure _)

end

/-- **A formula that has a type and a value asks for all that it refers to.** -/
theorem notes_of_mem_references (hA : A.LeavesAutotrophic) {type : TypeTag}
    (htype : Typing.infer .builtin t = .ok type) (hmem : name ∈ t.references .builtin) (q : Query) :
    Notes name (evaluate .builtin A.noting t q) := by
  induction t using inductionOn generalizing type q with
  | atom l => cases hmem
  | list items ih =>
    cases hop : Registry.builtin.operatorOf? (list items) with
    | none =>
      intro s v s' hgives
      obtain ⟨b, hb⟩ := calls_of_gives hgives
      cases hop.symm.trans hb.operatorOf?
    | some op =>
      obtain ⟨b, hb, -⟩ := calls_of_operatorOf? hop
      obtain ⟨told, types, htold, hargs, -⟩ := Typing.argsAdmitted_of_infer hb htype
      have htells := CallArgs.tells_of_callArgs htold
      rw [references_call hb, namedSeries?_tail hb] at hmem
      cases hleaf : leafName? items with
      | some other =>
        obtain rfl := hb.unique (calls_of_leafName? hleaf)
        rw [hleaf] at hmem
        obtain rfl := List.mem_singleton.1 hmem
        rw [evaluate_leaf _ hb hleaf]
        refine notes_bind_right fun _ _ _ _ => notes_bind_right fun _ _ _ _ =>
          notes_bind_right fun _ _ _ _ => notes_bind_left ?_ fun _ => keeps_pure _
        rintro ⟨s, names⟩ r s' hgives
        rw [← (Prod.mk.inj ((run_noting name _ s names).symm.trans hgives)).2]
        exact List.mem_cons_self
      | none =>
        rw [hleaf] at hmem
        obtain ⟨a, ha, hmem⟩ := mem_referencesOfAll.1 hmem
        have hliteral : a.keywordName?.isSome = false := by
          cases a with
          | atom l => cases hmem
          | list others => rfl
        obtain ⟨u, hu⟩ := Typing.exists_infer_of_item hb htype (List.mem_of_mem_tail ha)
        have hnotes := ih a (List.mem_of_mem_tail ha) hu hmem
        -- Leaves without a name and groups do not evaluate their arguments.
        cases happlied : isApplied b with
        | true =>
          rw [evaluate_call _ hb happlied]
          exact notes_bind_right fun _ _ _ _ => notes_arguments htells ha hliteral hnotes _ _
            (fun _ => keeps_settle _) fun _ _ => keeps_settle _
        | false =>
          cases b with
          | series =>
            rw [evaluate_nameless _ hb hleaf]
            exact fun s v s' hgives => (gives_throw.1 hgives).elim
          | group =>
            rw [evaluate_group hb]
            cases hgroup : (list items).firstName? Builtin.group.name with
            | none => exact fun s v s' hgives => (gives_throw.1 hgives).elim
            | some group =>
              rw [args_of_group hgroup htold hargs] at ha
              obtain rfl := List.mem_singleton.1 ha
              cases hmem
          | constant =>
            rw [evaluate_autotrophic _ hb]
            refine notes_bind_right fun known s s' hknown => ?_
            cases known with
            | some v => exact absurd (gives_of_beside hknown) (hA _ _ _ _ _)
            | none =>
              refine notes_bind_right fun _ _ _ _ => ?_
              simpa using notes_arguments (q := q) htells ha hliteral hnotes (fun _ => pure q)
                (fun vs m => settle (Builtin.constant.apply ⟨vs, m⟩ q))
                (fun _ => keeps_pure q) fun _ _ => keeps_settle _
          | _ => cases happlied

/-- **A formula asks for series that it refers to, and if it has a value, for all of them.** What is
asked for is referred to unless a list without an operator stands inside a series leaf, whatever
comes of the evaluation. -/
theorem mem_asked_of_check {expected type : TypeTag}
    (hoperators : t.checkOperators .builtin = .ok ())
    (hcheck : Typing.check .builtin expected t = .ok type) (A : Resolver σ) (q : Query) (s : σ) :
    (t.LeavesHeaded → ∀ name ∈ asked .builtin A t q s, name ∈ t.seriesReferences .builtin) ∧
    (A.LeavesAutotrophic → ∀ v s', Gives (evaluate .builtin A t q) s v s' → ∀ name,
      name ∈ asked .builtin A t q s ↔ name ∈ t.seriesReferences .builtin) := by
  obtain ⟨actual, htype, -⟩ := Result.bind_ok hcheck
  have hsubset (hleaves : t.LeavesTyped) (name : String) (h : name ∈ asked .builtin A t q s) :
      name ∈ t.seriesReferences .builtin :=
    mem_sortedSet.2 (mem_references_of_mayAsk (mayAsk_of_mem_asked h) htype hleaves)
  refine ⟨fun hheaded => hsubset (leavesTyped_of_headed hoperators hheaded),
    fun hA v s' h name => ⟨hsubset (leavesTyped_of_value hA htype ⟨s, s', h⟩) name, fun hmem => ?_⟩⟩
  have hnotes := notes_of_mem_references hA htype (mem_sortedSet.1 hmem) q
  exact hnotes (s, []) v (s', asked .builtin A t q s) (gives_noting h)

/-- A sum of a filled series and a part of a weighted one. -/
def filledAndWeighted : Tree :=
  .list [.symbol "add", .list [.symbol "series", .str "a", .symbol "#:fill", .str "ffill"],
    .list [.symbol "slice", .list [.symbol "series", .str "b", .symbol "#:weight",
      .list [.symbol "/", .atom (.int 1), .atom (.int 2)]], .symbol "#:fromdate",
      .str "2024-01-02"]]

theorem mem_asked_filledAndWeighted :
    (∀ name ∈ asked .builtin answeringEmpty filledAndWeighted .latest (),
      name ∈ filledAndWeighted.seriesReferences .builtin) ∧
    ∃ v, Gives (evaluate .builtin answeringEmpty filledAndWeighted .latest) () v () ∧ ∀ name,
      name ∈ asked .builtin answeringEmpty filledAndWeighted .latest () ↔
        name ∈ filledAndWeighted.seriesReferences .builtin := by
  have hcheck : Typing.check .builtin .series filledAndWeighted = .ok .series :=
    Result.ok_of_toOption (by decide +kernel)
  have hheaded : ∀ u ∈ filledAndWeighted.nodes, u.isHeadedNode = true := by decide +kernel
  obtain ⟨v, hv⟩ := Result.exists_ok (x := outcome (evaluate .builtin answeringEmpty
    filledAndWeighted .latest)) (by decide +kernel)
  have hleaves : answeringEmpty.LeavesAutotrophic := Resolver.leavesAutotrophic_of_eq rfl
  exact ⟨(mem_asked_of_check rfl hcheck answeringEmpty .latest ()).1
      (leavesHeaded_of_everywhere hheaded),
    v, gives_of_outcome hv,
    (mem_asked_of_check rfl hcheck answeringEmpty .latest ()).2 hleaves v () (gives_of_outcome hv)⟩

/-- A series whose weight is a product with a list that has no operator. -/
def weightedByNothing : Tree :=
  .list [.symbol "series", .str "b", .symbol "#:weight",
    .list [.symbol "*", .list [.symbol "series", .str "a"], .list []]]

/-- **A list without an operator has the type `any`, which fits a keyword of a leaf**: in its place a
formula that is accepted asks for a series that it does not refer to. -/
theorem asked_weightedByNothing :
    weightedByNothing.checkOperators .builtin = .ok () ∧
    Typing.check .builtin .series weightedByNothing = .ok .series ∧
    "a" ∈ asked .builtin answeringEmpty weightedByNothing .latest () ∧
    "a" ∉ weightedByNothing.seriesReferences .builtin :=
  ⟨rfl, Result.ok_of_toOption (by decide +kernel), by decide +kernel, by decide +kernel⟩

end Tree

end SeriesAlgebra
