import SeriesAlgebra.Engine.Staircase
import SeriesAlgebra.Proofs.Engine.ExpandedText
import SeriesAlgebra.Proofs.Engine.InsertionDates
import SeriesAlgebra.Proofs.Engine.ReadableText
import SeriesAlgebra.Proofs.Engine.ReadingCycles

/-!
# Texts are no reason to fail

A text that is no formula is refused with errors of its own (`TreeError.RefusesText`). Where an
engine reads a series, a group, a history or a staircase it reads the texts of formulas that it
keeps, and never fails with one of those errors (`Engine.admits_read`,
`Engine.admits_historyWithin`, `Engine.admits_staircaseWithin`) unless an extension or a source does
(`Engine.IsQuiet`). The one error that reads have in common with the reader of texts says that
something nests too deep, and then it says so of formulas and not of the lists of a text.

Main statement: in every engine that is reached all texts are read, and are written again as they
are, and nothing fails because of a text (`Engine.parse_record_of_reaches`).
-/

namespace SeriesAlgebra

open Evaluation Reading SeriesAlgebra.Tree

/-! ### What texts are refused for -/

/-- **Whether an error is one with which texts are refused.** -/
def TreeError.RefusesText : TreeError → Prop
  | cycle _ | danglingKeyword _ _ => False
  | tooDeep limit => limit = Tree.maxNesting
  | _ => True

namespace Token

theorem failsOnly_scan (state : Scan) (offset : Nat) (cs : List Char) :
    Result.FailsOnly TreeError.RefusesText (scan state offset cs) := by
  induction cs generalizing state offset with
  | nil =>
    intro f hf
    cases state <;> cases hf <;> trivial
  | cons c rest ih => exact Result.failsOnly_map _ (ih _ _)

end Token

namespace Tree

theorem failsOnly_take (lists : List OpenList) (token : Token) :
    Result.FailsOnly TreeError.RefusesText (take lists token) := by
  unfold take
  split
  · exact Result.failsOnly_ok _
  · refine Result.failsOnly_map _ fun f hf => ?_
    unfold ofWord at hf
    split at hf
    · split at hf <;> cases hf
      trivial
    · cases hf
  · split
    · exact Result.failsOnly_error rfl
    · exact Result.failsOnly_ok _
  · split
    · exact Result.failsOnly_error trivial
    · dsimp only
      split
      · exact Result.failsOnly_ok _
      · exact Result.failsOnly_error trivial

theorem failsOnly_readTokens (reading : Reading) (tokens : List Token) :
    Result.FailsOnly TreeError.RefusesText (readTokens reading tokens) := by
  induction tokens generalizing reading with
  | nil => cases reading <;> first | exact Result.failsOnly_ok _ | exact Result.failsOnly_error trivial
  | cons token rest ih =>
    cases reading with
    | complete t => exact Result.failsOnly_error trivial
    | inside lists => exact Result.failsOnly_bind (failsOnly_take lists token) fun r _ => ih r

/-- **Texts are refused for what is wrong with them.** -/
theorem refusesText_of_parse {text : String} {f : TreeError} (h : parse text = .error f) :
    f.RefusesText :=
  Result.failsOnly_bind (Token.failsOnly_scan _ _ _) (fun _ _ => failsOnly_readTokens _ _) f h

end Tree

/-- The error of a formula's tree, if an error is one. -/
def EngineError.tree? : EngineError → Option TreeError
  | tree f => some f
  | _ => none

/-- **Whether an error is none with which a text is refused**, but for the one that says that formulas
nest too deep. -/
def EngineError.IsNoTextFault (limit : Nat) (cause : EngineError) : Prop :=
  ∀ text f, Tree.parse text = .error f → cause = .tree f → f = .tooDeep limit

namespace EngineError

variable {limit : Nat} {cause : EngineError}

theorem isNoTextFault_of_tree? (h : cause.tree? = none) : cause.IsNoTextFault limit := by
  rintro _ f _ rfl
  cases h

theorem isNoTextFault_of_isOperatorError (h : cause.isOperatorError = true) :
    cause.IsNoTextFault limit := by
  rintro _ f _ rfl
  cases h

theorem isNoTextFault_dangling (operator keyword : String) :
    (tree (.danglingKeyword operator keyword)).IsNoTextFault limit := by
  rintro text f hf heq
  obtain rfl := tree.inj heq
  exact (refusesText_of_parse hf).elim

end EngineError

open EngineError

theorem Engine.IsNestingFault.isNoTextFault {limit : Nat} {cause : EngineError}
    (h : Engine.IsNestingFault limit cause) : cause.IsNoTextFault limit := by
  rintro text f hf heq
  rcases h with ⟨path, rfl⟩ | rfl
  · obtain rfl := EngineError.tree.inj heq
    exact (refusesText_of_parse hf).elim
  · exact (EngineError.tree.inj heq).symm

/-! ### What others fail with -/

/-- Whether an extension fails with no error of a text. -/
structure Extension.IsQuiet (limit : Nat) (x : Extension) : Prop where
  apply : ∀ args q, Result.FailsOnly (IsNoTextFault limit) (x.apply args q)
  history : ∀ args q, Result.FailsOnly (IsNoTextFault limit) (x.history args q)
  insertionDates : ∀ args inserted, Result.FailsOnly (IsNoTextFault limit) (x.insertionDates args inserted)

/-- Whether a source fails with no error of a text. -/
structure Source.IsQuiet (limit : Nat) (s : Source) : Prop where
  read : ∀ name q, Result.FailsOnly (IsNoTextFault limit) (s.read? name q)
  history : ∀ name q, Result.FailsOnly (IsNoTextFault limit) (s.history? name q)
  insertionDates : ∀ name inserted,
    Result.FailsOnly (IsNoTextFault limit) (s.insertionDates name inserted)

/-- **Whether the extensions and the sources of an engine fail with no error of a text.** -/
structure Engine.IsQuiet (e : Engine) : Prop where
  extensions : ∀ symbol x, e.registry.find? symbol = some (.extension x) →
    x.IsQuiet e.config.maxDepth
  sources : ∀ s ∈ e.sources, s.IsQuiet e.config.maxDepth

/-- So it is with built-in operators and no sources. -/
theorem Engine.isQuiet_builtin {e : Engine} (hregistry : e.registry = .builtin)
    (hsources : e.sources = []) : e.IsQuiet := by
  constructor
  · intro symbol x hx
    rw [hregistry] at hx
    obtain ⟨b, -, hb⟩ := Registry.find?_builtin hx
    cases hb
  · intro s hs
    rw [hsources] at hs
    cases hs

namespace Engine

variable {e : Engine} {t u call : Tree} {cause : EngineError}

/-- Whether what a result or a reading may fail with is no error of a text. -/
abbrev Admits (e : Engine) : EngineError → Prop := IsNoTextFault e.config.maxDepth

/-- **What a headed call raises is no error of a text.** -/
theorem admits_of_raises (he : e.IsQuiet) (hcall : call.Everywhere IsReadableNode)
    (h : Raises e.registry call cause) : e.Admits cause := by
  cases h with
  | empty => cases hcall.self
  | unknown _ =>
    obtain ⟨name, args, heq, -⟩ := isHeaded_iff.1 hcall.self
    obtain ⟨rfl, rfl⟩ := List.cons.inj heq
    exact isNoTextFault_of_tree? rfl
  | nameless _ _ => exact isNoTextFault_of_tree? rfl
  | groupless => exact isNoTextFault_of_tree? rfl
  | dangling h =>
    obtain ⟨keyword, rfl⟩ := exists_dangling_of_callArgs h
    exact isNoTextFault_dangling _ keyword
  | options h => exact isNoTextFault_of_isOperatorError (Application.failsAsOperator_update _ _ _ _ h)
  | childQuery h => exact isNoTextFault_of_isOperatorError (Builtin.failsOnly_childQuery _ _ _ _ h)
  | apply h => exact isNoTextFault_of_isOperatorError (Builtin.failsOnly_apply _ _ _ _ h)
  | applyExtension hop h =>
    obtain ⟨symbol, -, hfind⟩ := Option.bind_eq_some_iff.1 hop
    exact (he.extensions symbol _ hfind).apply _ _ _ h

section

variable {σ : Type} {A : Resolver σ}

theorem failsOnly_evaluate (he : e.IsQuiet) (ht : t.Everywhere IsReadableNode)
    (hA : A.FailsOnly e.Admits) (q : Query) : FailsOnly e.Admits (evaluate e.registry A t q) :=
  hA.evaluate (fun _ hu _ => admits_of_raises he (ht.node hu)) q

end

/-- What is read of a text can be read. -/
theorem everywhere_of_treeOf? {record : Option FormulaRecord} (ht : treeOf? record = .ok (some t)) :
    t.Everywhere IsReadableNode := by
  cases record with
  | none => cases ht
  | some record =>
    obtain ⟨u, hu, heq⟩ := Result.map_ok ht
    obtain rfl := Option.some.inj heq
    exact (isReadable_of_parse hu).nodes

/-! ### Series and groups -/

section

variable {A : Resolver Memo} {name : String} {q : Query}

theorem admits_asSeries (v : Value) (name : String) :
    Result.FailsOnly e.Admits (v.asSeries name) := fun _ h =>
  isNoTextFault_of_isOperatorError (v.failsAsOperator_asSeries name _ h)

theorem admits_frame {α : Type} (x : Except FrameError α) :
    Result.FailsOnly e.Admits (x.mapError EngineError.frame) := by
  intro cause hcause
  obtain ⟨f, -, rfl⟩ := Result.mapError_error hcause
  exact isNoTextFault_of_tree? rfl

theorem failsOnly_withBound (hA : A.FailsOnly e.Admits) (bound : OrderedMap String Series) :
    (withBound A bound).FailsOnly e.Admits := by
  refine ⟨fun name q => ?_, hA.group, fun _ _ => failsOnly_pure _⟩
  unfold withBound
  dsimp only
  split
  · exact failsOnly_pure _
  · exact hA.series name q

theorem admits_readCombination (he : e.IsQuiet) (ht : t.Everywhere IsReadableNode)
    (hA : A.FailsOnly e.Admits) (binding : Binding) (rows : List BindingRow) (known : Scenarios)
    (choice : Combination) :
    FailsOnly e.Admits (e.readCombination A binding t rows known q choice) := by
  refine failsOnly_bind (failsOnly_settle (failsOnly_boundColumns fun _ _ => ?_)) fun bound _ _ _ =>
    failsOnly_bind (failsOnly_evaluate he ht (failsOnly_withBound hA _) q) fun v _ _ _ =>
      failsOnly_bind (failsOnly_settle (admits_asSeries v _)) fun _ _ _ _ => failsOnly_pure _
  exact isNoTextFault_of_tree? rfl

theorem admits_readBoundGroup (h : e.KeepsTexts) (he : e.IsQuiet) (hA : A.FailsOnly e.Admits)
    (binding : Binding) : FailsOnly e.Admits (e.readBoundGroup A binding q) := by
  refine failsOnly_bind (failsOnly_settle (failsOnly_treeOf? h.canonical.formulas _))
    fun found _ _ hfound => ?_
  have hformula := Result.mapError_ok (gives_settle.1 hfound).1
  split
  · exact failsOnly_throw (isNoTextFault_of_tree? rfl)
  · rename_i t₀
    refine failsOnly_bind (failsOnly_settle fun cause hcause =>
      (h.failsOnly_expand _ t₀ cause hcause).isNoTextFault) fun t _ _ ht => ?_
    have hnodes := (h.canonical.isWritten_expand hformula (gives_settle.1 ht).1).isReadable
    refine failsOnly_bind (failsOnly_foldlM (fun known row _ => ?_) _) fun known _ _ _ => ?_
    · exact failsOnly_addScenarios (fun q => hA.group row.group q) known
    split
    · exact failsOnly_bind (failsOnly_throw (isNoTextFault_of_tree? rfl)) fun _ _ _ h =>
        (gives_throw.1 h).elim
    · refine failsOnly_bind (failsOnly_mapM fun choice _ => ?_) fun columns _ _ _ => ?_
      · exact admits_readCombination he hnodes hA _ _ _ choice
      · exact failsOnly_settle (admits_frame _)

theorem admits_enterBelow (levels : Nat) (path : List String) (label : String) :
    Result.FailsOnly e.Admits (e.enterBelow levels path label) := by
  have hcycle : e.Admits (.tree (.cycle (path ++ [label]))) :=
    IsNestingFault.isNoTextFault (Or.inl ⟨_, rfl⟩)
  cases levels with
  | zero =>
    rw [enterBelow]
    split
    · exact Result.failsOnly_error hcycle
    · exact Result.failsOnly_error (IsNestingFault.isNoTextFault (Or.inr rfl))
  | succ levels =>
    rw [enterBelow]
    split
    · exact Result.failsOnly_error hcycle
    · exact Result.failsOnly_ok _

/-- **No reader of an engine fails with an error of a text.** -/
theorem failsOnly_readerBelow_admits (h : e.KeepsTexts) (he : e.IsQuiet) (levels : Nat)
    (path : List String) : (e.readerBelow levels path).FailsOnly e.Admits := by
  -- Every name that is entered takes a level.
  induction levels using Nat.strong_induction_on generalizing path with
  | _ levels ih =>
    have hbelow {label : String} {A : Resolver Memo} (hA : e.enterBelow levels path label = .ok A) :
        A.FailsOnly e.Admits := by
      obtain ⟨l, rfl, rfl⟩ := enterBelow_ok hA
      exact ih l l.lt_succ_self _
    rw [readerBelow_eq]
    refine ⟨fun name q => failsOnly_remember ?_, fun name q => ?_, fun _ _ => failsOnly_pure _⟩
    · refine failsOnly_bind (failsOnly_settle (failsOnly_treeOf? h.canonical.formulas name))
        fun found _ _ hfound => ?_
      have hformula := Result.mapError_ok (gives_settle.1 hfound).1
      split
      · exact failsOnly_settle (failsOnly_readPrimary (fun s hs => (he.sources s hs).read name q)
          (isNoTextFault_of_tree? rfl))
      · refine failsOnly_bind (failsOnly_settle (admits_enterBelow levels path name))
          fun A _ _ hA => ?_
        refine failsOnly_bind (failsOnly_evaluate he (everywhere_of_treeOf? hformula)
          (hbelow (gives_settle.1 hA).1) q) fun v _ _ _ => ?_
        exact failsOnly_bind (failsOnly_settle (admits_asSeries v _)) fun _ _ _ _ => failsOnly_pure _
    · refine failsOnly_bind (failsOnly_settle (failsOnly_treeOf? h.canonical.groups name))
        fun found _ _ hfound => ?_
      have hformula := Result.mapError_ok (gives_settle.1 hfound).1
      split
      · refine failsOnly_bind (failsOnly_settle (admits_enterBelow levels path _)) fun A _ _ hA => ?_
        refine failsOnly_bind (failsOnly_evaluate he (everywhere_of_treeOf? hformula)
          (hbelow (gives_settle.1 hA).1) q) fun v _ _ _ => failsOnly_settle fun cause hcause => ?_
        exact isNoTextFault_of_isOperatorError (v.failsAsOperator_asTable _ _ hcause)
      · split
        · refine failsOnly_bind (failsOnly_settle (admits_enterBelow levels path _))
            fun A _ _ hA => ?_
          exact admits_readBoundGroup h he (hbelow (gives_settle.1 hA).1) _
        · split
          · exact failsOnly_pure _
          · exact failsOnly_throw (isNoTextFault_of_tree? rfl)

theorem admits_answerOf {α : Type} {x : Reading Memo α} (hx : FailsOnly e.Admits x) :
    Result.FailsOnly e.Admits (answerOf x) := fun cause hcause => hx [] cause _ (Prod.ext hcause rfl)

/-- **No read of a series fails with an error of a text**, -/
theorem admits_read (h : e.KeepsTexts) (he : e.IsQuiet) (name : String) (q : Query) :
    Result.FailsOnly e.Admits (e.read name q) := by
  unfold read
  split
  · exact Result.failsOnly_map _
      (admits_answerOf ((failsOnly_readerBelow_admits h he _ _).series name q))
  · split
    · exact Result.failsOnly_ok _
    · split
      · rename_i source hsource
        exact (he.sources _ (List.mem_of_find?_eq_some hsource)).read name q
      · exact Result.failsOnly_ok _

/-- and none of a group. -/
theorem admits_readTable (h : e.KeepsTexts) (he : e.IsQuiet) (name : String) (q : Query) :
    Result.FailsOnly e.Admits (e.readTable name q) := by
  unfold readTable
  split
  · exact Result.failsOnly_map _
      (admits_answerOf ((failsOnly_readerBelow_admits h he _ _).group name q))
  · exact Result.failsOnly_ok _

end

/-! ### Histories, insertion dates and staircases -/

section

variable {name : String}

theorem admits_expandedTree (h : e.KeepsTexts) (name : String) :
    Result.FailsOnly e.Admits (e.expandedTree name) := by
  refine Result.failsOnly_bind (failsOnly_treeOf? h.canonical.formulas name) fun found _ => ?_
  cases found with
  | none => exact Result.failsOnly_error (isNoTextFault_of_tree? rfl)
  | some t => exact fun cause hcause => (h.failsOnly_expand [] t cause hcause).isNoTextFault

/-- What is expanded can be read. -/
theorem KeepsTexts.everywhere_expandedTree (h : e.KeepsTexts) (hu : e.expandedTree name = .ok u) :
    u.Everywhere IsReadableNode := by
  obtain ⟨t, ht, hexpand⟩ := expandedTree_ok hu
  exact (h.canonical.isWritten_expand ht hexpand).isReadable

section

variable (h : e.KeepsTexts) (he : e.IsQuiet)

include h he

theorem failsOnly_reader : e.reader.FailsOnly e.Admits := failsOnly_readerBelow_admits h he _ _

/-- The history of an autotrophic call of a formula. -/
theorem admits_callHistory (hu : u.Everywhere IsReadableNode)
    (hcall : call ∈ (u.historyLeaves e.registry).autotrophic) (q : HistoryQuery) :
    FailsOnly e.Admits (e.callHistory q call) := by
  obtain ⟨hmem, op, hop, -⟩ := mem_nodes_of_autotrophic hcall
  unfold callHistory
  refine failsOnly_bind ((failsOnly_reader h he).evaluateArgs
    (fun v hv _ => admits_of_raises he ((hu.node hmem).node hv)) _) fun args _ _ _ => ?_
  rw [hop]
  cases op with
  | builtin b =>
    exact failsOnly_settle fun cause hcause =>
      isNoTextFault_of_isOperatorError (b.failsOnly_history _ _ cause hcause)
  | extension x =>
    obtain ⟨symbol, -, hfind⟩ := Option.bind_eq_some_iff.1 hop
    exact failsOnly_settle ((he.extensions symbol x hfind).history _ _)

theorem admits_callDates (hu : u.Everywhere IsReadableNode)
    (hcall : call ∈ (u.historyLeaves e.registry).autotrophic) (inserted : Window) :
    FailsOnly e.Admits (e.callDates inserted call) := by
  obtain ⟨hmem, op, hop, -⟩ := mem_nodes_of_autotrophic hcall
  unfold callDates
  rw [hop]
  refine failsOnly_bind ((failsOnly_reader h he).evaluateArgs
    (fun v hv _ => admits_of_raises he ((hu.node hmem).node hv)) _) fun args _ _ _ => ?_
  cases op with
  | builtin b =>
    exact failsOnly_settle fun cause hcause =>
      isNoTextFault_of_isOperatorError (b.failsOnly_insertionDates _ _ cause hcause)
  | extension x =>
    obtain ⟨symbol, -, hfind⟩ := Option.bind_eq_some_iff.1 hop
    exact failsOnly_settle ((he.extensions symbol x hfind).insertionDates _ _)

theorem admits_backfillSeries (q : HistoryQuery) (first : InsertionDate) (leaf : String × History) :
    Result.FailsOnly e.Admits (e.backfillSeries q first leaf) := by
  unfold backfillSeries
  split
  · refine Result.failsOnly_bind (admits_read h he _ _) fun found _ => ?_
    cases found <;> exact Result.failsOnly_ok _
  · exact Result.failsOnly_ok _

theorem admits_backfillCall {leaf : String × (Tree × History)}
    (hleaf : leaf.2.1.Everywhere IsReadableNode) (q : HistoryQuery) (first : InsertionDate) :
    FailsOnly e.Admits (e.backfillCall name q first leaf) := by
  obtain ⟨text, call, history⟩ := leaf
  unfold backfillCall
  dsimp only
  split
  · exact failsOnly_bind (failsOnly_evaluate he hleaf (failsOnly_reader h he) _) fun v _ _ _ =>
      failsOnly_bind (failsOnly_settle (admits_asSeries v _)) fun _ _ _ _ => failsOnly_pure _
  · exact failsOnly_pure _

theorem admits_backfill {known : Replayed}
    (hcalls : ∀ leaf ∈ known.calls.entries, leaf.2.1.Everywhere IsReadableNode) (q : HistoryQuery)
    (dates : List InsertionDate) : FailsOnly e.Admits (e.backfill name q dates known) := by
  cases dates with
  | nil => exact failsOnly_pure _
  | cons first rest =>
    refine failsOnly_bind (failsOnly_settle (Result.failsOnly_mapM fun leaf _ => ?_)) fun _ _ _ _ =>
      failsOnly_bind (failsOnly_mapM fun leaf hleaf => ?_) fun _ _ _ _ => failsOnly_pure _
    · exact admits_backfillSeries h he q first leaf
    · exact admits_backfillCall h he (hcalls leaf hleaf) q first

theorem admits_replayAt (hu : u.Everywhere IsReadableNode) (q : HistoryQuery) (known : Replayed)
    (date : InsertionDate) : FailsOnly e.Admits (e.replayAt name u q known date) := by
  have hreader := failsOnly_reader h he
  have hreplaying : (replaying e.reader known).FailsOnly e.Admits := by
    refine ⟨fun name q => ?_, hreader.group, fun call q => ?_⟩
    · unfold replaying
      dsimp only
      split
      · exact failsOnly_pure _
      · exact hreader.series name q
    · unfold replaying
      dsimp only
      split <;> exact failsOnly_pure _
  exact failsOnly_bind (failsOnly_evaluate he hu hreplaying _) fun v _ _ _ =>
    failsOnly_bind (failsOnly_settle (admits_asSeries v _)) fun _ _ _ _ => failsOnly_pure _

/-- **No replay fails with an error of a text**, if what gives the histories of leaves does not. -/
theorem admits_replay {leafHistory : String → HistoryQuery → Except EngineError (Option History)}
    {q : HistoryQuery} (hleaf : ∀ leaf, Result.FailsOnly e.Admits (leafHistory leaf q.absolute))
    (hu : u.Everywhere IsReadableNode) :
    Result.FailsOnly e.Admits (e.replay leafHistory name u q) := by
  rw [replay_eq]
  refine Result.failsOnly_bind (Result.failsOnly_mapM fun leaf _ => ?_) fun series _ =>
    admits_answerOf (failsOnly_bind (failsOnly_mapM fun call hcall => ?_) fun calls _ _ hcalls => ?_)
  · refine Result.failsOnly_bind (hleaf leaf) fun found _ => ?_
    cases found with
    | none => exact Result.failsOnly_error (isNoTextFault_of_tree? rfl)
    | some history => exact Result.failsOnly_ok _
  · exact failsOnly_bind (admits_callHistory h he hu hcall _) fun _ _ _ _ => failsOnly_pure _
  · have hknown (leaf : String × (Tree × History)) (hmem : leaf ∈ (OrderedMap.ofList calls).entries) :
        leaf.2.1.Everywhere IsReadableNode := by
      obtain ⟨call, hcall, m, m', hgives⟩ := Result.exists_of_mem_right
        (forall₂_of_gives_mapM hcalls) (OrderedMap.mem_ofList hmem)
      obtain ⟨history, _, -, hgives⟩ := gives_bind.1 hgives
      obtain rfl : (call.text, call, history) = leaf := (gives_pure.1 hgives).1
      exact hu.node (mem_nodes_of_autotrophic hcall).1
    exact failsOnly_bind (admits_backfill h he hknown _ _) fun known _ _ _ =>
      failsOnly_bind (failsOnly_mapM fun date _ => admits_replayAt h he hu q known date)
        fun _ _ _ _ => failsOnly_pure _

theorem admits_asAsked (q : HistoryQuery) (history : History) :
    Result.FailsOnly e.Admits (e.asAsked name q history) := by
  unfold asAsked
  split
  · exact Result.failsOnly_ok _
  · split
    · exact Result.failsOnly_ok _
    · exact Result.failsOnly_bind (admits_read h he _ _) fun _ _ => Result.failsOnly_ok _

theorem admits_historyWithin (levels : Nat) (name : String) (q : HistoryQuery) :
    Result.FailsOnly e.Admits (e.historyWithin levels name q) := by
  induction levels generalizing name q with
  | zero => exact Result.failsOnly_error (IsNestingFault.isNoTextFault (Or.inl ⟨_, rfl⟩))
  | succ levels ih =>
    rw [historyWithin]
    split
    · refine Result.failsOnly_bind (admits_expandedTree h name) fun u hu => ?_
      refine Result.failsOnly_bind (admits_replay h he (fun leaf => ih leaf _)
        (h.everywhere_expandedTree hu)) fun history _ => ?_
      exact Result.failsOnly_bind (admits_asAsked h he q history) fun _ _ => Result.failsOnly_ok _
    · split
      · exact Result.failsOnly_bind (admits_asAsked h he q _) fun _ _ => Result.failsOnly_ok _
      · split
        · rename_i source hsource
          exact (he.sources _ (List.mem_of_find?_eq_some hsource)).history name q
        · exact Result.failsOnly_ok _

theorem admits_insertionDatesWithin (levels : Nat) (name : String) (inserted : Window) :
    Result.FailsOnly e.Admits (e.insertionDatesWithin levels name inserted) := by
  induction levels generalizing name with
  | zero => exact Result.failsOnly_error (IsNestingFault.isNoTextFault (Or.inl ⟨_, rfl⟩))
  | succ levels ih =>
    rw [insertionDatesWithin]
    split
    · refine Result.failsOnly_bind (admits_expandedTree h name) fun u hu => ?_
      have hnodes := h.everywhere_expandedTree hu
      refine Result.failsOnly_bind (Result.failsOnly_mapM fun leaf _ => ih leaf) fun _ _ =>
        Result.failsOnly_bind (admits_answerOf (failsOnly_mapM fun call hcall => ?_)) fun _ _ =>
          Result.failsOnly_ok _
      exact admits_callDates h he hnodes hcall inserted
    · split
      · exact Result.failsOnly_ok _
      · split
        · rename_i source hsource
          exact (he.sources _ (List.mem_of_find?_eq_some hsource)).insertionDates name inserted
        · exact Result.failsOnly_error (isNoTextFault_of_tree? rfl)

theorem admits_replayStaircase (name : String) (delay : Span) (window : Window) :
    Result.FailsOnly e.Admits (e.replayStaircase name delay window) := by
  refine Result.failsOnly_bind (admits_historyWithin h he _ _ _) fun found _ => ?_
  cases found with
  | none => exact Result.failsOnly_ok _
  | some history => exact Result.failsOnly_bind (admits_frame _) fun _ _ => Result.failsOnly_ok _

theorem admits_staircaseWithin (delay : Span) (window : Window) (levels : Nat) (name : String) :
    Result.FailsOnly e.Admits (e.staircaseWithin delay window levels name) := by
  induction levels generalizing name with
  | zero => exact Result.failsOnly_error (IsNestingFault.isNoTextFault (Or.inl ⟨_, rfl⟩))
  | succ levels ih =>
    rw [staircaseWithin]
    split
    · refine Result.failsOnly_bind (admits_expandedTree h name) fun u hu => ?_
      split
      · refine Result.failsOnly_bind ?_ fun _ _ => Result.failsOnly_ok _
        refine Result.failsOnly_bind (Result.failsOnly_mapM fun leaf _ => ?_) fun stairs _ => ?_
        · refine Result.failsOnly_bind (ih leaf) fun found _ => ?_
          cases found with
          | none => exact Result.failsOnly_error (isNoTextFault_of_tree? rfl)
          | some s => exact Result.failsOnly_ok _
        · refine Result.failsOnly_bind (admits_answerOf (failsOnly_evaluate he
            (h.everywhere_expandedTree hu) ?_ _)) fun v _ =>
              Result.failsOnly_bind (admits_asSeries v _) fun _ _ => Result.failsOnly_ok _
          -- What is climbed is read in the same way as what is bound.
          exact failsOnly_withBound (failsOnly_reader h he) _
      · exact admits_replayStaircase h he name delay window
    · exact admits_replayStaircase h he name delay window

end

end

/-! ### Engines that are reached -/

/-- **The texts that an engine keeps are canonical, and can always be read**, whatever it was asked:
every text is read, and is written again as it is. So no formula is missed for its text; no renaming
fails because of a text, and no expansion; and nothing that is read, if no extension and no source
fails with an error of a text. -/
theorem parse_record_of_reaches {store : Store} {config : Config} {registry : Registry}
    {first : Engine} (hfirst : create store config registry = .ok first)
    (he : Reaches (fun _ _ => True) first e) :
    (∀ record, record ∈ e.formulas.values ∨ record ∈ e.groupFormulas.values →
      ∃ t, Tree.parse record.text = .ok t ∧ t.text = record.text) ∧
    (∀ name f, e.formulaTree? name ≠ .error f ∧ e.groupTree? name ≠ .error f) ∧
    (∀ old new f, (e.rename old new).answer ≠ .error (.tree f)) ∧
    (∀ stop, (∀ t, Result.FailsOnly (IsNestingFault e.config.maxDepth) (e.expand stop t)) ∧
      ∀ name, Result.FailsOnly (IsNestingFault e.config.maxDepth) (e.expandedFormula name stop)) ∧
    (e.IsQuiet → ∀ name,
      (∀ q, Result.FailsOnly (IsNoTextFault e.config.maxDepth) (e.read name q)) ∧
      (∀ q, Result.FailsOnly (IsNoTextFault e.config.maxDepth) (e.readTable name q)) ∧
      (∀ q, Result.FailsOnly (IsNoTextFault e.config.maxDepth) (e.history name q)) ∧
      (∀ inserted, Result.FailsOnly (IsNoTextFault e.config.maxDepth)
        (e.insertionDates name inserted)) ∧
      ∀ delay window, Result.FailsOnly (IsNoTextFault e.config.maxDepth)
        (e.staircase name delay window)) := by
  have h := keepsTexts_of_reaches hfirst he
  refine ⟨fun record hrecord => ?_, fun name f => ?_, h.rename_ne_tree, fun stop => ?_,
    fun hquiet name => ⟨admits_read h hquiet name, admits_readTable h hquiet name,
      admits_historyWithin h hquiet _ name, admits_insertionDatesWithin h hquiet _ name,
      fun delay window => admits_staircaseWithin h hquiet delay window _ name⟩⟩
  · rcases hrecord with hrecord | hrecord <;> obtain ⟨⟨name, _⟩, hmem, rfl⟩ := List.mem_map.1 hrecord
    · exact (h.formulas name _
        ((OrderedMap.mem_entries_iff h.canonical.formulas.sorted).1 hmem)).parse
    · exact (h.groups name _ ((OrderedMap.mem_entries_iff h.canonical.groups.sorted).1 hmem)).parse
  · exact ⟨h.formulas.treeOf?_ne_error name f, h.groups.treeOf?_ne_error name f⟩
  · exact ⟨h.failsOnly_expand stop, fun name => h.failsOnly_expandedFormula name stop⟩

/-- The calls that register formulas with a number that is too great for a double, and rename the
series that they refer to. -/
def oddCalls : List Call :=
  [.updateSeries "a" (.ofPoints "a" [(dayOf2024 0, 1.0)]) (dayOf2024 0) false,
    .registerFormula "f" "(+ 1e999 (series \"a\"))" ⟨none, false⟩,
    .registerGroupFormula "g" "(* 1e999 (group-add (series \"a\")))" ⟨none, false⟩,
    .rename "a" "(\"\\\n"]

/-- The engine after these calls. -/
def odd : Engine := (overNothing .initial).performAll oddCalls

/-- The formulas are written with a word for the number, and with a name of what is escaped. -/
theorem parse_record_odd : ∃ record record' t u, record ∈ odd.formulas.values ∧
    record.text = "(+ inf (series \"(\\\"\\\\\\n\"))" ∧ Tree.parse record.text = .ok t ∧
    t.text = record.text ∧ record' ∈ odd.groupFormulas.values ∧ Tree.parse record'.text = .ok u ∧
    u.text = record'.text ∧ (∀ old new f, (odd.rename old new).answer ≠ .error (.tree f)) ∧
    ∀ q, Result.FailsOnly (IsNoTextFault 64) (odd.read "f" q) := by
  have hreaches : Reaches (fun _ _ => True) (overNothing .initial) odd :=
    Reaches.refl.performAll oddCalls fun _ _ _ => trivial
  have htexts : odd.formulas.values.map FormulaRecord.text =
        ["(+ inf (series \"(\\\"\\\\\\n\"))"] ∧
      odd.groupFormulas.values.map FormulaRecord.text =
        ["(* inf (group-add (series \"(\\\"\\\\\\n\")))"] := by decide +kernel
  obtain ⟨record, hrecord, htext⟩ := List.map_eq_singleton_iff.1 htexts.1
  obtain ⟨record', hrecord', -⟩ := List.map_eq_singleton_iff.1 htexts.2
  have hmem : record ∈ odd.formulas.values := hrecord ▸ List.mem_cons_self
  have hmem' : record' ∈ odd.groupFormulas.values := hrecord' ▸ List.mem_cons_self
  obtain ⟨hparse, -, hrename, -, hreads⟩ := parse_record_of_reaches create_initial hreaches
  obtain ⟨t, ht, htagain⟩ := hparse record (Or.inl hmem)
  obtain ⟨u, hu, huagain⟩ := hparse record' (Or.inr hmem')
  have hconsistent : odd.Consistent := ((reachable_overNothing rfl).performAll oddCalls).consistent
  have hread := (hreads (isQuiet_builtin hconsistent.registry hconsistent.sources) "f").1
  have hdepth : odd.config.maxDepth = 64 := by decide +kernel
  rw [hdepth] at hread
  exact ⟨record, record', t, u, hmem, htext, ht, htagain, hmem', hu, huagain, hrename, hread⟩

end Engine

end SeriesAlgebra
