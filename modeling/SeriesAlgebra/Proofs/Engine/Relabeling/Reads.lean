import SeriesAlgebra.Proofs.Engine.Backfill
import SeriesAlgebra.Proofs.Evaluation.Relabeling
import SeriesAlgebra.Proofs.Formula.Relabeling.Expansion
import SeriesAlgebra.Proofs.Series.SimilarHistory

/-!
# Reading series that have other names

An engine may hold the series and the formulas of another one under other names, and with
other names in the formulas (`Engine.Relabels`). Then what one engine reads the other
reads as well under the other name, up to the names of series (`Engine.Relabels.read`).
What the readers remember and which names they are about to read stay in step.
-/

namespace SeriesAlgebra

open Evaluation Reading Value Series

namespace Engine

/-- Whether two stored series differ at most in the names of their versions. -/
def SimilarStored (s s' : StoredSeries) : Prop := History.Similar s.versions s'.versions

/-- **Whether an engine holds what another one holds**, under other names, as far as names are of
interest. -/
structure Relabels (f : String → String) (P : String → Prop) (e e' : Engine) : Prop where
  source : e.Consistent
  target : e'.Consistent
  config : e'.config = e.config
  formulas : Tree.RelabelsAll f P e.formulaTree? e'.formulaTree?
  stored : ∀ name, P name →
    Option.Rel SimilarStored (e.store.series.find? name) (e'.store.series.find? (f name))
  known : ∀ name stored, e.store.series.find? name = some stored → P name

variable {f : String → String} {P : String → Prop} {e e' : Engine} {name : String} {q : Query}

/-! ### Stored series -/

/-- What similar versions show is similar. -/
theorem similar_shown {v v' : Option Series} (h : Option.Rel Similar v v') (name name' : String)
    (w : Window) : (shown v name w).Similar (shown v' name' w) := by
  cases h with
  | none => exact ⟨rfl, rfl⟩
  | some h => exact h.window w

theorem read?_eq (s : Store) (name : String) (q : Query) :
    s.read? name q = (s.series.find? name).map fun stored =>
      shown (History.version? stored.versions q.revision) name q.window := by
  unfold Store.read? shown
  congr 1
  funext stored
  cases History.version? stored.versions q.revision <;> rfl

theorem Relabels.readStored (h : Relabels f P e e') (hname : P name) (q : Query) :
    Option.Rel Similar (e.store.read? name q) (e'.store.read? (f name) q) := by
  have hstored := h.stored name hname
  rw [read?_eq, read?_eq]
  generalize e.store.series.find? name = stored at hstored
  generalize e'.store.series.find? (f name) = stored' at hstored
  cases hstored with
  | none => exact .none
  | some hs => exact .some (similar_shown (History.Similar.version? hs q.revision) _ _ _)

/-- Without sources, what is no formula is read from the store. -/
theorem readPrimary_eq (he : e.Consistent) (name : String) (q : Query) :
    e.readPrimary name q = (e.store.read? name q).elim (.error (.unknownName name)) .ok := by
  unfold readPrimary sourceOf?
  rw [he.sources]
  cases e.store.read? name q <;> rfl

theorem Relabels.readPrimary (h : Relabels f P e e') (hname : P name) (q : Query) :
    Yields Similar (e.readPrimary name q) (e'.readPrimary (f name) q) := by
  have hread := h.readStored hname q
  rw [readPrimary_eq h.source, readPrimary_eq h.target]
  generalize e.store.read? name q = s at hread
  generalize e'.store.read? (f name) q = s' at hread
  cases hread with
  | none => exact Yields.error
  | some hs => exact Yields.ok hs

/-! ### Memory -/

/-- Whether readers remember the same, under other names. -/
def SameMemo (f : String → String) (P : String → Prop) (m m' : Memo) : Prop :=
  ∀ name q, P name → Option.Rel Similar (m.lookup (name, q)) (m'.lookup (f name, q))

theorem sameMemo_nil : SameMemo f P [] [] := fun _ _ _ => .none

theorem SameMemo.cons (hf : ∀ a b, P a → P b → f a = f b → a = b) {m m' : Memo}
    (hm : SameMemo f P m m') (hname : P name) {s s' : Series} (hs : s.Similar s') :
    SameMemo f P (((name, q), s) :: m) (((f name, q), s') :: m') := by
  intro other q' hother
  by_cases heq : (other, q') = (name, q)
  · obtain ⟨rfl, rfl⟩ := Prod.mk.inj heq
    rw [List.lookup_cons_self, List.lookup_cons_self]
    exact .some hs
  · have hne : (f other, q') ≠ (f name, q) := fun heq' => by
      obtain ⟨hf', rfl⟩ := Prod.mk.inj heq'
      exact heq (Prod.ext (hf other name hother hname hf') rfl)
    rw [List.lookup_cons, List.lookup_cons, beq_false_of_ne heq, beq_false_of_ne hne]
    exact hm other q' hother

theorem SameMemo.holds_remember (hf : ∀ a b, P a → P b → f a = f b → a = b) (hname : P name)
    {compute compute' : Reading Memo Series}
    (h : (Comparison.lockstep (SameMemo f P)).Holds Similar compute fun _ => compute') :
    (Comparison.lockstep (SameMemo f P)).Holds Similar (Memo.remember (name, q) compute)
      fun _ => Memo.remember (f name, q) compute' := by
  intro m m' hm s m₁ hs
  have hlookup := hm name q hname
  rcases gives_remember.1 hs with ⟨hfound, rfl⟩ | ⟨hnone, m₂, hcompute, rfl⟩
  · rw [hfound] at hlookup
    cases hfound' : m'.lookup (f name, q) with
    | none =>
      rw [hfound'] at hlookup
      cases hlookup
    | some s' =>
      rw [hfound'] at hlookup
      cases hlookup with
      | some hss' => exact ⟨s', m', gives_remember.2 (Or.inl ⟨hfound', rfl⟩), hss', hm⟩
  · obtain ⟨s', m₂', hcompute', hss', hm₂⟩ := h m m' hm s m₂ hcompute
    have hnone' : m'.lookup (f name, q) = none := by
      rw [hnone] at hlookup
      cases hfound' : m'.lookup (f name, q) with
      | none => rfl
      | some s' =>
        rw [hfound'] at hlookup
        cases hlookup
    exact ⟨s', _, gives_remember.2 (Or.inr ⟨hnone', m₂', hcompute', rfl⟩), hss',
      hm₂.cons hf hname hss'⟩

/-! ### Readers -/

/-- A formula is read as the one of the other name, if what it refers to is. -/
theorem Relabels.holds_readSeries (h : Relabels f P e e')
    {enter enter' : String → Except EngineError (Resolver Memo)}
    (henter : ∀ label below, P label → enter label = .ok below →
      ∃ below', enter' (f label) = .ok below' ∧ below.autotrophic = Resolver.noAutotrophic ∧
        below'.autotrophic = Resolver.noAutotrophic ∧
        ∀ name q, P name → (Comparison.lockstep (SameMemo f P)).Holds Similar
          (below.series name q) fun _ => below'.series (f name) q)
    (hname : P name) (q : Query) :
    (Comparison.lockstep (SameMemo f P)).Holds Similar (e.readSeries enter name q)
      fun _ => e'.readSeries enter' (f name) q := by
  intro m m' hm s m₁ hs
  cases htree : e.formulaTree? name with
  | error cause => exact absurd hs (not_gives_readSeries htree)
  | ok tree =>
    cases tree with
    | none =>
      rw [readSeries_primary htree] at hs
      obtain ⟨hprimary, rfl⟩ := gives_settle.1 hs
      obtain ⟨s', hs', hss'⟩ := h.readPrimary hname q s hprimary
      refine ⟨s', m', ?_, hss', hm⟩
      rw [readSeries_primary (h.formulas.none name hname htree)]
      exact gives_settle.2 ⟨hs', rfl⟩
    | some t =>
      obtain ⟨below, v, r, hbelow, hv, rfl, rfl⟩ := (gives_readSeries_formula htree).1 hs
      obtain ⟨below', hbelow', hauto, hauto', hseries⟩ := henter name below hname hbelow
      obtain ⟨u, hu, htu⟩ := h.formulas.some name t hname htree
      rw [h.source.registry] at hv
      obtain ⟨w, m₁', hw, hvw, hm₁⟩ := (Comparison.lockstep (SameMemo f P)).holds_relabeled
        (B := fun _ => below') (h.formulas.formula name t htree).nodes htu
        (fun n q hn => hseries n q (h.formulas.leaves name t htree n hn))
        (fun items q _ _ => by
          rw [hauto, hauto']
          exact (Comparison.lockstep (SameMemo f P)).pure .none) q m m' hm _ m₁ hv
      cases hvw with
      | @series _ r' hr =>
        refine ⟨r'.withName (f name), m₁', ?_, hr.withName _ _, hm₁⟩
        refine (gives_readSeries_formula hu).2 ⟨below', _, r', hbelow', ?_, rfl, rfl⟩
        rw [h.target.registry]
        exact hw

theorem readerBelow_series_zero (path : List String) : (e.readerBelow 0 path).series name q =
    Memo.remember (name, q) (e.readSeries (fun label =>
      if path.contains label then .error (.tree (.cycle (path ++ [label])))
      else .error (.tree (.tooDeep e.config.maxDepth))) name q) := rfl

theorem readerBelow_series_succ (levels : Nat) (path : List String) :
    (e.readerBelow (levels + 1) path).series name q =
    Memo.remember (name, q) (e.readSeries (fun label =>
      if path.contains label then .error (.tree (.cycle (path ++ [label])))
      else .ok (e.readerBelow levels (path ++ [label]))) name q) := rfl

/-- **A reader reads what the reader of the other names reads.** -/
theorem Relabels.holds_readerBelow (h : Relabels f P e e') (levels : Nat) {path : List String}
    (hpath : ∀ n ∈ path, P n) (hname : P name) (q : Query) :
    (Comparison.lockstep (SameMemo f P)).Holds Similar ((e.readerBelow levels path).series name q)
      fun _ => (e'.readerBelow levels (path.map f)).series (f name) q := by
  induction levels generalizing path name q with
  | zero =>
    rw [readerBelow_series_zero]
    refine SameMemo.holds_remember h.formulas.injective hname (h.holds_readSeries
      (fun label below _ hbelow => ?_) hname q)
    split at hbelow <;> cases hbelow
  | succ levels ih =>
    rw [readerBelow_series_succ]
    refine SameMemo.holds_remember h.formulas.injective hname (h.holds_readSeries
      (fun label below hlabel hbelow => ?_) hname q)
    split at hbelow
    · cases hbelow
    · rename_i hnot
      obtain rfl := Except.ok.inj hbelow
      have hnot' : f label ∉ path.map f := h.formulas.not_mem_map hpath hlabel
        fun hmem => hnot (List.contains_iff_mem.2 hmem)
      have hpath' : ∀ n ∈ path ++ [label], P n := fun n hn => by
        rcases List.mem_append.1 hn with hn | hn
        · exact hpath n hn
        · exact List.mem_singleton.1 hn ▸ hlabel
      refine ⟨_, if_neg fun hmem => hnot' (List.contains_iff_mem.1 hmem),
        readerBelow_autotrophic _ _, readerBelow_autotrophic _ _, fun n q hn => ?_⟩
      have hbelow := ih hpath' hn q
      rw [List.map_append] at hbelow
      exact hbelow

theorem Relabels.holds_reader (h : Relabels f P e e') (hname : P name) (q : Query) :
    (Comparison.lockstep (SameMemo f P)).Holds Similar (e.reader.series name q)
      fun _ => e'.reader.series (f name) q := by
  unfold reader
  rw [h.config]
  exact h.holds_readerBelow _ (fun _ hn => absurd hn List.not_mem_nil) hname q

/-- What is read from the start. -/
theorem yields_answerOf {α β : Type} {R : α → β → Prop} {x : Reading Memo α} {y : Reading Memo β}
    (h : (Comparison.lockstep (SameMemo f P)).Holds R x fun _ => y) :
    Yields R (answerOf x) (answerOf y) := by
  intro a ha
  obtain ⟨m, hm⟩ := gives_of_answerOf ha
  obtain ⟨b, m', hb, hab, -⟩ := h [] [] sameMemo_nil a m hm
  exact ⟨b, congrArg Prod.fst hb, hab⟩

theorem Relabels.contains_formulas (h : Relabels f P e e') (hname : P name) :
    e'.formulas.contains (f name) = e.formulas.contains name := by
  cases htree : e.formulaTree? name with
  | error cause => exact absurd htree (h.source.formulas.formulaTree?_ne_error name cause)
  | ok tree =>
    cases tree with
    | none => rw [not_contains htree, not_contains (h.formulas.none name hname htree)]
    | some t =>
      obtain ⟨u, hu, -⟩ := h.formulas.some name t hname htree
      rw [contains_of_formulaTree? htree, contains_of_formulaTree? hu]

/-- **What is read of a series is read of the series of the other name.** -/
theorem Relabels.read (h : Relabels f P e e') (hname : P name) (q : Query) :
    Yields (Option.Rel Similar) (e.read name q) (e'.read (f name) q) := by
  have hread {e : Engine} (he : e.Consistent) (name : String) : e.read name q =
      if e.formulas.contains name then (answerOf (e.reader.series name q)).map some
      else .ok (e.store.read? name q) := by
    unfold Engine.read sourceOf?
    rw [he.sources]
    cases e.store.read? name q <;> rfl
  rw [hread h.source, hread h.target, h.contains_formulas hname]
  split
  · exact Yields.map (yields_answerOf (h.holds_reader hname q)) fun _ _ => .some
  · exact Yields.ok (h.readStored hname q)

end Engine

end SeriesAlgebra
