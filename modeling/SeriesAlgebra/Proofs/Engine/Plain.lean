import SeriesAlgebra.Proofs.Engine.Reachable
import SeriesAlgebra.Proofs.Engine.Remembering
import SeriesAlgebra.Proofs.Evaluation.Leaves

/-!
# Reading without memory

The reader of an engine remembers what it has read and keeps a path of names. What it
reads does not depend on either: there is a reader without memory and without a path
(`Engine.plainReader`), which only has levels to go down, and whatever a reader gives,
the plain reader gives as well if it has enough levels, up to the names of series
(`Engine.means_of_evaluate`).
-/

namespace SeriesAlgebra

open Evaluation Reading Value Series

namespace Engine

variable (e : Engine)

/-- The reader without memory that enters formulas in a given way. -/
def plainEntering (enter : String → Except EngineError (Resolver Unit)) : Resolver Unit where
  series := e.readSeries enter
  group name _ := throw (.unknownGroup name)
  autotrophic := Resolver.noAutotrophic

/-- **The reader without memory and without a path**, with a number of levels. -/
def plainReader : Nat → Resolver Unit
  | 0 => e.plainEntering fun _ => .error (.tree (.tooDeep e.config.maxDepth))
  | n + 1 => e.plainEntering fun _ => .ok (plainReader n)

/-- Whether a series is read without memory. -/
def Reads (name : String) (q : Query) (s : Series) : Prop :=
  ∃ k, ∀ n, k ≤ n → Gives ((e.plainReader n).series name q) () s ()

/-- Whether a formula has a value without memory. -/
def Means (t : Tree) (q : Query) (v : Value) : Prop :=
  ∃ k, ∀ n, k ≤ n → Gives (evaluate .builtin (e.plainReader n) t q) () v ()

/-- Whether only that is remembered which is read without memory. -/
def SoundMemo (memo : Memo) : Prop :=
  ∀ name q s, memo.lookup (name, q) = some s → ∃ s', s.Similar s' ∧ e.Reads name q s'

theorem soundMemo_nil : e.SoundMemo [] := fun _ _ _ h => by cases h

variable {e}

theorem plainReader_series_zero : (e.plainReader 0).series =
    e.readSeries fun _ => .error (.tree (.tooDeep e.config.maxDepth)) := rfl

theorem plainReader_series_succ (n : Nat) : (e.plainReader (n + 1)).series =
    e.readSeries fun _ => .ok (e.plainReader n) := rfl

theorem plainReader_autotrophic (n : Nat) :
    (e.plainReader n).autotrophic = Resolver.noAutotrophic := by
  cases n <;> rfl

/-! ### Readings of the store and of formulas -/

/-- What reading gives a formula. -/
theorem gives_readSeries_formula {σ : Type} {enter : String → Except EngineError (Resolver σ)}
    {name : String} {t : Tree} (hname : e.formulaTree? name = .ok (some t)) {q : Query} {m m' : σ}
    {s : Series} : Gives (e.readSeries enter name q) m s m' ↔ ∃ below v r, enter name = .ok below ∧
      Gives (evaluate e.registry below t q) m v m' ∧ v = .series r ∧ s = r.withName name := by
  unfold readSeries
  rw [hname]
  change Gives (settle (enter name) >>= fun below => _) m s m' ↔ _
  simp only [gives_bind, gives_settle, gives_pure]
  constructor
  · rintro ⟨below, _, ⟨hbelow, rfl⟩, v, m'', hv, r, _, ⟨hr, rfl⟩, rfl, rfl⟩
    refine ⟨below, v, r, hbelow, hv, ?_, rfl⟩
    cases v with
    | series s => rw [Except.ok.inj hr]
    | _ => cases hr
  · rintro ⟨below, v, r, hbelow, hv, rfl, rfl⟩
    exact ⟨below, m, ⟨hbelow, rfl⟩, _, m', hv, r, m', ⟨rfl, rfl⟩, rfl, rfl⟩

/-- A name whose formula cannot be told is not read. -/
theorem not_gives_readSeries {σ : Type} {enter : String → Except EngineError (Resolver σ)}
    {name : String} {cause : TreeError} (hname : e.formulaTree? name = .error cause) {q : Query}
    {m m' : σ} {s : Series} : ¬ Gives (e.readSeries enter name q) m s m' := by
  unfold readSeries
  rw [hname]
  intro h
  obtain ⟨x, _, hx, -⟩ := gives_bind.1 h
  cases (gives_settle.1 hx).1

theorem readSeries_primary {σ : Type} {enter : String → Except EngineError (Resolver σ)}
    {name : String} (hname : e.formulaTree? name = .ok none) (q : Query) :
    e.readSeries enter name q = settle (e.readPrimary name q) := by
  unfold readSeries
  rw [hname]
  rfl

/-- What is no formula is read without memory as from the store. -/
theorem plainReader_primary {name : String} (hname : e.formulaTree? name = .ok none) (n : Nat)
    (q : Query) : (e.plainReader n).series name q = settle (e.readPrimary name q) := by
  cases n with
  | zero => rw [plainReader_series_zero, readSeries_primary hname]
  | succ n => rw [plainReader_series_succ, readSeries_primary hname]

/-! ### Memory -/

/-- Remembering keeps what is remembered sound. -/
theorem holds_remember {name : String} {q : Query} {compute : Reading Memo Series}
    (h : (Comparison.eventually e.SoundMemo).Holds Similar compute
      fun n => (e.plainReader n).series name q) :
    (Comparison.eventually e.SoundMemo).Holds Similar (Memo.remember (name, q) compute)
      fun n => (e.plainReader n).series name q := by
  intro m hm s m' hs
  rcases gives_remember.1 hs with ⟨hlookup, rfl⟩ | ⟨-, m'', hcompute, rfl⟩
  · obtain ⟨s', hs', hreads⟩ := hm name q s hlookup
    exact ⟨hm, s', hs', hreads⟩
  · obtain ⟨hm'', s', hs', hreads⟩ := h m hm s m'' hcompute
    refine ⟨fun name' q' r hr => ?_, s', hs', hreads⟩
    rw [List.lookup_cons] at hr
    split at hr
    · rename_i heq
      obtain ⟨rfl, rfl⟩ := Prod.mk.inj (beq_iff_eq.1 heq)
      obtain rfl := Option.some.inj hr
      exact ⟨s', hs', hreads⟩
    · exact hm'' name' q' r hr

/-! ### Readers -/

/-- What is kept is read back from its text. -/
theorem AreKept.isReadBack {e : Engine} (h : AreKept e.formulas) {name : String} {t : Tree}
    (ht : e.formulaTree? name = .ok (some t)) : t.IsReadBack := by
  obtain ⟨record, -, hparse⟩ := formulaTree?_some ht
  exact ⟨Tree.isReadable_of_parse hparse, (h.isKept ht).canonical⟩

namespace Consistent

/-- The tree of a formula gives a series. -/
theorem isKept {e : Engine} (h : e.Consistent) {name : String} {t : Tree}
    (ht : e.formulaTree? name = .ok (some t)) : t.IsKept := h.formulas.isKept ht

theorem isFormula {e : Engine} (h : e.Consistent) (name : String) (t : Tree)
    (ht : e.formulaTree? name = .ok (some t)) : t.IsFormula := (h.isKept ht).formula

theorem isList {e : Engine} (h : e.Consistent) (name : String) (t : Tree)
    (ht : e.formulaTree? name = .ok (some t)) : t.literal? = none := (h.isFormula name t ht).isList

/-- The tree of a formula is read back from its text. -/
theorem isReadBack {e : Engine} (h : e.Consistent) {name : String} {t : Tree}
    (ht : e.formulaTree? name = .ok (some t)) : t.IsReadBack := h.formulas.isReadBack ht

end Consistent

theorem holds_plain_readSeries (he : e.Consistent) {enter : String → Except EngineError (Resolver Memo)}
    (henter : ∀ label below, enter label = .ok below →
      below.autotrophic = Resolver.noAutotrophic ∧
      ∀ name q, (Comparison.eventually e.SoundMemo).Holds Similar (below.series name q)
        fun n => (e.plainReader n).series name q) (name : String) (q : Query) :
    (Comparison.eventually e.SoundMemo).Holds Similar (e.readSeries enter name q)
      fun n => (e.plainReader n).series name q := by
  intro m hm s m' hs
  cases hname : e.formulaTree? name with
  | error cause => exact absurd hs (not_gives_readSeries hname)
  | ok tree =>
    cases tree with
    | none =>
      rw [readSeries_primary hname] at hs
      obtain ⟨hprimary, rfl⟩ := gives_settle.1 hs
      refine ⟨hm, s, Series.Similar.refl s, 0, fun n _ => ?_⟩
      change Gives ((e.plainReader n).series name q) () s ()
      rw [plainReader_primary hname]
      exact gives_settle.2 ⟨hprimary, rfl⟩
    | some t =>
      obtain ⟨below, v, r, hbelow, hv, rfl, rfl⟩ := (gives_readSeries_formula hname).1 hs
      obtain ⟨hautotrophic, hseries⟩ := henter name below hbelow
      rw [he.registry] at hv
      obtain ⟨hm', w, hw, k, hk⟩ := (Comparison.eventually e.SoundMemo).holds_evaluate hautotrophic
        plainReader_autotrophic hseries (he.isKept hname).formula.nodes q m hm _ m' hv
      cases hw with
      | @series r r' hr =>
        refine ⟨hm', r'.withName name, hr.withName name name, k + 1, fun n hn => ?_⟩
        obtain ⟨n, rfl⟩ : ∃ l, n = l + 1 := ⟨n - 1, by omega⟩
        dsimp only
        rw [plainReader_series_succ]
        refine (gives_readSeries_formula hname).2 ⟨e.plainReader n, _, r', rfl, ?_, rfl, rfl⟩
        rw [he.registry]
        exact hk n (by omega)

theorem readerBelow_autotrophic (levels : Nat) (path : List String) :
    (e.readerBelow levels path).autotrophic = Resolver.noAutotrophic := by
  cases levels <;> rfl

/-- **What a reader reads is read without memory.** -/
theorem holds_readerBelow (he : e.Consistent) (levels : Nat) (path : List String) (name : String)
    (q : Query) :
    (Comparison.eventually e.SoundMemo).Holds Similar ((e.readerBelow levels path).series name q)
      fun n => (e.plainReader n).series name q := by
  induction levels generalizing path name q with
  | zero =>
    refine holds_remember (holds_plain_readSeries he (fun label below hbelow => ?_) name q)
    split at hbelow <;> cases hbelow
  | succ levels ih =>
    refine holds_remember (holds_plain_readSeries he (fun label below hbelow => ?_) name q)
    split at hbelow
    · cases hbelow
    · obtain rfl := Except.ok.inj hbelow
      exact ⟨readerBelow_autotrophic levels _, ih _⟩

/-- A series that is read is read without memory. -/
theorem reads_of_reader (he : e.Consistent) {name : String} {q : Query} {s : Series}
    (h : answerOf (e.reader.series name q) = .ok s) : ∃ s', s.Similar s' ∧ e.Reads name q s' := by
  obtain ⟨m, hm⟩ := gives_of_answerOf h
  obtain ⟨-, s', hs', hreads⟩ :=
    holds_readerBelow he e.config.maxDepth [] name q [] e.soundMemo_nil s m hm
  exact ⟨s', hs', hreads⟩

/-- **What an engine reads is read without memory**, be it a formula or not. -/
theorem reads_of_read (he : e.Consistent) {name : String} {q : Query} {s : Series}
    (h : e.read name q = .ok (some s)) : ∃ s', s.Similar s' ∧ e.Reads name q s' := by
  unfold read at h
  split at h
  · obtain ⟨r, hr, heq⟩ := Result.map_ok h
    exact Option.some.inj heq ▸ reads_of_reader he hr
  · rename_i hname
    have hnone : e.formulaTree? name = .ok none := by
      unfold formulaTree?
      rw [OrderedMap.contains, Option.not_isSome_iff_eq_none] at hname
      rw [hname]
      rfl
    have hprimary : e.readPrimary name q = .ok s := by
      unfold sourceOf? at h
      rw [he.sources] at h
      unfold readPrimary
      split at h
      · rw [Option.some.inj (Except.ok.inj h)]
      · cases h
    refine ⟨s, Series.Similar.refl s, 0, fun n _ => ?_⟩
    rw [plainReader_primary hnone]
    exact gives_settle.2 ⟨hprimary, rfl⟩

/-- **A formula that has a value has one without memory.** -/
theorem means_of_evaluate (he : e.Consistent) {t : Tree} (ht : t.Everywhere Tree.IsFormulaNode)
    {q : Query} {v : Value} (h : answerOf (evaluate e.registry e.reader t q) = .ok v) :
    ∃ w, Related Similar v w ∧ e.Means t q w := by
  obtain ⟨m, hm⟩ := gives_of_answerOf h
  rw [he.registry] at hm
  obtain ⟨-, w, hw, hmeans⟩ := (Comparison.eventually e.SoundMemo).holds_evaluate
    (readerBelow_autotrophic _ _) plainReader_autotrophic (holds_readerBelow he _ _) ht q []
    e.soundMemo_nil v m hm
  exact ⟨w, hw, hmeans⟩

/-- Whether a reading and a value, if they are series, have the same points. -/
def agreeWherever (read : Except EngineError (Option Series)) (value : Except EngineError Value) :
    Bool :=
  match read, value with
  | .ok (some s), .ok (.series r) => s.samePoints r
  | _, _ => true

end Engine

end SeriesAlgebra
