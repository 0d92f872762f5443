import SeriesAlgebra.Proofs.Evaluation.Arguments
import SeriesAlgebra.Proofs.Evaluation.Pointwise

/-!
# Readers that agree at a stamp

Two readers may read series that have nothing in common but what they say at one stamp
(`Resolver.AgreesOn`). A formula that is accepted as a series and is pointwise does not
tell them apart there: whatever its leaves say elsewhere, what it says at that stamp is
the same for both (`Tree.valueOn_eq_of_agreesOn`).

A tree need not have been read from a text to be accepted, and a list without an operator at
its head fits every place. It has no value, though, and all parts of a pointwise formula are
evaluated, so a formula that has a value has known operators everywhere
(`Tree.isKnown_of_gives`).
-/

namespace SeriesAlgebra

open Evaluation Reading Value Series

variable {σ τ : Type}

namespace Tree

variable {A : Resolver σ} {q : Query}

/-- **A pointwise formula that has a type and a value** has known operators everywhere. -/
theorem isKnown_of_gives {t : Tree} {type : TypeTag} (htype : Typing.infer .builtin t = .ok type)
    (hpointwise : t.isPointwise .builtin = true) {v : Value} (h : HasValue A q t v) :
    t.Everywhere IsKnownNode := by
  have hnodes : t.Everywhere fun u => u.isPointwiseNode .builtin = true :=
    List.all_eq_true.1 hpointwise
  clear hpointwise
  induction t using inductionOn generalizing type q v with
  | atom l => exact everywhere_atom.2 trivial
  | list items ih =>
    obtain ⟨hnode, hitems⟩ := everywhere_list.1 hnodes
    have hgives := h
    obtain ⟨s, s', hgives⟩ := hgives
    obtain ⟨b, hb⟩ := calls_of_gives hgives
    have hconstant : b ≠ .constant := by
      rintro rfl
      cases isPointwise_of_node hb hnode
    refine everywhere_list.2 ⟨⟨b, hb⟩, fun a ha => ?_⟩
    rcases values_of_call (fun hb => absurd hb hconstant) hb htype h a ha with
      ⟨l, rfl⟩ | ⟨⟨u, hu⟩, c, w, hw⟩
    · exact everywhere_atom.2 trivial
    · exact ih a ha hu hw (hitems a ha)

end Tree

/-! ### Two readers -/

/-- **Whether two readers agree at a stamp**: asked for the same, in states that are related, they
give series in order that say the same there, and leave states that are related. -/
def Resolver.AgreesOn (J : σ → τ → Prop) (t : Stamp) (A : Resolver σ) (B : Resolver τ) : Prop :=
  ∀ name q m k, J m k → ∀ s m' s' k', Gives (A.series name q) m s m' →
    Gives (B.series name q) k s' k' →
    (s.IsSorted ∧ s'.IsSorted ∧ s.valueOn t = s'.valueOn t) ∧ J m' k'

/-- **Pointwise formulas are evaluated point by point**: readers that agree at a stamp on the series
that a formula names agree there on the formula, if it is accepted as a series. -/
theorem Tree.valueOn_eq_of_agreesOn {u : Tree} {type : TypeTag}
    (htype : Typing.check .builtin .series u = .ok type)
    (hpointwise : u.isPointwise .builtin = true) {t : Stamp} {A : Resolver σ} {B : Resolver τ}
    {J : σ → τ → Prop} (hAB : A.AgreesOn J t B) {m m' : σ} {k k' : τ} (hJ : J m k) {q : Query}
    {s s' : Series} (hs : Gives (evaluate .builtin A u q) m (.series s) m')
    (hs' : Gives (evaluate .builtin B u q) k (.series s') k') :
    s.valueOn t = s'.valueOn t ∧ J m' k' := by
  obtain ⟨revision, w⟩ := q
  have hknown : u.Everywhere Tree.IsKnownNode := by
    obtain ⟨actual, hactual, -⟩ := Result.bind_ok htype
    exact isKnown_of_gives hactual hpointwise ⟨m, m', hs⟩
  have hformula := isFormula_of_known hknown htype
  have hleaf (items : List Tree) (name : String) (w : Window) (_ : list items ∈ u.nodes)
      (_ : leafName? items = some name) : (Comparison.agreeWhile J).Holds
        (MeetAsLeaves t False) (A.series name ⟨revision, w⟩) fun _ =>
          B.series name ⟨revision, w⟩ := by
    intro m k hmk s m' s' k' hs hs'
    obtain ⟨⟨hsorted, hsorted', hvalue⟩, hJ'⟩ := hAB _ _ m k hmk s m' s' k' hs hs'
    exact ⟨meetAsLeaves hsorted hsorted' hvalue False.elim, hJ'⟩
  obtain ⟨hrelated, hJ'⟩ := (Comparison.agreeWhile J).holds_pointwise (B := fun _ => B)
    hformula.nodes hpointwise hleaf w m k hJ _ m' _ k' hs hs'
  cases hrelated with
  | series hmeets => exact ⟨hmeets.value, hJ'⟩

/-- The reader for which every name stands for given points. -/
def answering (points : List (Stamp × Float)) : Resolver Unit where
  series name _ := pure (.ofPoints name points)
  group name _ := throw (.unknownGroup name)
  autotrophic := Resolver.noAutotrophic

/-- The first series from a day on, and before it twice the second. -/
def slicedOrDoubled : Tree :=
  .list [.symbol "priority",
    .list [.symbol "slice", .list [.symbol "series", .str "a"], .symbol "#:fromdate",
      .str "2024-01-02"],
    .list [.symbol "*", .atom (.int 2), .list [.symbol "series", .str "b"]]]

/-- The second day of a year. -/
def secondDay : Stamp := .within 1704153600 0

/-- Points up to the second day. -/
def upToSecondDay : List (Stamp × Float) := [(.within 1704067200 0, 1.0), (secondDay, 5.0)]

/-- Points from the second day on. -/
def fromSecondDay : List (Stamp × Float) := [(secondDay, 5.0), (.within 1704240000 0, 7.0)]

/-- Readers of series that share one day only. -/
theorem agreesOn_answering : (answering upToSecondDay).AgreesOn (fun _ _ => True) secondDay
    (answering fromSecondDay) := by
  intro name q m k _ s m' s' k' h h'
  obtain ⟨rfl, -⟩ := gives_pure.1 h
  obtain ⟨rfl, -⟩ := gives_pure.1 h'
  have hleft : (Series.ofPoints name upToSecondDay).IsSorted :=
    List.pairwise_pair.2 (by decide +kernel)
  have hright : (Series.ofPoints name fromSecondDay).IsSorted :=
    List.pairwise_pair.2 (by decide +kernel)
  refine ⟨⟨hleft, hright, ?_⟩, trivial⟩
  rw [valueOn_of_mem hleft (List.mem_cons_of_mem _ List.mem_cons_self),
    valueOn_of_mem hright List.mem_cons_self]

theorem valueOn_slicedOrDoubled : ∃ s s' : Series,
    Gives (evaluate .builtin (answering upToSecondDay) slicedOrDoubled .latest) () (.series s) () ∧
    Gives (evaluate .builtin (answering fromSecondDay) slicedOrDoubled .latest) () (.series s') () ∧
    s.valueOn secondDay = s'.valueOn secondDay := by
  have hgives (points : List (Stamp × Float)) (h : (outcome (evaluate .builtin (answering points)
      slicedOrDoubled .latest)).toOption.any (fun v => v.type == .series) = true) : ∃ s, Gives
      (evaluate .builtin (answering points) slicedOrDoubled .latest) () (.series s) () := by
    obtain ⟨v, hv, hseries⟩ := Result.exists_ok_any h
    cases v with
    | series s => exact ⟨s, gives_of_outcome hv⟩
    | _ => cases hseries
  obtain ⟨s, hs⟩ := hgives upToSecondDay (by decide +kernel)
  obtain ⟨s', hs'⟩ := hgives fromSecondDay (by decide +kernel)
  have hcheck : Typing.check .builtin .series slicedOrDoubled = .ok .series :=
    Result.ok_of_toOption (by decide +kernel)
  have hpointwise : slicedOrDoubled.isPointwise .builtin = true := by decide +kernel
  exact ⟨s, s', hs, hs',
    (Tree.valueOn_eq_of_agreesOn hcheck hpointwise agreesOn_answering trivial hs hs').1⟩

end SeriesAlgebra
