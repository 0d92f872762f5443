import SeriesAlgebra.Proofs.Evaluation.Arguments
import SeriesAlgebra.Proofs.Formula.Alike

/-!
# Types and the kinds of values

The type of a formula tells the kind of its value (`Typing.fits_of_infer`): a series has the
type of one, and so have tables, texts and stamps, while integers and doubles stand in for
each other, because arithmetic goes over to doubles where integers do not suffice.

Most operators give values of one kind (`Evaluation.returns_of_gives`). Arithmetic gives what
the larger of its operands is, as values (`Value.rank_combine`) and as types
(`TypeTag.rank_broadcast`), so by induction the rank of a value is that of its type. This
holds of all that stands for the formula that has the type (`Typing.rank_of_infer`): of what is
read back from its text, and of what it is expanded to.
-/

namespace SeriesAlgebra

open Evaluation Reading SeriesAlgebra.Tree

variable {σ : Type}

/-! ### Kinds and types -/

/-- How much is in a value of a type: a scalar, a series, or several series. -/
def TypeTag.rank : TypeTag → Nat
  | .series => 1
  | .table => 2
  | _ => 0

/-- **Whether a value is of the kind that a type tells**: of that type, or both are numbers. -/
def Value.Fits (v : Value) (type : TypeTag) : Prop :=
  v.type = type ∨ v.type.isNumeric = true ∧ type.isNumeric = true

/-- Whether a resolver that answers an autotrophic call itself answers it with a series, as the
operator does. -/
def Resolver.AnswersSeries (A : Resolver σ) : Prop :=
  ∀ call q s v s', Gives (A.autotrophic call q) s (some v) s' → IsSeries v

theorem Resolver.answersSeries_of_noAutotrophic {A : Resolver σ}
    (h : A.autotrophic = Resolver.noAutotrophic) : A.AnswersSeries := by
  intro call q s v s' hv
  rw [h] at hv
  cases (gives_pure.1 hv).1

namespace TypeTag

/-- Arithmetic is of the larger of two types. -/
theorem rank_broadcast {t u : TypeTag} (h : broadcast [t, u] ≠ any) :
    (broadcast [t, u]).rank = max t.rank u.rank ∧ t ≠ any ∧ u ≠ any := by
  cases t <;> cases u <;> first | exact absurd rfl h | decide

theorem isNumeric_of_rank_broadcast {t u : TypeTag} (h : broadcast [t, u] ≠ any)
    (hrank : (broadcast [t, u]).rank = 0) : (broadcast [t, u]).isNumeric = true := by
  cases t <;> cases u <;> first | rfl | exact absurd rfl h | exact absurd hrank (by decide)

theorem eq_of_rank {t u : TypeTag} (h : t.rank = u.rank) (hne : t.rank ≠ 0) : t = u := by
  cases t <;> cases u <;> first | rfl | exact absurd rfl hne | cases h

end TypeTag

namespace Value

theorem type_combineNumbers {op : Arithmetic} {v w r : Value} (h : combineNumbers op v w = .ok r) :
    r.type = .number := by
  obtain ⟨x, -, h⟩ := Result.bind_ok h
  obtain ⟨y, -, h⟩ := Result.bind_ok h
  obtain rfl := Except.ok.inj h
  rfl

/-- **How arithmetic goes on**, by how much is in its operands. -/
inductive Combines (op : Arithmetic) (v w : Value) : Prop
  | whole {k : Int64} (hv : v.type.rank = 0) (hw : w.type.rank = 0)
      (h : v.combine op w = .ok (.int k))
  | scalars (hv : v.type.rank = 0) (hw : w.type.rank = 0)
      (h : v.combine op w = combineNumbers op v w)
  | frames {x : Except FrameError Value} (hv : v.type.rank ≠ 0) (hw : w.type.rank ≠ 0)
      (h : v.combine op w = x.mapError .frame)
      (hx : ∀ r, x = .ok r → r.type.rank = max v.type.rank w.type.rank)
  | right {f : Float → Value} (hv : v.type.rank ≠ 0) (hw : w.type.rank = 0)
      (h : v.combine op w = (w.asFloat op.symbol).map f) (hf : ∀ y, (f y).type = v.type)
  | left {f : Float → Value} (hv : v.type.rank = 0) (hw : w.type.rank ≠ 0)
      (h : v.combine op w = (v.asFloat op.symbol).map f) (hf : ∀ x, (f x).type = w.type)

theorem combines (op : Arithmetic) (v w : Value) : Combines op v w := by
  have hmap {α : Type} {x : Except FrameError α} {f : α → Value} {n : Nat}
      (hf : ∀ a, (f a).type.rank = n) (r : Value) (hr : x.map f = .ok r) : r.type.rank = n := by
    obtain ⟨a, -, rfl⟩ := Result.map_ok hr
    exact hf a
  cases v with
  | series s =>
    cases w with
    | series t | table g => exact .frames nofun nofun rfl (hmap fun _ => rfl)
    | _ => exact .right (f := fun y => series (s.withScalar op y false)) nofun rfl rfl fun _ => rfl
  | table f =>
    cases w with
    | series t | table g => exact .frames nofun nofun rfl (hmap fun _ => rfl)
    | _ => exact .right (f := fun y => table (f.withScalar op y false)) nofun rfl rfl fun _ => rfl
  | int m =>
    cases w with
    | series t =>
      exact .left (f := fun x => series (t.withScalar op x true)) rfl nofun rfl fun _ => rfl
    | table g =>
      exact .left (f := fun x => table (g.withScalar op x true)) rfl nofun rfl fun _ => rfl
    | int n =>
      cases hk : combineInts? op m n with
      | some k => exact .whole rfl rfl (by rw [combine, hk])
      | none => exact .scalars rfl rfl (by rw [combine, hk])
    | _ => exact .scalars rfl rfl rfl
  | _ =>
    cases w with
    | series t =>
      exact .left (f := fun x => series (t.withScalar op x true)) rfl nofun rfl fun _ => rfl
    | table g =>
      exact .left (f := fun x => table (g.withScalar op x true)) rfl nofun rfl fun _ => rfl
    | _ => exact .scalars rfl rfl rfl

/-- **Arithmetic gives the larger of two kinds**, and a number if it gives a scalar. -/
theorem rank_combine {op : Arithmetic} {v w r : Value} (h : v.combine op w = .ok r) :
    r.type.rank = max v.type.rank w.type.rank ∧ (r.type.rank = 0 → r.type.isNumeric = true) := by
  rcases combines op v w with
    ⟨hv, hw, hop⟩ | ⟨hv, hw, hop⟩ | ⟨hv, hw, hop, hx⟩ | ⟨hv, hw, hop, hf⟩ | ⟨hv, hw, hop, hf⟩
  · obtain rfl := Except.ok.inj (hop.symm.trans h)
    rw [hv, hw]
    exact ⟨rfl, fun _ => rfl⟩
  · rw [type_combineNumbers (hop.symm.trans h), hv, hw]
    exact ⟨rfl, fun _ => rfl⟩
  · rw [hx r (Result.mapError_ok (hop.symm.trans h))]
    exact ⟨rfl, by omega⟩
  · obtain ⟨y, -, rfl⟩ := Result.map_ok (hop.symm.trans h)
    rw [hf, hw]
    exact ⟨by omega, fun hzero => absurd hzero hv⟩
  · obtain ⟨x, -, rfl⟩ := Result.map_ok (hop.symm.trans h)
    rw [hf, hv]
    exact ⟨by omega, fun hzero => absurd hzero hw⟩

end Value

/-! ### What calls give -/

namespace Evaluation

variable {A : Resolver σ} {items : List Tree} {b : Builtin} {q : Query} {s s' : σ} {v : Value}

/-- What a series leaf gives is a series. -/
theorem isSeries_of_leaf (h : Calls items .series)
    (hv : Gives (evaluate .builtin A (list items) q) s v s') : IsSeries v := by
  cases hname : leafName? items with
  | none =>
    rw [evaluate_nameless A h hname] at hv
    exact (gives_throw.1 hv).elim
  | some name =>
    rw [evaluate_leaf A h hname] at hv
    obtain ⟨_, _, -, hv⟩ := gives_bind.1 hv
    obtain ⟨keywords, _, -, hv⟩ := gives_bind.1 hv
    obtain ⟨options, _, -, hv⟩ := gives_bind.1 hv
    obtain ⟨r, _, -, hv⟩ := gives_bind.1 hv
    exact ⟨_, (gives_pure.1 hv).1.symm⟩

/-- What an autotrophic call gives is a series, if what the resolver answers is. -/
theorem isSeries_of_autotrophic (hA : A.AnswersSeries) (h : Calls items .constant)
    (hv : Gives (evaluate .builtin A (list items) q) s v s') : IsSeries v := by
  rw [evaluate_autotrophic A h] at hv
  obtain ⟨known, s₁, hknown, hv⟩ := gives_bind.1 hv
  cases known with
  | some w =>
    obtain ⟨rfl, -⟩ := gives_pure.1 hv
    exact hA _ _ _ _ _ hknown
  | none =>
    obtain ⟨_, _, -, hv⟩ := gives_bind.1 hv
    obtain ⟨keywords, _, -, hv⟩ := gives_bind.1 hv
    obtain ⟨positional, _, -, hv⟩ := gives_bind.1 hv
    obtain ⟨c, -, hv⟩ := Result.bind_ok (gives_settle.1 hv).1
    obtain ⟨r, -, hv⟩ := Result.bind_ok hv
    exact ⟨r, (Except.ok.inj hv).symm⟩

theorem type_of_isSeries (h : IsSeries v) : v.type = .series := by
  obtain ⟨r, rfl⟩ := h
  rfl

/-- **An operator that is no arithmetic gives values of the type that it returns.** -/
theorem returns_of_gives (hA : A.AnswersSeries) (hb : Calls items b)
    (harithmetic : b.isArithmetic = false)
    (h : Gives (evaluate .builtin A (list items) q) s v s') :
    b.signature.returns = .fixed v.type := by
  cases happlied : isApplied b with
  | false =>
    cases b with
    | series => rw [type_of_isSeries (isSeries_of_leaf hb h)]; rfl
    | constant => rw [type_of_isSeries (isSeries_of_autotrophic hA hb h)]; rfl
    | group =>
      rw [evaluate_group hb] at h
      cases hname : (list items).firstName? Builtin.group.name with
      | none =>
        simp only [hname] at h
        exact (gives_throw.1 h).elim
      | some name =>
        simp only [hname] at h
        obtain ⟨f, _, -, h⟩ := gives_bind.1 h
        obtain ⟨rfl, -⟩ := gives_pure.1 h
        rfl
    | _ => cases happlied
  | true =>
    obtain ⟨entries, c, ts, vs, -, -, -, happly⟩ := exists_of_gives_call hb happlied h
    by_cases hgroupAdd : b = .groupAdd
    · subst hgroupAdd
      obtain ⟨f, -, happly⟩ := Result.bind_ok happly
      obtain rfl := Except.ok.inj happly
      rfl
    · by_cases hdate : b = .date
      · subst hdate
        obtain ⟨zone, -, happly⟩ := Result.bind_ok happly
        obtain ⟨w, -, happly⟩ := Result.bind_ok happly
        obtain ⟨text, -, happly⟩ := Result.bind_ok happly
        obtain ⟨t, -, happly⟩ := Result.bind_ok happly
        obtain rfl := Except.ok.inj happly
        rfl
      · have hscalar : b.isScalar = false := by
          rw [Builtin.isScalar, harithmetic, Bool.false_or, beq_eq_false_iff_ne]
          exact hdate
        rw [type_of_isSeries (isSeries_of_apply happlied hgroupAdd hscalar happly)]
        cases b <;> first
          | rfl
          | exact absurd rfl hdate
          | exact absurd rfl hgroupAdd
          | exact absurd happlied (by decide)
          | exact absurd harithmetic (by decide)

end Evaluation

/-! ### What stands for a formula -/

namespace Tree

/-- Whether all values of a formula are series, whoever answers for its leaves. -/
def GivesSeries (t : Tree) : Prop :=
  ∀ (σ : Type) (A : Resolver σ), A.AnswersSeries → ∀ q v, HasValue A q t v → IsSeries v

/-- **Whether a formula stands for another**: it differs in literals that are no symbols, and where
the other has a series leaf there may be any formula that gives series. -/
inductive StandsFor : Tree → Tree → Prop
  | atom {l m : Literal} (h : ∀ name, l = .symbol name → m = .symbol name) :
      StandsFor (atom l) (atom m)
  | list {items others : List Tree} (h : List.Forall₂ StandsFor items others) :
      StandsFor (list items) (list others)
  | leaf {items : List Tree} {u : Tree} (hseries : ∀ b, Calls items b → b = .series)
      (hu : u.GivesSeries) : StandsFor (list items) u

/-- A call of an operator that returns series gives series. -/
theorem givesSeries_of_calls {items : List Tree} {b : Builtin} (hb : Calls items b)
    (hreturns : b.signature.returns = .fixed .series) : (list items).GivesSeries := by
  intro σ A hA q v h
  obtain ⟨s, s', h⟩ := h
  have harithmetic : b.isArithmetic = false := by
    cases b <;> first | rfl | exact absurd hreturns (by decide)
  have htype := (returns_of_gives hA hb harithmetic h).symm.trans hreturns
  cases v <;> first | exact ⟨_, rfl⟩ | exact absurd htype nofun

theorem Alike.standsFor {t u : Tree} (h : Alike t u) : StandsFor t u := by
  induction t using inductionOn generalizing u with
  | atom l =>
    cases h with
    | atom h => exact .atom h
  | list items ih =>
    cases h with
    | list h => exact .list (Result.forall₂_imp_of_mem h fun t ht u htu => ih t ht htu)

theorem headSymbol?_of_standsFor {items others : List Tree}
    (h : List.Forall₂ StandsFor items others) {symbol : String}
    (hsymbol : headSymbol? items = some symbol) : headSymbol? others = some symbol := by
  cases h with
  | nil => cases hsymbol
  | cons hhead _ =>
    obtain rfl := head_of_headSymbol? hsymbol
    cases hhead with
    | atom h =>
      rw [h symbol rfl]
      rfl

end Tree

/-! ### What types tell -/

namespace Typing

variable {A : Resolver σ} {items : List Tree} {b : Builtin} {q : Query} {v : Value}

/-- Arithmetic that has a type has two operands of types that operands may have, and the type is
that of arithmetic on theirs. -/
theorem operands_of_infer (hb : Calls items b) (harithmetic : b.isArithmetic = true)
    {type : TypeTag} (h : infer .builtin (list items) = .ok type) :
    ∃ x y t u, items.tail = [x, y] ∧ infer .builtin x = .ok t ∧ infer .builtin y = .ok u ∧
      (∀ v ∈ [t, u], TypeTag.anyAccepts Builtin.operand v = true) ∧
      type = TypeTag.broadcast [t, u] := by
  obtain ⟨told, types, htold, hargs, rfl⟩ := argsAdmitted_of_infer hb h
  have hsignature : b.signature.keywords = [] ∧ b.signature.arity = .exactly 2 ∧
      b.signature.returns = .broadcast ∧ b.signature.expectedAt 0 = Builtin.operand ∧
      b.signature.expectedAt 1 = Builtin.operand := by
    cases b <;> first | exact ⟨rfl, rfl, rfl, rfl, rfl⟩ | cases harithmetic
  obtain ⟨hkeywords, harity, hreturns, hfirst, hsecond⟩ := hsignature
  have hlength := hargs.arity
  rw [harity, Arity.admits, beq_iff_eq] at hlength
  obtain ⟨x, y, hxy⟩ := List.length_eq_two.1 hlength
  have htypes := hargs.inferred
  rw [hxy] at htypes
  obtain _ | ⟨hx, _ | ⟨hy, _ | _⟩⟩ := htypes
  refine ⟨x, y, _, _, (hargs.eq_positional hkeywords htold).trans hxy, hx, hy, fun v hv => ?_,
    by rw [returned, hreturns]⟩
  rcases List.mem_pair.1 hv with rfl | rfl
  · exact hfirst ▸ hargs.positional 0 _ rfl
  · exact hsecond ▸ hargs.positional 1 _ rfl

/-- Operands that have values. -/
theorem values_of_arithmetic (hb : Calls items b) (harithmetic : b.isArithmetic = true)
    {x y : Tree} (hitems : items.tail = [x, y]) (h : HasValue A q (list items) v) :
    ∃ op c left right, HasValue A c x left ∧ HasValue A c y right ∧
      left.combine op right = .ok v := by
  obtain ⟨s, s', h⟩ := h
  obtain ⟨happlied, op, hop⟩ := exists_arithmetic harithmetic
  obtain ⟨entries, c, ts, vs, -, hts, hvs, happly⟩ := exists_of_gives_call hb happlied h
  rw [hop] at happly
  obtain ⟨x', y', left, right, htail, hx, hy, hcombine⟩ :=
    operands_of_arithmetic hts (by rw [hitems]; rfl) hvs happly
  obtain ⟨rfl, hrest⟩ := List.cons.inj (hitems.symm.trans htail)
  obtain ⟨rfl, -⟩ := List.cons.inj hrest
  exact ⟨op, c, left, right, hx, hy, hcombine⟩

theorem returned_of_fixed {s : Signature} {tag : TypeTag} (h : s.returns = .fixed tag)
    (types : List TypeTag) : returned s types = tag := by
  rw [returned, h]

/-- **The rank of a value is that of the type** of the formula, and of all that stands for it. -/
theorem rank_of_infer (hA : A.AnswersSeries) {t u : Tree} (hstands : StandsFor t u) {type : TypeTag}
    (htype : infer .builtin t = .ok type) (hany : type ≠ .any) (h : HasValue A q u v) :
    v.type.rank = type.rank := by
  induction t using inductionOn generalizing u type q v with
  | atom l =>
    cases hstands with
    | @atom l m _ =>
      obtain ⟨s, s', h⟩ := h
      rw [evaluate] at h
      obtain ⟨rfl, -⟩ := gives_pure.1 h
      rw [infer] at htype
      obtain rfl := Except.ok.inj htype
      cases l <;> cases m <;> rfl
  | list items ih =>
    cases hop : Registry.builtin.operatorOf? (list items) with
    | none => exact absurd (infer_of_unknown hop htype) hany
    | some op =>
      obtain ⟨b, hb, rfl⟩ := calls_of_operatorOf? hop
      cases hstands with
      | leaf hseries hu =>
        obtain rfl := hseries b hb
        obtain ⟨told, types, -, -, rfl⟩ := argsAdmitted_of_infer hb htype
        rw [type_of_isSeries (hu σ A hA q v h)]
        rfl
      | @list items others hitems =>
        have hb' : Calls others b := headSymbol?_of_standsFor hitems hb
        cases harithmetic : b.isArithmetic with
        | false =>
          obtain ⟨told, types, -, -, rfl⟩ := argsAdmitted_of_infer hb htype
          obtain ⟨s, s', h⟩ := h
          rw [returned_of_fixed (returns_of_gives hA hb' harithmetic h)]
        | true =>
          obtain ⟨x, y, a, b', htail, hx, hy, -, rfl⟩ := operands_of_infer hb harithmetic htype
          have hothers : List.Forall₂ StandsFor items.tail others.tail := by
            cases hitems with
            | nil => exact .nil
            | cons _ hrest => exact hrest
          rw [htail] at hothers
          generalize htail' : others.tail = tail at hothers
          obtain _ | ⟨hxx', _ | ⟨hyy', _ | _⟩⟩ := hothers
          obtain ⟨op, c, left, right, hleft, hright, hcombine⟩ :=
            values_of_arithmetic hb' harithmetic htail' h
          obtain ⟨hrank, hxany, hyany⟩ := TypeTag.rank_broadcast hany
          have hmem (z : Tree) (hz : z ∈ [x, y]) : z ∈ items :=
            List.mem_of_mem_tail (htail ▸ hz)
          rw [hrank, (Value.rank_combine hcombine).1,
            ih x (hmem x (by simp)) hxx' hx hxany hleft,
            ih y (hmem y (by simp)) hyy' hy hyany hright]

/-- A formula of the type of series gives series, and so does all that stands for it. -/
theorem givesSeries_of_infer {t u : Tree} (hstands : StandsFor t u)
    (htype : infer .builtin t = .ok .series) : u.GivesSeries := by
  intro σ A hA q v h
  have htag := TypeTag.eq_of_rank (rank_of_infer hA hstands htype nofun h)
    (by rw [rank_of_infer hA hstands htype nofun h]; nofun)
  cases v <;> first | exact ⟨_, rfl⟩ | cases htag

/-- A formula of the type `any` has no value. -/
theorem not_hasValue_any {t : Tree} (htype : infer .builtin t = .ok .any) :
    ¬ HasValue A q t v := by
  induction t using inductionOn generalizing q v with
  | atom l =>
    rw [infer] at htype
    cases l <;> cases htype
  | list items ih =>
    rintro h
    obtain ⟨s, s', hgives⟩ := h
    obtain ⟨b, hb⟩ := calls_of_gives hgives
    cases harithmetic : b.isArithmetic with
    | false =>
      obtain ⟨told, types, -, -, hreturned⟩ := argsAdmitted_of_infer hb htype
      cases b <;> first
        | exact absurd harithmetic (by decide)
        | exact TypeTag.noConfusion hreturned
    | true =>
      obtain ⟨x, y, t, u, htail, hx, hy, -, hbroadcast⟩ := operands_of_infer hb harithmetic htype
      obtain ⟨op, c, left, right, hleft, hright, -⟩ :=
        values_of_arithmetic hb harithmetic htail ⟨s, s', hgives⟩
      have hmem (z : Tree) (hz : z ∈ [x, y]) : z ∈ items := List.mem_of_mem_tail (htail ▸ hz)
      have hany : t = .any ∨ u = .any := by
        cases t <;> cases u <;> first | exact Or.inl rfl | exact Or.inr rfl | cases hbroadcast
      rcases hany with rfl | rfl
      · exact ih x (hmem x (by simp)) hx hleft
      · exact ih y (hmem y (by simp)) hy hright

/-- **The value of a formula is of the kind that its type tells.** -/
theorem fits_of_infer (hA : A.AnswersSeries) {t : Tree} {type : TypeTag}
    (htype : infer .builtin t = .ok type) (h : HasValue A q t v) : v.Fits type := by
  have hany : type ≠ .any := by
    rintro rfl
    exact not_hasValue_any htype h
  cases t with
  | atom l =>
    obtain ⟨s, s', h⟩ := h
    rw [evaluate] at h
    obtain ⟨rfl, -⟩ := gives_pure.1 h
    rw [infer] at htype
    obtain rfl := Except.ok.inj htype
    cases l <;> exact Or.inl rfl
  | list items =>
    have hrank := rank_of_infer hA (alike_refl _).standsFor htype hany h
    obtain ⟨s, s', hgives⟩ := h
    obtain ⟨b, hb⟩ := calls_of_gives hgives
    cases harithmetic : b.isArithmetic with
    | false =>
      obtain ⟨told, types, -, -, rfl⟩ := argsAdmitted_of_infer hb htype
      exact Or.inl (returned_of_fixed (returns_of_gives hA hb harithmetic hgives) types).symm
    | true =>
      obtain ⟨x, y, t, u, htail, -, -, -, rfl⟩ := operands_of_infer hb harithmetic htype
      obtain ⟨op, c, left, right, -, -, hcombine⟩ :=
        values_of_arithmetic hb harithmetic htail ⟨s, s', hgives⟩
      by_cases hzero : v.type.rank = 0
      · exact Or.inr ⟨(Value.rank_combine hcombine).2 hzero,
          TypeTag.isNumeric_of_rank_broadcast hany (hrank ▸ hzero)⟩
      · exact Or.inl (TypeTag.eq_of_rank hrank hzero)

end Typing

end SeriesAlgebra
