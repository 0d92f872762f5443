import SeriesAlgebra.Text.Ranges

/-!
# Blank characters

Formula text, dates and fill policies are all read with blanks ignored somewhere,
and *blank* means the same thing everywhere: the Unicode property `White_Space`,
twenty-five characters, listed here. `trim` strips them from both ends.
-/

namespace SeriesAlgebra

namespace Text

/-- The code points with the property `White_Space`, as closed intervals. -/
def blankRanges : List (Nat × Nat) :=
  [(0x09, 0x0d), (0x20, 0x20), (0x85, 0x85), (0xa0, 0xa0), (0x1680, 0x1680), (0x2000, 0x200a),
   (0x2028, 0x2029), (0x202f, 0x202f), (0x205f, 0x205f), (0x3000, 0x3000)]

/-- Whether a character is blank. -/
def isBlank (c : Char) : Bool := inRanges blankRanges c.toNat

/-- The characters without the blanks in front. -/
def skipBlanks (cs : List Char) : List Char := cs.dropWhile isBlank

/-- The characters without the blanks at either end. -/
def trimChars (cs : List Char) : List Char :=
  (skipBlanks (skipBlanks cs).reverse).reverse

/-- The text without the blanks at either end. -/
def trim (s : String) : String := String.ofList (trimChars s.toList)

/-! ### Laws -/

/-- Skipping blanks leaves no blank in front. -/
theorem skipBlanks_head {cs rest : List Char} {c : Char} (h : skipBlanks cs = c :: rest) :
    isBlank c = false := by
  have := List.head?_dropWhile_not isBlank cs
  unfold skipBlanks at h
  simp only [h, List.head?_cons] at this
  simpa using this

end Text

end SeriesAlgebra
