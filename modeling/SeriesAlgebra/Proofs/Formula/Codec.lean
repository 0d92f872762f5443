import SeriesAlgebra.Formula.Writing
import SeriesAlgebra.Proofs.Decimal.Text
import SeriesAlgebra.Proofs.Formula.Grammar
import SeriesAlgebra.Proofs.Formula.Nodes

/-!
# Formulas as text

What is written for a formula is read back (`Tree.parse_text`), with one exception: a
double that is infinite or no number is written as a word, and the word is read as a
symbol. So reading gives the **canonical** form of the formula, in which such doubles are
symbols, and from then on writing and reading change nothing. If the formula nests too
deep, reading says so (`Tree.parse_text_eq`): the text spells the canonical form all the
same (`Tree.scansAs_write`).

Only formulas that come from a text can be read back, that is those in which symbols are
words, lists are headed and nest no deeper than they may (`Tree.IsReadable`); every
formula that was read is one of them (`Tree.isReadable_of_parse`).
-/

namespace SeriesAlgebra

/-! ### Words -/

/-- Whether characters make a word: at least one, and none that ends a word. -/
def IsWord (cs : List Char) : Prop := cs ≠ [] ∧ ∀ c ∈ cs, Token.endsWord c = false

theorem isWord_of_all {cs : List Char} (hne : cs ≠ [])
    (h : (cs.all fun c => !Token.endsWord c) = true) : IsWord cs := by
  refine ⟨hne, fun c hc => ?_⟩
  have hends := List.all_eq_true.1 h c hc
  rwa [Bool.not_eq_true'] at hends

namespace Literal

/-- Whether a literal can be read from a text. -/
def IsReadable : Literal → Prop
  | symbol name => IsWord name.toList ∧ Tree.looksNumeric name.toList = false
  | _ => True

/-- **The literal that is read where a literal was written**: what is no finite double becomes a
symbol. -/
def canonical : Literal → Literal
  | float x => if x.isNaN || x.isInf then symbol (Decimal.exactText x) else float x
  | l => l

/-! ### The characters of numbers -/

theorem endsWord_digit {c : Char} (h : c.isDigit = true) : Token.endsWord c = false := by
  simp only [Char.isDigit, Bool.and_eq_true, decide_eq_true_eq] at h
  have h0 : 48 ≤ c.toNat := UInt32.le_iff_toNat_le.1 h.1
  have h9 : c.toNat ≤ 57 := UInt32.le_iff_toNat_le.1 h.2
  have hblank : Text.isBlank c = false := by
    have hall : ∀ n < 58, 48 ≤ n → Text.inRanges Text.blankRanges n = false := by decide
    exact hall c.toNat (by omega) h0
  have hne : ∀ d : Char, d.toNat < 48 → (c == d) = false := by
    intro d hd
    rw [beq_eq_false_iff_ne]
    rintro rfl
    omega
  rw [Token.endsWord, hblank, hne '(' (by decide), hne ')' (by decide), hne '"' (by decide)]
  rfl

/-- Whether a character may stand in a number. -/
def InNumber (c : Char) : Prop := c.isDigit = true ∨ c = '-' ∨ c = '.' ∨ c = 'e'

theorem InNumber.endsWord {c : Char} (h : InNumber c) : Token.endsWord c = false := by
  rcases h with h | rfl | rfl | rfl
  · exact endsWord_digit h
  all_goals decide

theorem inNumber_toString (n : Int) : ∀ c ∈ (toString n).toList, InNumber c := by
  intro c hc
  rw [Decimal.toList_toString_int] at hc
  split at hc
  · rcases List.mem_cons.1 hc with rfl | hc
    · exact Or.inr (Or.inl rfl)
    · exact Or.inl (Decimal.allDigits_toDigits _ c hc)
  · exact Or.inl (Decimal.allDigits_toDigits _ c hc)

theorem inNumber_writePositional {ds : List Char} (hds : Decimal.AllDigits ds) (leading : Int) :
    ∀ c ∈ NumberLayout.exact.writePositional ds leading, InNumber c := by
  intro c hc
  have hzero : ∀ n, c ∈ List.replicate n '0' → InNumber c := fun n h =>
    Or.inl (Decimal.allDigits_zeros n c h)
  simp only [NumberLayout.writePositional, NumberLayout.exact] at hc
  split at hc
  · rcases List.mem_cons.1 hc with rfl | hc
    · exact Or.inl rfl
    · rcases List.mem_cons.1 hc with rfl | hc
      · exact Or.inr (Or.inr (Or.inl rfl))
      · exact (List.mem_append.1 hc).elim (hzero _) fun h => Or.inl (hds c h)
  · split at hc
    · rcases List.mem_append.1 hc with hc | hc
      · exact (List.mem_append.1 hc).elim (fun h => Or.inl (hds c h)) (hzero _)
      · simp only [if_true, List.mem_cons, List.not_mem_nil, or_false] at hc
        rcases hc with rfl | rfl
        · exact Or.inr (Or.inr (Or.inl rfl))
        · exact Or.inl rfl
    · rcases List.mem_append.1 hc with hc | hc
      · exact Or.inl (hds c (List.mem_of_mem_take hc))
      · rcases List.mem_cons.1 hc with rfl | hc
        · exact Or.inr (Or.inr (Or.inl rfl))
        · exact Or.inl (hds c (List.mem_of_mem_drop hc))

theorem inNumber_writeScientific {ds : List Char} (hds : Decimal.AllDigits ds) (leading : Int) :
    ∀ c ∈ NumberLayout.exact.writeScientific ds leading, InNumber c := by
  intro c hc
  simp only [NumberLayout.writeScientific, NumberLayout.exact] at hc
  rcases List.mem_append.1 hc with hc | hc
  · rcases List.mem_append.1 hc with hc | hc
    · rcases List.mem_append.1 hc with hc | hc
      · exact Or.inl (hds c (List.mem_of_mem_take hc))
      · split at hc
        · cases hc
        · rename_i hrest
          rcases List.mem_cons.1 hc with rfl | hc
          · exact Or.inr (Or.inr (Or.inl rfl))
          · exact Or.inl (hds c (List.mem_of_mem_drop hc))
    · simp only [Bool.false_eq_true, false_and, if_false, List.mem_cons, List.not_mem_nil,
        or_false] at hc
      exact Or.inr (Or.inr (Or.inr hc))
  · exact inNumber_toString leading c hc

theorem inNumber_laidOut {ds : List Char} (hds : Decimal.AllDigits ds) (leading : Int)
    (isPositional : Bool) :
    ∀ c ∈ if isPositional then NumberLayout.exact.writePositional ds leading
      else NumberLayout.exact.writeScientific ds leading, InNumber c := by
  cases isPositional with
  | true => exact inNumber_writePositional hds leading
  | false => exact inNumber_writeScientific hds leading

theorem inNumber_writeDecimal (d : Decimal) :
    ∀ c ∈ NumberLayout.exact.writeDecimal d, InNumber c := by
  intro c hc
  unfold NumberLayout.writeDecimal at hc
  split at hc
  · simp only [NumberLayout.exact, if_true, List.mem_cons, List.not_mem_nil, or_false] at hc
    rcases hc with rfl | rfl | rfl
    · exact Or.inl rfl
    · exact Or.inr (Or.inr (Or.inl rfl))
    · exact Or.inl rfl
  · rename_i h
    have hds := (Decimal.trimmedDigits_spec (Nat.pos_of_ne_zero h)).1
    exact inNumber_laidOut hds _ _ c hc

/-! ### Literals -/

theorem looksNumeric_digit {c : Char} (h : c.isDigit = true) (rest : List Char) :
    Tree.looksNumeric (c :: rest) = true := by
  cases rest with
  | nil => exact h
  | cons d rest => simp [Tree.looksNumeric, h]

theorem looksNumeric_minus {c : Char} (h : c.isDigit = true) (rest : List Char) :
    Tree.looksNumeric ('-' :: c :: rest) = true := by
  simp [Tree.looksNumeric, h]

/-- The word for what is no finite double. -/
theorem exactText_of_not_finite {x : Float} (h : (x.isNaN || x.isInf) = true) :
    Decimal.exactText x = "NaN" ∨ Decimal.exactText x = "inf" ∨ Decimal.exactText x = "-inf" := by
  simp only [Decimal.exactText, NumberLayout.write]
  cases hn : x.isNaN with
  | true => exact Or.inl rfl
  | false =>
    rw [hn, Bool.false_or] at h
    rw [if_neg (by simp), if_pos h]
    split
    · exact Or.inr (Or.inr rfl)
    · exact Or.inr (Or.inl rfl)

theorem isReadable_exactText {x : Float} (h : (x.isNaN || x.isInf) = true) :
    (symbol (Decimal.exactText x)).IsReadable := by
  rcases exactText_of_not_finite h with hx | hx | hx <;> rw [hx] <;>
    exact ⟨isWord_of_all (by decide) (by decide), by decide⟩

theorem isReadable_canonical {l : Literal} (h : l.IsReadable) : l.canonical.IsReadable := by
  cases l with
  | float x =>
    simp only [canonical]
    split
    · rename_i hx
      exact isReadable_exactText hx
    · trivial
  | _ => exact h

@[simp] theorem canonical_canonical (l : Literal) : l.canonical.canonical = l.canonical := by
  cases l with
  | float x =>
    by_cases hx : (x.isNaN || x.isInf) = true
    · have h : (float x).canonical = symbol (Decimal.exactText x) := if_pos hx
      rw [h]
      rfl
    · have h : (float x).canonical = float x := if_neg hx
      rw [h, h]
  | _ => rfl

/-- **A literal that is no string is written as a word, which is read as its canonical form.** -/
theorem word_text {l : Literal} (h : l.IsReadable) (hstr : l.str? = none) :
    IsWord l.text.toList ∧ ∀ offset, Tree.ofWord l.text.toList offset = .ok l.canonical := by
  cases l with
  | str s => cases hstr
  | int n =>
    have hlist := Decimal.toList_toString_int n.toInt
    obtain ⟨c, rest, hdigits, hc⟩ := Decimal.toDigits_cons n.toInt.natAbs
    rw [hdigits] at hlist
    refine ⟨⟨?_, fun c hc => (inNumber_toString _ c hc).endsWord⟩, fun offset => ?_⟩
    · change (toString n.toInt).toList ≠ []
      rw [hlist]
      split <;> simp
    · have hnumeric : Tree.looksNumeric (toString n.toInt).toList = true := by
        rw [hlist]
        split
        · exact looksNumeric_minus hc rest
        · exact looksNumeric_digit hc rest
      change Tree.ofWord (toString n.toInt).toList offset = _
      rw [Tree.ofWord, if_pos hnumeric, Decimal.readInt?_toString]
      rfl
  | float x =>
    cases hx : x.isNaN || x.isInf with
    | true =>
      obtain ⟨hword, hnumeric⟩ := isReadable_exactText hx
      refine ⟨hword, fun offset => ?_⟩
      change Tree.ofWord (Decimal.exactText x).toList offset = _
      rw [Tree.ofWord, if_neg (by simp [hnumeric]), String.ofList_toList, canonical, if_pos hx]
    | false =>
      obtain ⟨hn, hi⟩ := Bool.or_eq_false_iff.1 hx
      obtain ⟨c, rest, hcs, hc, -⟩ := Decimal.exists_magnitude hn hi
      have hlist := Decimal.toList_exactText hn hi
      refine ⟨⟨?_, fun d hd => ?_⟩, fun offset => ?_⟩
      · change (Decimal.exactText x).toList ≠ []
        rw [hlist, hcs]
        simp
      · change d ∈ (Decimal.exactText x).toList at hd
        rw [hlist] at hd
        refine InNumber.endsWord ?_
        rcases List.mem_append.1 hd with hd | hd
        · split at hd
          · exact Or.inr (Or.inl (List.mem_singleton.1 hd))
          · cases hd
        · exact inNumber_writeDecimal _ d hd
      · have hnumeric : Tree.looksNumeric (Decimal.exactText x).toList = true := by
          rw [hlist, hcs]
          split
          · exact looksNumeric_minus hc rest
          · exact looksNumeric_digit hc rest
        change Tree.ofWord (Decimal.exactText x).toList offset = _
        rw [Tree.ofWord, if_pos hnumeric, Decimal.readInt?_exactText hn hi,
          Decimal.readFloat?_exactText hn hi, canonical, if_neg (Bool.eq_false_iff.1 hx)]
  | symbol name =>
    refine ⟨h.1, fun offset => ?_⟩
    change Tree.ofWord name.toList offset = _
    rw [Tree.ofWord, if_neg (by simp [h.2]), String.ofList_toList]
    rfl

end Literal

/-! ### Scanning -/

namespace Token

/-- A character that completes no token. -/
theorem scan_cons {offset : Nat} {c : Char} {state next : Scan} {rest : List Char}
    (h : step offset c state = ([], next)) :
    scan state offset (c :: rest) = scan next (offset + 1) rest := by
  rw [scan, h]
  dsimp only
  cases scan next (offset + 1) rest <;> rfl

/-- A word ends where the text ends or a character ends words. -/
theorem scan_inWord {first offset : Nat} {read rest : List Char}
    (h : ∀ c ∈ rest.head?, endsWord c = true) :
    scan (.inWord first read) offset rest =
      (scan .between offset rest).map (⟨.bare read.reverse, first⟩ :: ·) := by
  cases rest with
  | nil => rfl
  | cons c rest =>
    have hc := h c rfl
    simp only [scan, step, hc, if_true]
    cases scan (start offset c).2 (offset + 1) rest <;> rfl

theorem scan_word_from {first offset : Nat} {read cs rest : List Char}
    (hcs : ∀ c ∈ cs, endsWord c = false) (h : ∀ c ∈ rest.head?, endsWord c = true) :
    scan (.inWord first read) offset (cs ++ rest) =
      (scan .between (offset + cs.length) rest).map
        (⟨.bare (read.reverse ++ cs), first⟩ :: ·) := by
  induction cs generalizing offset read with
  | nil => simpa using scan_inWord h
  | cons c cs ih =>
    have hc := hcs c List.mem_cons_self
    have hstep : step offset c (.inWord first read) = ([], .inWord first (c :: read)) := by
      simp [step, hc]
    have hoffset : offset + 1 + cs.length = offset + (c :: cs).length := by
      rw [List.length_cons]
      omega
    rw [List.cons_append, scan_cons hstep, ih fun d hd => hcs d (List.mem_cons_of_mem _ hd),
      hoffset, List.reverse_cons, List.append_assoc, List.singleton_append]

/-- A word is one token. -/
theorem scan_word {offset : Nat} {cs rest : List Char} (hcs : IsWord cs)
    (h : ∀ c ∈ rest.head?, endsWord c = true) :
    scan .between offset (cs ++ rest) =
      (scan .between (offset + cs.length) rest).map (⟨.bare cs, offset⟩ :: ·) := by
  obtain ⟨hne, hall⟩ := hcs
  cases cs with
  | nil => exact absurd rfl hne
  | cons c cs =>
    have hc := hall c List.mem_cons_self
    have hstart : step offset c .between = ([], .inWord offset [c]) := by
      simp only [endsWord, Bool.or_eq_false_iff, beq_eq_false_iff_ne] at hc
      simp [step, start, hc]
    have hoffset : offset + 1 + cs.length = offset + (c :: cs).length := by
      rw [List.length_cons]
      omega
    rw [List.cons_append, scan_cons hstart,
      scan_word_from (fun d hd => hall d (List.mem_cons_of_mem _ hd)) h, hoffset]
    rfl

/-- An escaped character of a string is read back. -/
theorem scan_escaped {first offset : Nat} {read rest : List Char} (c : Char) :
    scan (.inString first read) offset ('\\' :: c :: rest) =
      scan (.inString first (unescape c :: read)) (offset + 2) rest := by
  have hslash : step offset '\\' (.inString first read) = ([], .inEscape first read offset) := rfl
  have hescaped : step (offset + 1) c (.inEscape first read offset) =
      ([], .inString first (unescape c :: read)) := rfl
  rw [scan_cons hslash, scan_cons hescaped]

/-- A written character of a string is read back. -/
theorem scan_writeChar {first offset : Nat} {read rest : List Char} (c : Char) :
    scan (.inString first read) offset (Tree.writeChar c ++ rest) =
      scan (.inString first (c :: read)) (offset + (Tree.writeChar c).length) rest := by
  unfold Tree.writeChar
  split
  · exact scan_escaped '"'
  · exact scan_escaped '\\'
  · exact scan_escaped 'n'
  · exact scan_escaped 't'
  · rename_i hquote hslash _ _
    have hstep : step offset c (.inString first read) = ([], .inString first (c :: read)) := by
      simp only [step, if_neg hquote, if_neg hslash]
    exact scan_cons hstep

theorem scan_string_from (first offset : Nat) (read cs rest : List Char) :
    ∃ next, scan (.inString first read) offset (cs.flatMap Tree.writeChar ++ '"' :: rest) =
      (scan .between next rest).map (⟨.quoted (read.reverse ++ cs), first⟩ :: ·) := by
  induction cs generalizing offset read with
  | nil =>
    refine ⟨offset + 1, ?_⟩
    simp only [List.flatMap_nil, List.nil_append, scan, step, if_true, List.append_nil]
    rfl
  | cons c cs ih =>
    obtain ⟨next, hnext⟩ := ih (offset + (Tree.writeChar c).length) (c :: read)
    refine ⟨next, ?_⟩
    rw [List.flatMap_cons, List.append_assoc, scan_writeChar, hnext, List.reverse_cons,
      List.append_assoc, List.singleton_append]

/-- A written string is one token. -/
theorem scan_string (offset : Nat) (cs rest : List Char) :
    ∃ next, scan .between offset ('"' :: (cs.flatMap Tree.writeChar ++ '"' :: rest)) =
      (scan .between next rest).map (⟨.quoted cs, offset⟩ :: ·) := by
  have hstart : step offset '"' .between = ([], .inString offset []) := by
    simp only [step, start]
    rfl
  obtain ⟨next, hnext⟩ := scan_string_from offset (offset + 1) [] cs rest
  refine ⟨next, ?_⟩
  rw [scan_cons hstart, hnext]
  rfl

/-! Characters that are written fall into tokens wherever they stand, if what follows ends a word. -/

/-- **Whether characters fall into tokens** of certain kinds. -/
def ScansAs (cs : List Char) (kinds : List TokenKind) : Prop :=
  ∀ (offset : Nat) (rest : List Char), (∀ c ∈ rest.head?, endsWord c = true) →
    ∃ tokens next, tokens.map Token.kind = kinds ∧
      scan .between offset (cs ++ rest) = (scan .between next rest).map (tokens ++ ·)

namespace ScansAs

variable {cs ds : List Char} {kinds more : List TokenKind}

theorem word (h : IsWord cs) : ScansAs cs [.bare cs] := fun offset _ hrest =>
  ⟨[⟨.bare cs, offset⟩], offset + cs.length, rfl, scan_word h hrest⟩

theorem string (cs : List Char) :
    ScansAs ('"' :: (cs.flatMap Tree.writeChar ++ ['"'])) [.quoted cs] := by
  intro offset rest _
  obtain ⟨next, hnext⟩ := scan_string offset cs rest
  refine ⟨[⟨.quoted cs, offset⟩], next, rfl, ?_⟩
  rw [List.cons_append, List.append_assoc, List.singleton_append, hnext]
  rfl

theorem closing : ScansAs [')'] [.closing] := fun offset _ _ =>
  ⟨[⟨.closing, offset⟩], offset + 1, rfl, rfl⟩

theorem opening (h : ScansAs cs kinds) : ScansAs ('(' :: cs) (.opening :: kinds) := by
  intro offset rest hrest
  obtain ⟨tokens, next, rfl, htokens⟩ := h (offset + 1) rest hrest
  refine ⟨⟨.opening, offset⟩ :: tokens, next, rfl, ?_⟩
  have hopening : scan .between offset ('(' :: (cs ++ rest)) =
      (scan .between (offset + 1) (cs ++ rest)).map (⟨.opening, offset⟩ :: ·) := rfl
  rw [List.cons_append, hopening, htokens]
  cases scan .between next rest <;> rfl

theorem space (h : ScansAs cs kinds) : ScansAs (' ' :: cs) kinds := by
  intro offset rest hrest
  obtain ⟨tokens, next, hkinds, htokens⟩ := h (offset + 1) rest hrest
  have hstep : step offset ' ' .between = ([], .between) := by
    simp only [step, start]
    rfl
  exact ⟨tokens, next, hkinds, (scan_cons hstep).trans htokens⟩

theorem append (h : ScansAs cs kinds) (h' : ScansAs ds more) (hne : ds ≠ [])
    (hends : ∀ c ∈ ds.head?, endsWord c = true) : ScansAs (cs ++ ds) (kinds ++ more) := by
  intro offset rest hrest
  have hhead : (ds ++ rest).head? = ds.head? := by
    cases ds with
    | nil => exact absurd rfl hne
    | cons d ds => rfl
  obtain ⟨tokens, middle, rfl, htokens⟩ := h offset (ds ++ rest) (hhead ▸ hends)
  obtain ⟨others, next, rfl, hothers⟩ := h' middle rest hrest
  refine ⟨tokens ++ others, next, List.map_append, ?_⟩
  rw [List.append_assoc, htokens, hothers]
  cases scan .between next rest with
  | error e => rfl
  | ok later => exact congrArg Except.ok (List.append_assoc tokens others later).symm

end ScansAs

end Token

/-! ### Reading -/

namespace Tree

mutual

/-- The formula whose literals are replaced by their images. -/
def mapLiterals (f : Literal → Literal) : Tree → Tree
  | atom l => atom (f l)
  | list items => list (mapLiteralsOfAll f items)

/-- The formulas whose literals are replaced by their images. -/
def mapLiteralsOfAll (f : Literal → Literal) : List Tree → List Tree
  | [] => []
  | t :: rest => t.mapLiterals f :: mapLiteralsOfAll f rest

end

@[simp] theorem mapLiteralsOfAll_eq_map (f : Literal → Literal) (items : List Tree) :
    mapLiteralsOfAll f items = items.map (mapLiterals f) := by
  induction items with
  | nil => rfl
  | cons t rest ih => rw [mapLiteralsOfAll, ih, List.map_cons]

/-- **The formula that is read where a formula was written.** -/
def canonical (t : Tree) : Tree := t.mapLiterals Literal.canonical

@[simp] theorem canonical_atom (l : Literal) : (atom l).canonical = atom l.canonical := rfl

@[simp] theorem canonical_list (items : List Tree) :
    (list items).canonical = list (items.map canonical) := by
  rw [canonical, mapLiterals, mapLiteralsOfAll_eq_map]
  rfl

@[simp] theorem canonical_canonical (t : Tree) : t.canonical.canonical = t.canonical := by
  induction t using inductionOn with
  | atom l => simp
  | list items ih =>
    simp only [canonical_list, List.map_map, list.injEq, List.map_inj_left]
    exact ih

/-- Whether a node can be read from a text: its literal can, or it is a headed list. -/
def IsReadableNode : Tree → Prop
  | atom l => l.IsReadable
  | list items => isHeaded items = true

/-- **Whether a formula can be read from a text.** -/
structure IsReadable (t : Tree) : Prop where
  nodes : t.Everywhere IsReadableNode
  depth : t.depth ≤ maxNesting

theorem isHeaded_canonical {items : List Tree} (h : isHeaded items = true) :
    isHeaded (items.map canonical) = true := by
  unfold isHeaded at h ⊢
  cases items with
  | nil => cases h
  | cons t rest =>
    cases t with
    | list items => cases h
    | atom l => cases l <;> first | exact h | cases h

theorem depth_canonical (t : Tree) : t.canonical.depth = t.depth := by
  have hall : ∀ items : List Tree, (∀ t ∈ items, t.canonical.depth = t.depth) →
      depthOfAll (items.map canonical) = depthOfAll items := by
    intro items
    induction items with
    | nil => intro _; rfl
    | cons u rest ih =>
      intro h
      rw [List.map_cons, depthOfAll, depthOfAll, h u List.mem_cons_self,
        ih fun t ht => h t (List.mem_cons_of_mem _ ht)]
  induction t using inductionOn with
  | atom l => rfl
  | list items ih => rw [canonical_list, depth, depth, hall items ih]

theorem IsReadable.canonical {t : Tree} (h : t.IsReadable) : t.canonical.IsReadable := by
  refine ⟨?_, (depth_canonical t).symm ▸ h.depth⟩
  have hnodes := h.nodes
  clear h
  induction t using inductionOn with
  | atom l =>
    rw [canonical_atom, everywhere_atom]
    exact Literal.isReadable_canonical (everywhere_atom.1 hnodes)
  | list items ih =>
    rw [everywhere_list] at hnodes
    rw [canonical_list, everywhere_list]
    refine ⟨isHeaded_canonical hnodes.1, fun u hu => ?_⟩
    obtain ⟨t, ht, rfl⟩ := List.mem_map.1 hu
    exact ih t ht (hnodes.2 t ht)

/-- A written literal is one token, which spells what it is read as. -/
theorem scansAs_literal {l : Literal} (h : l.IsReadable) :
    ∃ kinds, Token.ScansAs (writeLiteral l) kinds ∧ Spells kinds (atom l.canonical) := by
  cases hl : l.str? with
  | none =>
    obtain ⟨hword, hread⟩ := Literal.word_text h hl
    have hwrite : writeLiteral l = l.text.toList := by
      cases l <;> first | rfl | cases hl
    rw [hwrite]
    exact ⟨_, .word hword, .bare (hread 0)⟩
  | some text =>
    obtain rfl : l = .str text := by
      cases l <;> first | exact congrArg _ (Option.some.inj hl) | cases hl
    have hspells := Spells.quoted text.toList
    rw [String.ofList_toList] at hspells
    exact ⟨_, .string text.toList, hspells⟩

/-- What follows an item of a list, up to the parenthesis that closes the list. -/
theorem scansAs_writeMore {items : List Tree}
    (ih : ∀ t ∈ items, ∃ kinds, Token.ScansAs t.write kinds ∧ Spells kinds t.canonical) :
    ∃ args : List (List TokenKind × Tree), args.map (·.2) = items.map canonical ∧
      (∀ arg ∈ args, Spells arg.1 arg.2) ∧
      Token.ScansAs (writeMore items ++ [')']) (args.flatMap (·.1) ++ [.closing]) ∧
      ∀ c ∈ (writeMore items ++ [')']).head?, Token.endsWord c = true := by
  induction items with
  | nil =>
    refine ⟨[], rfl, nofun, .closing, ?_⟩
    intro c hc
    obtain rfl : c = ')' := by simpa [writeMore, eq_comm] using hc
    rfl
  | cons t more ihm =>
    obtain ⟨kinds, hscans, hspells⟩ := ih t List.mem_cons_self
    obtain ⟨args, hargs, hall, hmore, hends⟩ :=
      ihm fun u hu => ih u (List.mem_cons_of_mem _ hu)
    refine ⟨(kinds, t.canonical) :: args, ?_, ?_, ?_, ?_⟩
    · rw [List.map_cons, List.map_cons, hargs]
    · intro arg harg
      rcases List.mem_cons.1 harg with rfl | harg
      · exact hspells
      · exact hall arg harg
    · rw [writeMore, List.cons_append, List.append_assoc, List.flatMap_cons, List.append_assoc]
      exact (hscans.append hmore (by simp) hends).space
    · intro c hc
      obtain rfl : c = ' ' := by simpa [writeMore, eq_comm] using hc
      rfl

/-- **A written formula spells what it is read as.** -/
theorem scansAs_write {t : Tree} (h : t.Everywhere IsReadableNode) :
    ∃ kinds, Token.ScansAs t.write kinds ∧ Spells kinds t.canonical := by
  induction t using inductionOn with
  | atom l => exact scansAs_literal (everywhere_atom.1 h)
  | list items ih =>
    obtain ⟨hheaded, hitems⟩ := everywhere_list.1 h
    cases items with
    | nil => cases hheaded
    | cons t more =>
      obtain ⟨kinds, hscans, hspells⟩ := ih t List.mem_cons_self (hitems t List.mem_cons_self)
      obtain ⟨args, hargs, hall, hmore, hends⟩ := scansAs_writeMore fun u hu =>
        ih u (List.mem_cons_of_mem _ hu) (hitems u (List.mem_cons_of_mem _ hu))
      have hcanonical : ((kinds, t.canonical) :: args).map (·.2) = (t :: more).map canonical := by
        rw [List.map_cons, List.map_cons, hargs]
      have hclosed : ∀ item ∈ (kinds, t.canonical) :: args, Spells item.1 item.2 := by
        intro item hitem
        rcases List.mem_cons.1 hitem with rfl | hitem
        · exact hspells
        · exact hall item hitem
      have hlist := spells_closed hclosed (hcanonical ▸ isHeaded_canonical hheaded)
      rw [hcanonical, ← canonical_list, List.flatMap_cons, List.append_assoc] at hlist
      refine ⟨_, ?_, hlist⟩
      rw [write, writeAll, List.append_assoc]
      exact (hscans.append hmore (by simp) hends).opening

/-- The tokens of the text of a formula spell its canonical form. -/
theorem tokenKinds?_text {t : Tree} (h : t.Everywhere IsReadableNode) :
    ∃ kinds, tokenKinds? t.text = some kinds ∧ Spells kinds t.canonical := by
  obtain ⟨kinds, hscans, hspells⟩ := scansAs_write h
  obtain ⟨tokens, next, hkinds, htokens⟩ := hscans 0 [] (by simp)
  refine ⟨kinds, tokenKinds?_eq_some_iff.2 ⟨tokens, ?_, hkinds⟩, hspells⟩
  rw [List.append_nil] at htokens
  rw [text, String.toList_ofList, Token.ofText, htokens]
  exact congrArg Except.ok (List.append_nil tokens)

/-- **The text of a formula** is read as its canonical form, or refused because the formula nests too
deep. -/
theorem parse_text_eq {t : Tree} (h : t.Everywhere IsReadableNode) : parse t.text =
    if t.depth ≤ maxNesting then .ok t.canonical else .error (.tooDeep maxNesting) := by
  obtain ⟨kinds, htext, hspells⟩ := tokenKinds?_text h
  rw [parse_of_spells htext hspells, depth_canonical]

/-- The text of a formula that may be read is read as its canonical form. -/
theorem parse_text {t : Tree} (h : t.IsReadable) : parse t.text = .ok t.canonical := by
  rw [parse_text_eq h.nodes, if_pos h.depth]

end Tree

/-! ### What was read can be written -/

namespace Token

/-- Whether a token is no faulty word. -/
def IsProper (token : Token) : Prop := ∀ word, token.kind = .bare word → IsWord word

/-- Whether what is read so far is no faulty word. -/
def Scan.IsProper : Scan → Prop
  | .inWord _ read => IsWord read.reverse
  | _ => True

theorem isProper_start (offset : Nat) (c : Char) :
    (∀ token ∈ (start offset c).1, token.IsProper) ∧ (start offset c).2.IsProper := by
  unfold start
  split
  · exact ⟨by simp, trivial⟩
  · rename_i hblank
    split
    · exact ⟨by simp [IsProper], trivial⟩
    · rename_i hopening
      split
      · exact ⟨by simp [IsProper], trivial⟩
      · rename_i hclosing
        split
        · exact ⟨by simp, trivial⟩
        · rename_i hquote
          refine ⟨by simp, ?_, ?_⟩
          · simp
          · intro d hd
            obtain rfl : d = c := by simpa using hd
            simp [endsWord, hblank, hopening, hclosing, hquote]

theorem isProper_step (offset : Nat) (c : Char) {state : Scan} (h : state.IsProper) :
    (∀ token ∈ (step offset c state).1, token.IsProper) ∧ (step offset c state).2.IsProper := by
  cases state with
  | between => exact isProper_start offset c
  | inString first read =>
    simp only [step]
    split
    · exact ⟨by simp [IsProper], trivial⟩
    · split <;> exact ⟨by simp, trivial⟩
  | inEscape first read slash => exact ⟨by simp [step], trivial⟩
  | inWord first read =>
    simp only [step]
    split
    · obtain ⟨htokens, hnext⟩ := isProper_start offset c
      refine ⟨fun token htoken => ?_, hnext⟩
      rcases List.mem_cons.1 htoken with rfl | htoken
      · rintro word ⟨rfl⟩
        exact h
      · exact htokens token htoken
    · rename_i hc
      refine ⟨by simp, ?_, ?_⟩
      · simp
      · intro d hd
        rcases List.mem_append.1 (List.reverse_cons ▸ hd) with hd | hd
        · exact h.2 d hd
        · obtain rfl : d = c := by simpa using hd
          simpa using hc

theorem isProper_scan {state : Scan} {offset : Nat} {cs : List Char} {tokens : List Token}
    (h : scan state offset cs = .ok tokens) (hstate : state.IsProper) :
    ∀ token ∈ tokens, token.IsProper := by
  induction cs generalizing state offset tokens with
  | nil =>
    cases state with
    | inWord first read =>
      obtain rfl := Except.ok.inj h
      intro token htoken
      obtain rfl := List.mem_singleton.1 htoken
      rintro word ⟨rfl⟩
      exact hstate
    | between =>
      obtain rfl := Except.ok.inj h
      simp
    | inString first read => cases h
    | inEscape first read slash => cases h
  | cons c rest ih =>
    obtain ⟨htokens, hnext⟩ := isProper_step offset c hstate
    rw [scan] at h
    dsimp only at h
    cases hrest : scan (step offset c state).2 (offset + 1) rest with
    | error e =>
      rw [hrest] at h
      cases h
    | ok later =>
      rw [hrest] at h
      obtain rfl := Except.ok.inj h
      intro token htoken
      exact (List.mem_append.1 htoken).elim (htokens token) (ih hrest hnext token)

end Token

namespace Tree

/-- The literal of a word can be read. -/
theorem isReadable_of_denotes {word : List Char} (hword : IsWord word) {l : Literal}
    (h : Denotes word l) : l.IsReadable := by
  unfold Denotes ofWord at h
  split at h
  · split at h
    · obtain rfl := Except.ok.inj h
      trivial
    · obtain rfl := Except.ok.inj h
      trivial
    · cases h
  · rename_i hnumeric
    obtain rfl := Except.ok.inj h
    simp only [Literal.IsReadable, String.toList_ofList]
    exact ⟨hword, by simpa using hnumeric⟩

/-- What words spell, and no faulty ones, can be read. -/
theorem Spells.everywhere {kinds : List TokenKind} {t : Tree} (h : Spells kinds t)
    (hwords : ∀ word, .bare word ∈ kinds → IsWord word) : t.Everywhere IsReadableNode := by
  induction h with
  | quoted text => exact everywhere_atom.2 trivial
  | @bare word l hl =>
    exact everywhere_atom.2 (isReadable_of_denotes (hwords word List.mem_cons_self) hl)
  | @list word name args hhead hkeyword _ ih =>
    refine everywhere_list.2 ⟨isHeaded_iff.2 ⟨name, _, rfl, hkeyword⟩, fun t ht => ?_⟩
    rcases List.mem_cons.1 ht with rfl | ht
    · exact everywhere_atom.2 (isReadable_of_denotes (hwords word (by simp)) hhead)
    · obtain ⟨arg, harg, rfl⟩ := List.mem_map.1 ht
      refine ih arg harg fun word hword => hwords word ?_
      have hmem : TokenKind.bare word ∈ args.flatMap (·.1) := List.mem_flatMap.2 ⟨arg, harg, hword⟩
      simp [hmem]

/-- **What was read from a text can be read.** -/
theorem isReadable_of_parse {s : String} {t : Tree} (h : parse s = .ok t) : t.IsReadable := by
  obtain ⟨kinds, hkinds, hspells, hdepth⟩ := isSpeltBy_of_parse h
  obtain ⟨tokens, htokens, rfl⟩ := tokenKinds?_eq_some_iff.1 hkinds
  refine ⟨hspells.everywhere fun word hword => ?_, hdepth⟩
  obtain ⟨token, htoken, hkind⟩ := List.mem_map.1 hword
  exact Token.isProper_scan htokens trivial token htoken word hkind

/-- A formula that was read is written so that its text gives the canonical form of it. -/
theorem parse_text_of_parse {s : String} {t : Tree} (h : parse s = .ok t) :
    parse t.text = .ok t.canonical :=
  parse_text (isReadable_of_parse h)

/-! ### Formulas that are told by their texts -/

/-- **Whether a formula is read back as it is.** -/
structure IsReadBack (t : Tree) : Prop where
  readable : t.IsReadable
  canonical : t.canonical = t

theorem IsReadBack.parse_text {t : Tree} (h : t.IsReadBack) : parse t.text = .ok t := by
  rw [Tree.parse_text h.readable, h.canonical]

/-- Such formulas are told by their texts. -/
theorem IsReadBack.text_inj {t u : Tree} (ht : t.IsReadBack) (hu : u.IsReadBack)
    (h : t.text = u.text) : t = u :=
  Except.ok.inj (ht.parse_text.symm.trans (h ▸ hu.parse_text))

theorem canonical_node {t u : Tree} (h : u.canonical = u) (htu : t ∈ u.nodes) : t.canonical = t := by
  induction u using inductionOn with
  | atom l => exact List.mem_singleton.1 htu ▸ h
  | list items ih =>
    rcases mem_nodes_list.1 htu with rfl | ⟨v, hv, htv⟩
    · exact h
    · rw [canonical_list] at h
      have hitems : ∀ v ∈ items, v.canonical = v :=
        List.map_inj_left.1 ((list.inj h).trans (List.map_id items).symm)
      exact ih v hv (hitems v hv) htv

/-- The parts of such a formula are read back as well. -/
theorem IsReadBack.node {t u : Tree} (h : u.IsReadBack) (htu : t ∈ u.nodes) : t.IsReadBack :=
  ⟨⟨h.readable.nodes.node htu, (depth_le_of_mem_nodes htu).trans h.readable.depth⟩,
    canonical_node h.canonical htu⟩

end Tree

end SeriesAlgebra
