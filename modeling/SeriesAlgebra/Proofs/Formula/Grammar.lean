import SeriesAlgebra.Formula.Reading
import SeriesAlgebra.Proofs.Result

/-!
# The grammar of formulas

Reading keeps the lists that are still open on a stack, and looks at the head of a list only
when the list is closed. What it accepts can be told without a stack: a string or a bare word
spells a literal, and a list is spelt by what spells its elements, between parentheses
(`Tree.Spells`). How deep lists nest is no part of the grammar.

Tokens that spell a formula are read as this formula if it nests no deeper than it may, and
are refused for that reason alone if it does (`Tree.readTokens_of_spells`). Conversely,
whatever was read was spelt: the tokens read so far spell the elements of the lists that are
open, and each token keeps this so (`Tree.spelt_take`).

Main statement: a text is read as a formula exactly if its tokens spell the formula and it nests
no deeper than it may, and blanks do not count (`Tree.parse_iff_spells`).
-/

namespace SeriesAlgebra

namespace Tree

/-! ### The grammar -/

/-- **Whether a bare word is read as a literal.** Where the word stands matters only to the error
if it is not. -/
def Denotes (word : List Char) (l : Literal) : Prop := ofWord word 0 = .ok l

/-- **Whether kinds of tokens spell a formula.** The elements of a list after its head come with
the kinds that spell them. -/
inductive Spells : List TokenKind → Tree → Prop
  /-- A string is one token. -/
  | quoted (text : List Char) : Spells [.quoted text] (str (String.ofList text))
  /-- So is a word, which has to be a literal. -/
  | bare {word : List Char} {l : Literal} (h : Denotes word l) : Spells [.bare word] (atom l)
  /-- A list stands between parentheses and starts with a symbol that is no keyword. -/
  | list {word : List Char} {name : String} {args : List (List TokenKind × Tree)}
      (hhead : Denotes word (.symbol name)) (hkeyword : (Literal.symbol name).isKeyword = false)
      (hargs : ∀ arg ∈ args, Spells arg.1 arg.2) :
      Spells (.opening :: .bare word :: (args.flatMap (·.1) ++ [.closing]))
        (list (symbol name :: args.map (·.2)))

theorem ofWord_eq_ok_iff {word : List Char} {offset : Nat} {l : Literal} :
    ofWord word offset = .ok l ↔ Denotes word l := by
  unfold Denotes ofWord
  by_cases hnumeric : looksNumeric word = true
  · rw [if_pos hnumeric, if_pos hnumeric]
    cases Decimal.readInt? word with
    | some n => rfl
    | none =>
      cases Decimal.readFloat? word with
      | some x => rfl
      | none => exact ⟨nofun, nofun⟩
  · rw [if_neg hnumeric, if_neg hnumeric]

theorem isHeaded_iff {items : List Tree} : isHeaded items = true ↔
    ∃ name rest, items = symbol name :: rest ∧ (Literal.symbol name).isKeyword = false := by
  constructor
  · intro h
    cases items with
    | nil => cases h
    | cons t rest =>
      cases t with
      | list items => cases h
      | atom l =>
        cases l with
        | symbol name => exact ⟨name, rest, rfl, (Bool.not_eq_true' _).mp h⟩
        | _ => cases h
  · rintro ⟨name, rest, rfl, hkeyword⟩
    exact (Bool.not_eq_true' _).mpr hkeyword

/-! ### What is spelt is read -/

section Reading

variable {lists : List OpenList} {token : Token}

theorem take_quoted {text : List Char} (h : token.kind = .quoted text) :
    take lists token = .ok (place (str (String.ofList text)) lists) := by
  simp only [take, h]

theorem take_bare {word : List Char} {l : Literal} (h : token.kind = .bare word)
    (hl : Denotes word l) : take lists token = .ok (place (atom l) lists) := by
  simp only [take, h, ofWord_eq_ok_iff.mpr hl]
  rfl

theorem take_opening (h : token.kind = .opening) : take lists token =
    if maxNesting ≤ lists.length then .error (.tooDeep maxNesting)
    else .ok (.inside (⟨token.offset, []⟩ :: lists)) := by
  simp only [take, h]

theorem take_closing {start : Nat} {items : List Tree} (h : token.kind = .closing) :
    take (⟨start, items⟩ :: lists) token =
      if isHeaded items.reverse then .ok (place (list items.reverse) lists)
      else .error (.malformedList start) := by
  simp only [take, h]

theorem readTokens_cons {reading : Reading} (h : take lists token = .ok reading)
    (rest : List Token) : readTokens (.inside lists) (token :: rest) = readTokens reading rest := by
  rw [readTokens, h]
  rfl

/-- **Whether an item is read** where lists are open, and refused if it nests too deep there. -/
def IsReadAs (kinds : List TokenKind) (t : Tree) : Prop :=
  ∀ (lists : List OpenList) (tokens rest : List Token), lists.length ≤ maxNesting →
    tokens.map Token.kind = kinds →
    readTokens (.inside lists) (tokens ++ rest) =
      if t.depth + lists.length ≤ maxNesting then readTokens (place t lists) rest
      else .error (.tooDeep maxNesting)

/-- Items are read one after the other, into the innermost open list. -/
theorem readTokens_items {args : List (List TokenKind × Tree)}
    (hargs : ∀ arg ∈ args, IsReadAs arg.1 arg.2) (start : Nat) (done : List Tree)
    (lists : List OpenList) (tokens rest : List Token) (hlists : lists.length + 1 ≤ maxNesting)
    (hkinds : tokens.map Token.kind = args.flatMap (·.1)) :
    readTokens (.inside (⟨start, done⟩ :: lists)) (tokens ++ rest) =
      if depthOfAll (args.map (·.2)) + (lists.length + 1) ≤ maxNesting then
        readTokens (.inside (⟨start, (args.map (·.2)).reverse ++ done⟩ :: lists)) rest
      else .error (.tooDeep maxNesting) := by
  induction args generalizing done tokens with
  | nil =>
    obtain rfl : tokens = [] := List.map_eq_nil_iff.mp hkinds
    rw [List.map_nil, depthOfAll, Nat.zero_add, if_pos hlists]
    rfl
  | cons arg args ih =>
    obtain ⟨kinds, t⟩ := arg
    rw [List.flatMap_cons] at hkinds
    obtain ⟨first, others, rfl, hfirst, hothers⟩ := List.map_eq_append_iff.mp hkinds
    have ht := hargs (kinds, t) List.mem_cons_self (⟨start, done⟩ :: lists) first (others ++ rest)
      hlists hfirst
    have hdepth : depthOfAll (((kinds, t) :: args).map (·.2)) =
        max t.depth (depthOfAll (args.map (·.2))) := rfl
    rw [List.append_assoc, hdepth, ht, List.length_cons]
    by_cases hdeep : t.depth + (lists.length + 1) ≤ maxNesting
    · have hrest := ih (fun arg harg => hargs arg (List.mem_cons_of_mem _ harg)) (t :: done) others
        hothers
      rw [if_pos hdeep, place, hrest]
      refine if_congr ⟨fun h => by omega, fun h => by omega⟩ ?_ rfl
      rw [List.map_cons, List.reverse_cons, List.append_assoc, List.singleton_append]
    · rw [if_neg hdeep, if_neg (by omega)]

/-- **What is spelt is read**, if it does not nest too deep. The induction is on what spells it, over
all lists that may be open. -/
theorem readTokens_of_spells {kinds : List TokenKind} {t : Tree} (h : Spells kinds t) :
    IsReadAs kinds t := by
  induction h with
  | quoted text =>
    intro lists tokens rest hlists hkinds
    obtain ⟨token, rfl, hkind⟩ := List.map_eq_singleton_iff.mp hkinds
    rw [List.singleton_append, readTokens_cons (take_quoted hkind), str, depth, Nat.zero_add,
      if_pos hlists]
  | @bare word l hl =>
    intro lists tokens rest hlists hkinds
    obtain ⟨token, rfl, hkind⟩ := List.map_eq_singleton_iff.mp hkinds
    rw [List.singleton_append, readTokens_cons (take_bare hkind hl), depth, Nat.zero_add,
      if_pos hlists]
  | @list word name args hhead hkeyword _ ih =>
    intro lists tokens rest hlists hkinds
    obtain ⟨opening, tokens, rfl, hopening, hkinds⟩ := List.map_eq_cons_iff.mp hkinds
    obtain ⟨head, tokens, rfl, hword, hkinds⟩ := List.map_eq_cons_iff.mp hkinds
    obtain ⟨tokens, last, rfl, hitems, hlast⟩ := List.map_eq_append_iff.mp hkinds
    obtain ⟨closing, rfl, hclosing⟩ := List.map_eq_singleton_iff.mp hlast
    have hdepth : (list (symbol name :: args.map (·.2))).depth =
        1 + depthOfAll (args.map (·.2)) := by
      rw [depth, depthOfAll, symbol, depth, Nat.zero_max]
    rw [hdepth, List.cons_append, List.cons_append, List.append_assoc, List.singleton_append]
    by_cases hfull : maxNesting ≤ lists.length
    · -- there is no place for one more list
      rw [readTokens, take_opening hopening, if_pos hfull, if_neg (by omega)]
      rfl
    · have htake : take lists opening = .ok (.inside (⟨opening.offset, []⟩ :: lists)) :=
        (take_opening hopening).trans (if_neg hfull)
      have hargs := readTokens_items ih opening.offset [symbol name] lists tokens (closing :: rest)
        (by omega) hitems
      rw [readTokens_cons htake, readTokens_cons (take_bare hword hhead)]
      refine hargs.trans ?_
      refine if_congr ⟨fun h => by omega, fun h => by omega⟩ ?_ rfl
      have hitems : ((args.map (·.2)).reverse ++ [symbol name]).reverse =
          symbol name :: args.map (·.2) := by
        rw [List.reverse_append, List.reverse_reverse, List.reverse_singleton, List.singleton_append]
      refine readTokens_cons ?_ rest
      rw [take_closing hclosing, hitems, if_pos (isHeaded_iff.mpr ⟨name, _, rfl, hkeyword⟩)]

end Reading

/-! ### What is read is spelt

The tokens that were read so far spell the elements of each open list after its parenthesis. The
head of a list is one of these elements until the list is closed. -/

/-- **Whether kinds of tokens were read into open lists.** -/
inductive Opens : List TokenKind → List OpenList → Prop
  /-- Nothing was read yet. -/
  | nil : Opens [] []
  /-- A list was opened, and elements of it were read. -/
  | cons {kinds : List TokenKind} {lists : List OpenList} {start : Nat}
      {items : List (List TokenKind × Tree)} (h : Opens kinds lists)
      (hitems : ∀ item ∈ items, Spells item.1 item.2) :
      Opens (kinds ++ .opening :: items.flatMap (·.1)) (⟨start, (items.map (·.2)).reverse⟩ :: lists)

/-- Whether kinds of tokens are what was read so far. -/
def Spelt (kinds : List TokenKind) : Reading → Prop
  | .inside lists => Opens kinds lists
  | .complete t => Spells kinds t

section Spelling

variable {kinds more : List TokenKind} {lists : List OpenList} {t : Tree}

theorem spelt_place (h : Opens kinds lists) (ht : Spells more t) :
    Spelt (kinds ++ more) (place t lists) := by
  cases h with
  | nil => exact ht
  | @cons before outer start items h hitems =>
    -- one more element of the innermost list
    have hall : ∀ item ∈ items ++ [(more, t)], Spells item.1 item.2 := by
      intro item hitem
      rcases List.mem_append.mp hitem with hitem | hitem
      · exact hitems item hitem
      · rw [List.mem_singleton.mp hitem]
        exact ht
    have hopens : Opens (before ++ .opening :: (items ++ [(more, t)]).flatMap (·.1))
        (⟨start, ((items ++ [(more, t)]).map (·.2)).reverse⟩ :: outer) := h.cons hall
    simpa [place, Spelt] using hopens

/-- A list that may be closed is spelt. -/
theorem spells_closed {items : List (List TokenKind × Tree)}
    (hitems : ∀ item ∈ items, Spells item.1 item.2) (hheaded : isHeaded (items.map (·.2)) = true) :
    Spells (.opening :: (items.flatMap (·.1) ++ [.closing])) (list (items.map (·.2))) := by
  obtain ⟨name, rest, hsplit, hkeyword⟩ := isHeaded_iff.mp hheaded
  obtain ⟨⟨headKinds, head⟩, args, rfl, rfl, rfl⟩ := List.map_eq_cons_iff.mp hsplit
  have hargs : ∀ arg ∈ args, Spells arg.1 arg.2 :=
    fun arg harg => hitems arg (List.mem_cons_of_mem _ harg)
  have hhead := hitems (headKinds, symbol name) List.mem_cons_self
  -- only a word spells a symbol
  cases hhead with
  | bare hword => exact .list hword hkeyword hargs

/-- **A token goes on spelling.** -/
theorem spelt_take (h : Opens kinds lists) {token : Token} {reading : Reading}
    (htake : take lists token = .ok reading) : Spelt (kinds ++ [token.kind]) reading := by
  cases hkind : token.kind with
  | quoted text =>
    rw [take_quoted hkind] at htake
    rw [← Except.ok.inj htake]
    exact spelt_place h (.quoted text)
  | bare word =>
    simp only [take, hkind] at htake
    obtain ⟨l, hl, rfl⟩ := Result.map_ok htake
    exact spelt_place h (.bare (ofWord_eq_ok_iff.mp hl))
  | opening =>
    rw [take_opening hkind] at htake
    split at htake
    · cases htake
    · rw [← Except.ok.inj htake]
      -- a list without elements yet
      exact @Opens.cons kinds lists token.offset [] h (by simp)
  | closing =>
    cases h with
    | nil =>
      simp only [take, hkind] at htake
      cases htake
    | @cons before outer start items h hitems =>
      rw [take_closing hkind, List.reverse_reverse] at htake
      split at htake
      · rename_i hheaded
        rw [← Except.ok.inj htake, List.append_assoc, List.cons_append]
        exact spelt_place h (spells_closed hitems hheaded)
      · cases htake

/-- **What is read is spelt.** -/
theorem spells_of_readTokens {tokens : List Token} {reading : Reading} (h : Spelt kinds reading)
    (hread : readTokens reading tokens = .ok t) : Spells (kinds ++ tokens.map Token.kind) t := by
  induction tokens generalizing kinds reading with
  | nil =>
    cases reading with
    | inside lists => cases hread
    | complete u =>
      rw [← Except.ok.inj hread, List.map_nil, List.append_nil]
      exact h
  | cons token rest ih =>
    cases reading with
    | complete u => cases hread
    | inside lists =>
      rw [readTokens] at hread
      obtain ⟨next, htake, hread⟩ := Result.bind_ok hread
      have hspells := ih (spelt_take h htake) hread
      rwa [List.append_assoc, List.singleton_append, ← List.map_cons] at hspells

end Spelling

end Tree

/-! ### Positions and blanks

Where a token stands has no influence on what it is, and neither has the number of blanks between
two tokens. -/

namespace Token

/-- Whether two states of the scanner differ in positions only. -/
inductive Scan.Same : Scan → Scan → Prop
  | between : Same .between .between
  | inString (first first' : Nat) (read : List Char) :
      Same (.inString first read) (.inString first' read)
  | inEscape (first first' slash slash' : Nat) (read : List Char) :
      Same (.inEscape first read slash) (.inEscape first' read slash')
  | inWord (first first' : Nat) (read : List Char) :
      Same (.inWord first read) (.inWord first' read)

theorem Scan.Same.refl (state : Scan) : Scan.Same state state := by
  cases state with
  | between => exact .between
  | inString first read => exact .inString first first read
  | inEscape first read slash => exact .inEscape first first slash slash read
  | inWord first read => exact .inWord first first read

/-- The kinds of the tokens from a state on. -/
def kindsFrom (state : Scan) (offset : Nat) (cs : List Char) : Option (List TokenKind) :=
  (scan state offset cs).toOption.map (List.map Token.kind)

theorem kindsFrom_cons (state : Scan) (offset : Nat) (c : Char) (rest : List Char) :
    kindsFrom state offset (c :: rest) =
      (kindsFrom (step offset c state).2 (offset + 1) rest).map
        ((step offset c state).1.map Token.kind ++ ·) := by
  unfold kindsFrom
  rw [scan]
  dsimp only
  cases scan (step offset c state).2 (offset + 1) rest with
  | error e => rfl
  | ok tokens => exact congrArg some List.map_append

theorem same_start (offset offset' : Nat) (c : Char) :
    (start offset c).1.map Token.kind = (start offset' c).1.map Token.kind ∧
      Scan.Same (start offset c).2 (start offset' c).2 := by
  unfold start
  split
  · exact ⟨rfl, .between⟩
  split
  · exact ⟨rfl, .between⟩
  split
  · exact ⟨rfl, .between⟩
  split
  · exact ⟨rfl, .inString _ _ _⟩
  · exact ⟨rfl, .inWord _ _ _⟩

theorem Scan.Same.step {state state' : Scan} (h : Scan.Same state state') (offset offset' : Nat)
    (c : Char) :
    (Token.step offset c state).1.map Token.kind = (Token.step offset' c state').1.map Token.kind ∧
      Scan.Same (Token.step offset c state).2 (Token.step offset' c state').2 := by
  cases h with
  | between => exact same_start offset offset' c
  | inString first first' read =>
    simp only [Token.step]
    split
    · exact ⟨rfl, .between⟩
    split
    · exact ⟨rfl, .inEscape _ _ _ _ _⟩
    · exact ⟨rfl, .inString _ _ _⟩
  | inEscape first first' slash slash' read => exact ⟨rfl, .inString _ _ _⟩
  | inWord first first' read =>
    obtain ⟨hkinds, hnext⟩ := same_start offset offset' c
    simp only [Token.step]
    split
    · refine ⟨?_, hnext⟩
      rw [List.map_cons, List.map_cons, hkinds]
    · exact ⟨rfl, .inWord _ _ _⟩

/-- **Positions do not count.** -/
theorem Scan.Same.kindsFrom_eq {state state' : Scan} (h : Scan.Same state state')
    (offset offset' : Nat) (cs : List Char) :
    kindsFrom state offset cs = kindsFrom state' offset' cs := by
  induction cs generalizing state state' offset offset' with
  | nil => cases h <;> rfl
  | cons c rest ih =>
    obtain ⟨hkinds, hnext⟩ := h.step offset offset' c
    rw [kindsFrom_cons, kindsFrom_cons, hkinds, ih hnext (offset + 1) (offset' + 1)]

/-- Whether characters are blanks, and at least one. -/
def IsBlanks (cs : List Char) : Prop := cs ≠ [] ∧ ∀ c ∈ cs, Text.isBlank c = true

theorem start_blank {c : Char} (h : Text.isBlank c = true) (offset : Nat) :
    start offset c = ([], .between) := if_pos h

theorem kindsFrom_blanks {blanks : List Char} (h : ∀ c ∈ blanks, Text.isBlank c = true)
    (offset offset' : Nat) (rest : List Char) :
    kindsFrom .between offset (blanks ++ rest) = kindsFrom .between offset' rest := by
  induction blanks generalizing offset with
  | nil => exact Scan.Same.between.kindsFrom_eq offset offset' rest
  | cons c blanks ih =>
    rw [List.cons_append, kindsFrom_cons, step, start_blank (h c List.mem_cons_self),
      ih fun d hd => h d (List.mem_cons_of_mem _ hd)]
    cases kindsFrom .between offset' rest <;> rfl

/-- A word ends at a blank. -/
theorem kindsFrom_word_blanks {blanks : List Char} (h : IsBlanks blanks) (first : Nat)
    (read : List Char) (offset offset' : Nat) (rest : List Char) :
    kindsFrom (.inWord first read) offset (blanks ++ rest) =
      (kindsFrom .between offset' rest).map (.bare read.reverse :: ·) := by
  obtain ⟨hne, hblanks⟩ := h
  cases blanks with
  | nil => exact absurd rfl hne
  | cons c blanks =>
    have hc := hblanks c List.mem_cons_self
    have hstep : step offset c (.inWord first read) = ([⟨.bare read.reverse, first⟩], .between) := by
      rw [step, start_blank hc, if_pos (by rw [endsWord, hc]; rfl)]
    rw [List.cons_append, kindsFrom_cons, hstep,
      kindsFrom_blanks (fun d hd => hblanks d (List.mem_cons_of_mem _ hd))]
    rfl

/-- **How many blanks there are does not count**, after what falls into tokens by itself. Inside a
string they would. -/
theorem kindsFrom_append_blanks {front blanks others : List Char} (hblanks : IsBlanks blanks)
    (hothers : IsBlanks others) {state state' : Scan} (h : Scan.Same state state')
    (offset offset' : Nat) (hfront : (scan state offset front).toOption.isSome = true)
    (rest : List Char) :
    kindsFrom state offset (front ++ (blanks ++ rest)) =
      kindsFrom state' offset' (front ++ (others ++ rest)) := by
  induction front generalizing state state' offset offset' with
  | nil =>
    cases h with
    | between =>
      exact (kindsFrom_blanks hblanks.2 offset 0 rest).trans
        (kindsFrom_blanks hothers.2 offset' 0 rest).symm
    | inWord first first' read =>
      exact (kindsFrom_word_blanks hblanks first read offset 0 rest).trans
        (kindsFrom_word_blanks hothers first' read offset' 0 rest).symm
    | inString first first' read => cases hfront
    | inEscape first first' slash slash' read => cases hfront
  | cons c front ih =>
    have hrest : (scan (step offset c state).2 (offset + 1) front).toOption.isSome = true := by
      rw [scan] at hfront
      dsimp only at hfront
      cases hscan : scan (step offset c state).2 (offset + 1) front with
      | ok tokens => rfl
      | error e =>
        rw [hscan] at hfront
        cases hfront
    obtain ⟨hkinds, hnext⟩ := h.step offset offset' c
    rw [List.cons_append, List.cons_append, kindsFrom_cons, kindsFrom_cons, hkinds,
      ih hnext (offset + 1) (offset' + 1) hrest]

end Token

namespace Tree

/-! ### Texts -/

/-- The kinds of the tokens of a text, if it falls into tokens. -/
def tokenKinds? (s : String) : Option (List TokenKind) := Token.kindsFrom .between 0 s.toList

/-- **Whether a text spells a formula** that nests no deeper than it may. -/
def IsSpeltBy (t : Tree) (s : String) : Prop :=
  ∃ kinds, tokenKinds? s = some kinds ∧ Spells kinds t ∧ t.depth ≤ maxNesting

theorem tokenKinds?_eq_some_iff {s : String} {kinds : List TokenKind} :
    tokenKinds? s = some kinds ↔
      ∃ tokens, Token.ofText s.toList = .ok tokens ∧ tokens.map Token.kind = kinds := by
  unfold tokenKinds? Token.kindsFrom Token.ofText
  cases Token.scan .between 0 s.toList with
  | error e => exact ⟨nofun, fun ⟨_, h, _⟩ => by cases h⟩
  | ok tokens =>
    constructor
    · intro h
      exact ⟨tokens, rfl, Option.some.inj h⟩
    · rintro ⟨_, h, rfl⟩
      rw [← Except.ok.inj h]
      rfl

/-- **A text that spells a formula** is read as it, or refused because it nests too deep. -/
theorem parse_of_spells {s : String} {kinds : List TokenKind} {t : Tree}
    (hkinds : tokenKinds? s = some kinds) (ht : Spells kinds t) :
    parse s = if t.depth ≤ maxNesting then .ok t else .error (.tooDeep maxNesting) := by
  obtain ⟨tokens, htokens, hmap⟩ := tokenKinds?_eq_some_iff.mp hkinds
  have hread := readTokens_of_spells ht [] tokens [] (Nat.zero_le _) hmap
  rw [List.append_nil, List.length_nil, Nat.add_zero] at hread
  rw [parse, htokens]
  exact hread

/-- What is read from a text is spelt by it. -/
theorem isSpeltBy_of_parse {s : String} {t : Tree} (h : parse s = .ok t) : IsSpeltBy t s := by
  obtain ⟨tokens, htokens, hread⟩ := Result.bind_ok h
  have hkinds : tokenKinds? s = some (tokens.map Token.kind) :=
    tokenKinds?_eq_some_iff.mpr ⟨tokens, htokens, rfl⟩
  have hstart : Spelt [] (.inside []) := Opens.nil
  have hspells : Spells (tokens.map Token.kind) t := spells_of_readTokens hstart hread
  refine ⟨_, hkinds, hspells, ?_⟩
  by_contra hdeep
  rw [parse_of_spells hkinds hspells, if_neg hdeep] at h
  cases h

theorem parse_eq_ok_iff {s : String} {t : Tree} : parse s = .ok t ↔ IsSpeltBy t s := by
  refine ⟨isSpeltBy_of_parse, ?_⟩
  rintro ⟨kinds, hkinds, hspells, hdepth⟩
  rw [parse_of_spells hkinds hspells, if_pos hdepth]

/-- **Nothing else is spelt** by a text that is read. -/
theorem eq_of_spells {s : String} {kinds : List TokenKind} {t u : Tree} (ht : parse s = .ok t)
    (hkinds : tokenKinds? s = some kinds) (hu : Spells kinds u) : u = t := by
  rw [parse_of_spells hkinds hu] at ht
  split at ht
  · exact Except.ok.inj ht
  · cases ht

/-- **Only the kinds of the tokens count.** -/
theorem toOption_parse_congr {s s' : String} (h : tokenKinds? s = tokenKinds? s') :
    (parse s).toOption = (parse s').toOption := by
  have hiff (t : Tree) : parse s = .ok t ↔ parse s' = .ok t := by
    rw [parse_eq_ok_iff, parse_eq_ok_iff, IsSpeltBy, IsSpeltBy, h]
  cases hs : parse s with
  | ok t => rw [(hiff t).mp hs]
  | error e =>
    cases hs' : parse s' with
    | error e' => rfl
    | ok t =>
      rw [(hiff t).mpr hs'] at hs
      cases hs

theorem tokenKinds?_blanks {front blanks others : List Char} (hblanks : Token.IsBlanks blanks)
    (hothers : Token.IsBlanks others) (hfront : (Token.ofText front).toOption.isSome = true)
    (back : List Char) :
    tokenKinds? (String.ofList (front ++ (blanks ++ back))) =
      tokenKinds? (String.ofList (front ++ (others ++ back))) := by
  unfold tokenKinds?
  rw [String.toList_ofList, String.toList_ofList]
  exact Token.kindsFrom_append_blanks hblanks hothers .between 0 0 hfront back

/-- **Reading accepts exactly the grammar**: a text is read as a formula if and only if it spells
the formula; no other formula is spelt by it then; texts with tokens of the same kinds are read
alike, and in particular those that differ in the number of blanks between tokens; and any text that
spells no formula is refused. -/
theorem parse_iff_spells (s : String) :
    (∀ t, parse s = .ok t ↔ IsSpeltBy t s) ∧
    (∀ t kinds u, parse s = .ok t → tokenKinds? s = some kinds → Spells kinds u → u = t) ∧
    (∀ s', tokenKinds? s' = tokenKinds? s → (parse s').toOption = (parse s).toOption) ∧
    (∀ front blanks others back, s = String.ofList (front ++ (blanks ++ back)) →
      Token.IsBlanks blanks → Token.IsBlanks others → (Token.ofText front).toOption.isSome = true →
      (parse (String.ofList (front ++ (others ++ back)))).toOption = (parse s).toOption) ∧
    ((∀ t, ¬ IsSpeltBy t s) → ∃ e, parse s = .error e) := by
  refine ⟨fun t => parse_eq_ok_iff, fun t kinds u => eq_of_spells,
    fun s' => toOption_parse_congr, ?_, ?_⟩
  · rintro front blanks others back rfl hblanks hothers hfront
    exact toOption_parse_congr (tokenKinds?_blanks hothers hblanks hfront back)
  · intro hnone
    cases hs : parse s with
    | error e => exact ⟨e, rfl⟩
    | ok t => exact absurd (isSpeltBy_of_parse hs) (hnone t)

end Tree

end SeriesAlgebra
