import SeriesAlgebra.Formula.Error
import SeriesAlgebra.Text.Blank

/-!
# Tokens

The text of a formula falls into tokens: parentheses, quoted strings and bare
words. Blanks separate words and mean nothing else. The text is read character by
character by a small machine, whose state says what the character belongs to
(`Token.Scan`); a step of the machine (`Token.step`) may complete a token, and only
the end of the text can be wrong, inside a string.
-/

namespace SeriesAlgebra

/-- What a token is, apart from where it stands. -/
inductive TokenKind
  | opening
  | closing
  | quoted (text : List Char)
  | bare (word : List Char)
  deriving DecidableEq, Repr

/-- A token, with the position of its first character. -/
structure Token where
  kind : TokenKind
  offset : Nat
  deriving DecidableEq, Repr

namespace Token

/-- What the next character belongs to. The characters of a string or word so far are kept in
reverse. -/
inductive Scan
  /-- To no token yet. -/
  | between
  /-- To the string that starts at a position. -/
  | inString (start : Nat) (read : List Char)
  /-- To the escape at position `slash` of a string. -/
  | inEscape (start : Nat) (read : List Char) (slash : Nat)
  /-- To the word that starts at a position. -/
  | inWord (start : Nat) (read : List Char)

/-- The character that an escaped one stands for. -/
def unescape (c : Char) : Char :=
  match c with
  | 'n' => '\n'
  | 't' => '\t'
  | _ => c

/-- Whether a character ends a word. -/
def endsWord (c : Char) : Bool := Text.isBlank c || c == '(' || c == ')' || c == '"'

/-- What a character does that belongs to no token yet. -/
def start (offset : Nat) (c : Char) : List Token × Scan :=
  if Text.isBlank c then ([], .between)
  else if c = '(' then ([⟨.opening, offset⟩], .between)
  else if c = ')' then ([⟨.closing, offset⟩], .between)
  else if c = '"' then ([], .inString offset [])
  else ([], .inWord offset [c])

/-- The tokens that a character completes, and the state after it. -/
def step (offset : Nat) (c : Char) : Scan → List Token × Scan
  | .between => start offset c
  | .inString first read =>
    if c = '"' then ([⟨.quoted read.reverse, first⟩], .between)
    else if c = '\\' then ([], .inEscape first read offset)
    else ([], .inString first (c :: read))
  | .inEscape first read _ => ([], .inString first (unescape c :: read))
  | .inWord first read =>
    if endsWord c then
      let (tokens, next) := start offset c
      (⟨.bare read.reverse, first⟩ :: tokens, next)
    else ([], .inWord first (c :: read))

/-- The tokens that the end of the text completes. -/
def finish : Scan → Except TreeError (List Token)
  | .between => .ok []
  | .inString first _ => .error (.unterminatedString first)
  | .inEscape _ _ slash => .error (.danglingEscape slash)
  | .inWord first read => .ok [⟨.bare read.reverse, first⟩]

/-- The tokens from a state on. -/
def scan : Scan → Nat → List Char → Except TreeError (List Token)
  | state, _, [] => finish state
  | state, offset, c :: rest =>
    let (tokens, next) := step offset c state
    (scan next (offset + 1) rest).map (tokens ++ ·)

/-- **The tokens of a text.** -/
def ofText (cs : List Char) : Except TreeError (List Token) := scan .between 0 cs

end Token

end SeriesAlgebra
