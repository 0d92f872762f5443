import SeriesAlgebra.Decimal.Reading
import SeriesAlgebra.Formula.Token
import SeriesAlgebra.Formula.Tree

/-!
# Reading formulas

The grammar of formulas is

    expression → literal | '(' SYMBOL expression* ')'

where the head of a list is no keyword and lists nest at most `Tree.maxNesting`
deep. Tokens are taken one at a time while the lists that are still open wait on a
stack (`Tree.Reading`); a closed list, like a literal, goes to the end of the list
that is open around it, or is the answer if there is none.

A bare word that looks like a number must be one: an integer of 64 bits if it is
one, and a double otherwise. Every other bare word is a symbol.
-/

namespace SeriesAlgebra

namespace Tree

/-- How deep lists may nest in a text. -/
def maxNesting : Nat := 512

/-- Whether a word must be a number: it starts with a digit, or with a sign or a point followed by
a digit or a point. -/
def looksNumeric : List Char → Bool
  | [] => false
  | [c] => c.isDigit
  | c :: d :: _ =>
    c.isDigit || ((c == '-' || c == '+' || c == '.') && (d.isDigit || d == '.'))

/-- The literal of a bare word. -/
def ofWord (word : List Char) (offset : Nat) : Except TreeError Literal :=
  if looksNumeric word then
    match Decimal.readInt? word, Decimal.readFloat? word with
    | some n, _ => .ok (.int n)
    | none, some x => .ok (.float x)
    | none, none => .error (.invalidNumber offset (String.ofList word))
  else .ok (.symbol (String.ofList word))

/-- A list that is not closed yet: where it starts, and its items so far in reverse. -/
structure OpenList where
  offset : Nat
  items : List Tree

/-- How far the reading of an expression has come. -/
inductive Reading
  /-- Lists are open, the innermost first. -/
  | inside (lists : List OpenList)
  /-- The expression is complete. -/
  | complete (t : Tree)

/-- The next item of the innermost open list, or the whole expression. -/
def place (t : Tree) : List OpenList → Reading
  | [] => .complete t
  | innermost :: lists => .inside ({ innermost with items := t :: innermost.items } :: lists)

/-- Whether a list is headed by a symbol that is no keyword. -/
def isHeaded (items : List Tree) : Bool :=
  match items.head?.bind literal? with
  | some (.symbol name) => !(Literal.symbol name).isKeyword
  | _ => false

/-- What a token does to the lists that are open. -/
def take (lists : List OpenList) (token : Token) : Except TreeError Reading :=
  match token.kind with
  | .quoted text => .ok (place (str (String.ofList text)) lists)
  | .bare word => (ofWord word token.offset).map fun l => place (atom l) lists
  | .opening =>
    if maxNesting ≤ lists.length then .error (.tooDeep maxNesting)
    else .ok (.inside (⟨token.offset, []⟩ :: lists))
  | .closing =>
    match lists with
    | [] => .error (.unexpectedClosing token.offset)
    | innermost :: rest =>
      let items := innermost.items.reverse
      if isHeaded items then .ok (place (list items) rest)
      else .error (.malformedList innermost.offset)

/-- The expression of the tokens that are left. Nothing may follow a complete expression. -/
def readTokens : Reading → List Token → Except TreeError Tree
  | .inside _, [] => .error .unexpectedEnd
  | .complete t, [] => .ok t
  | .complete _, token :: _ => .error (.trailingInput token.offset)
  | .inside lists, token :: rest => do readTokens (← take lists token) rest

/-- **The formula of a text.** -/
def parse (s : String) : Except TreeError Tree := do
  readTokens (.inside []) (← Token.ofText s.toList)

end Tree

end SeriesAlgebra
