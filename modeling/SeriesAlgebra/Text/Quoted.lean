import SeriesAlgebra.Text.Visible

/-!
# Quoted text

In messages a text stands between quotation marks, so that its ends show. The
quotation mark and the backslash are written with a backslash, line ends and tabs
by their letters, and any other character that would not show by its number.
-/

namespace SeriesAlgebra

namespace Text

/-- A number in hexadecimal digits. -/
def hexDigits (n : Nat) : List Char := Nat.toDigits 16 n

/-- A character as it is written between quotation marks. -/
def quotedChar (c : Char) : List Char :=
  match c with
  | '"' => ['\\', '"']
  | '\\' => ['\\', '\\']
  | '\n' => ['\\', 'n']
  | '\r' => ['\\', 'r']
  | '\t' => ['\\', 't']
  | _ =>
    if c.toNat = 0 then ['\\', '0']
    else if isVisible c then [c]
    else ['\\', 'u', '\x7b'] ++ hexDigits c.toNat ++ ['\x7d']

/-- A text between quotation marks. -/
def quoted (s : String) : String :=
  String.ofList ('"' :: s.toList.flatMap quotedChar ++ ['"'])

/-- Several quoted texts between square brackets. -/
def quotedList (names : List String) : String :=
  "[" ++ ", ".intercalate (names.map quoted) ++ "]"

/-- Several names between backticks, with commas between them. -/
def ticked (names : List String) : String :=
  ", ".intercalate (names.map fun name => "`" ++ name ++ "`")

end Text

end SeriesAlgebra
