import SeriesAlgebra.Decimal.Reading
import SeriesAlgebra.Json.Basic

/-!
# Reading JSON documents

The reader follows the grammar of JSON to the letter: no blanks but the four of the
grammar, no control character inside a string, no zero in front of a number, nothing
after the document. Objects may repeat a key, and all their members are kept. A
surrogate without its partner leaves the string it stands in without a value
(`Json.unpaired`).

A reader takes the text and gives what it has read together with the rest of the
text. Nested readings are bounded by the length of the text.
-/

namespace SeriesAlgebra

namespace Json

/-- Whether a character is one of the four blanks of the grammar. -/
def isBlank (c : Char) : Bool := c == ' ' || c == '\n' || c == '\r' || c == '\t'

/-- The text without blanks in front. -/
def skipBlanks (cs : List Char) : List Char := cs.dropWhile isBlank

/-- The value of a hexadecimal digit. -/
def hexDigit? (c : Char) : Option Nat :=
  if c.isDigit then some (c.toNat - '0'.toNat)
  else if 'a' ≤ c ∧ c ≤ 'f' then some (c.toNat - 'a'.toNat + 10)
  else if 'A' ≤ c ∧ c ≤ 'F' then some (c.toNat - 'A'.toNat + 10)
  else none

/-- The value of four hexadecimal digits. -/
def hexUnit? (a b c d : Char) : Option Nat := do
  return (← hexDigit? a) * 4096 + (← hexDigit? b) * 256 + (← hexDigit? c) * 16 + (← hexDigit? d)

/-- The character that a letter stands for after a backslash. -/
def escaped? (c : Char) : Option Char :=
  match c with
  | '"' => some '"'
  | '\\' => some '\\'
  | '/' => some '/'
  | 'b' => some '\x08'
  | 'f' => some '\x0c'
  | 'n' => some '\n'
  | 'r' => some '\r'
  | 't' => some '\t'
  | _ => none

/-- The character of a code unit; a surrogate has none. -/
def unitChar? (unit : Nat) : Option Char :=
  if 0xd800 ≤ unit ∧ unit < 0xe000 then none else some (Char.ofNat unit)

/-- The character of a surrogate pair. -/
def pairChar? (high low : Nat) : Option Char :=
  if (0xd800 ≤ high ∧ high < 0xdc00) ∧ (0xdc00 ≤ low ∧ low < 0xe000) then
    some (Char.ofNat (0x10000 + (high - 0xd800) * 0x400 + (low - 0xdc00)))
  else none

/-- The text of characters in reverse, unless one is missing. -/
def textOf? (read : List (Option Char)) : Option String :=
  (read.reverse.mapM id).map String.ofList

/-- The rest of a string, after the characters in `read`, which are in reverse; `none` among them
stands for a surrogate without its partner. -/
def readString? (read : List (Option Char)) : List Char → Option (Option String × List Char)
  | [] => none
  | '"' :: rest => some (textOf? read, rest)
  | '\\' :: 'u' :: a :: b :: c :: d :: '\\' :: 'u' :: e :: f :: g :: h :: rest =>
    match hexUnit? a b c d, hexUnit? e f g h with
    | some high, some low =>
      match pairChar? high low with
      | some c => readString? (some c :: read) rest
      | none => readString? (unitChar? high :: read) ('\\' :: 'u' :: e :: f :: g :: h :: rest)
    | _, _ => none
  | '\\' :: 'u' :: a :: b :: c :: d :: rest =>
    match hexUnit? a b c d with
    | some unit => readString? (unitChar? unit :: read) rest
    | none => none
  | '\\' :: c :: rest =>
    match escaped? c with
    | some c => readString? (some c :: read) rest
    | none => none
  | c :: rest => if c.toNat < 32 then none else readString? (some c :: read) rest

/-- The digits in front that still fit into 64 bits behind those of `significand`, all as one number,
and how many they are. -/
def takeFitting (significand : Nat) : List Char → Nat × Nat
  | [] => (significand, 0)
  | c :: rest =>
    let next := 10 * significand + (c.toNat - '0'.toNat)
    if next < Nat.pow 2 64 then
      let (whole, count) := takeFitting next rest
      (whole, count + 1)
    else (significand, 0)

/-- A double over a power of ten, in two steps if the power is no double itself. -/
def scaleDown (x : Float) (places : Nat) : Float :=
  if places ≤ 308 then x / Decimal.nearest 1 places
  else x / 1e308 / Decimal.nearest 1 (places - 308 : Nat)

/-- A double times a power of ten. -/
def scale (x : Float) (exponent : Int) : Float :=
  if exponent < 0 then scaleDown x exponent.natAbs
  else if x == 0.0 then x
  else x * Decimal.nearest 1 exponent

/-- The double of digits before and after a point and of an exponent. Digits beyond 64 bits count
only for the size of the number, and the result is rounded twice: once as the digits become a double,
and once as it is scaled. -/
def doubleOf (whole fraction : List Char) (exponent : Int) : Float :=
  let (front, inFront) := takeFitting 0 whole
  let (all, behind) := takeFitting front fraction
  scale (Float.ofNat all) (exponent + (whole.length - inFront : Nat) - behind)

/-- A number: digits without a zero in front, then a fraction and an exponent, which may be
missing. A number without both is an integer if it is in range; the integer zero has no sign. -/
def readNumber? (cs : List Char) : Option (Json × List Char) := do
  let (negative, unsigned) := match cs with
    | '-' :: rest => (true, rest)
    | _ => (false, cs)
  let (whole, afterWhole) := Decimal.takeDigits unsigned
  if whole.isEmpty || (whole.head? == some '0' && whole.length ≠ 1) then none
  let (fraction, afterFraction) ← match afterWhole with
    | '.' :: rest =>
      let (fraction, rest) := Decimal.takeDigits rest
      if fraction.isEmpty then none else some (some fraction, rest)
    | _ => some (none, afterWhole)
  let (exponent, rest) ← match afterFraction with
    | c :: rest =>
      if c = 'e' ∨ c = 'E' then
        let (negative, unsigned) := Decimal.takeSign rest
        let (ds, rest) := Decimal.takeDigits unsigned
        if ds.isEmpty then none
        else
          let n : Int := Decimal.digitsValue ds
          some (some (if negative then -n else n), rest)
      else some (none, afterFraction)
    | [] => some (none, afterFraction)
  let n : Int := Decimal.digitsValue whole
  let signed := if negative then -n else n
  if fraction.isNone && exponent.isNone && intInRange signed && !(negative && n = 0) then
    some (int signed, rest)
  else
    let magnitude := doubleOf whole (fraction.getD []) (exponent.getD 0)
    some (float (if negative then -magnitude else magnitude), rest)

/-- What follows a fixed word. -/
def afterWord? (word : String) (cs : List Char) : Option (List Char) :=
  if word.toList.isPrefixOf cs then some (cs.drop word.length) else none

/-- The value of a string that was read. -/
def ofString : Option String → Json
  | some s => str s
  | none => unpaired

/-- The value of an object whose members were read. -/
def ofMembers (members : List (Option String × Json)) : Json :=
  match members.mapM fun (key, value) => key.map fun key => (key, value) with
  | some members => obj members
  | none => unpaired

mutual

/-- A value, after any blanks. -/
def readValue? : Nat → List Char → Option (Json × List Char)
  | 0, _ => none
  | bound + 1, cs =>
    match skipBlanks cs with
    | '"' :: rest => (readString? [] rest).map fun (s, rest) => (ofString s, rest)
    | '[' :: rest =>
      match skipBlanks rest with
      | ']' :: rest => some (arr [], rest)
      | rest => (readItems? bound rest).map fun (items, rest) => (arr items, rest)
    | '\x7b' :: rest =>
      match skipBlanks rest with
      | '\x7d' :: rest => some (obj [], rest)
      | rest => (readMembers? bound rest).map fun (members, rest) => (ofMembers members, rest)
    | 'n' :: rest => (afterWord? "ull" rest).map fun rest => (null, rest)
    | 't' :: rest => (afterWord? "rue" rest).map fun rest => (bool true, rest)
    | 'f' :: rest => (afterWord? "alse" rest).map fun rest => (bool false, rest)
    | cs => readNumber? cs

/-- The elements of an array up to its end. -/
def readItems? : Nat → List Char → Option (List Json × List Char)
  | 0, _ => none
  | bound + 1, cs =>
    match readValue? bound cs with
    | none => none
    | some (item, rest) =>
      match skipBlanks rest with
      | ']' :: rest => some ([item], rest)
      | ',' :: rest => (readItems? bound rest).map fun (items, rest) => (item :: items, rest)
      | _ => none

/-- The members of an object up to its end. -/
def readMembers? : Nat → List Char → Option (List (Option String × Json) × List Char)
  | 0, _ => none
  | bound + 1, cs =>
    match skipBlanks cs with
    | '"' :: rest =>
      match readString? [] rest with
      | none => none
      | some (key, rest) =>
        match skipBlanks rest with
        | ':' :: rest =>
          match readValue? bound rest with
          | none => none
          | some (value, rest) =>
            match skipBlanks rest with
            | '\x7d' :: rest => some ([(key, value)], rest)
            | ',' :: rest =>
              (readMembers? bound rest).map fun (members, rest) => ((key, value) :: members, rest)
            | _ => none
        | _ => none
    | _ => none

end

/-- **The document of a text**, which must hold nothing else. -/
def parse? (s : String) : Option Json :=
  let cs := s.toList
  match readValue? (cs.length + 1) cs with
  | some (j, rest) => if (skipBlanks rest).isEmpty then some j else none
  | none => none

end Json

end SeriesAlgebra
