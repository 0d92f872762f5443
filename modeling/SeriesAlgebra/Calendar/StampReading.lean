import SeriesAlgebra.Calendar.Stamp
import SeriesAlgebra.Decimal.Reading
import SeriesAlgebra.Text.Blank

/-!
# Reading stamps

A stamp is written as a date, alone or followed by a time of day, whose seconds
may be missing. A **layout** lists what the text holds, field after field: numbers,
fixed characters and gaps. Blanks in front of a number are skipped, a gap takes
any amount of blanks and even none, and the whole text must be used.

The five layouts are tried in turn and the first that fits gives the answer. Sixty
seconds are allowed and make a leap second.
-/

namespace SeriesAlgebra

namespace Stamp

/-- The fields of a civil time as they are read. -/
structure Fields where
  year : Int
  month : Nat
  day : Nat
  hour : Nat
  minute : Nat
  second : Nat

/-- The start of a day whose date is still to be read. -/
def Fields.blank : Fields := ⟨0, 1, 1, 0, 0, 0⟩

/-- One element of a layout. -/
inductive LayoutItem
  | year
  | month
  | day
  | hour
  | minute
  | second
  | mark (c : Char)
  | gap

/-- One to `width` digits, after any blanks. -/
def readDigits? (width : Nat) (cs : List Char) : Option (Nat × List Char) :=
  let ds := (cs.take width).takeWhile Char.isDigit
  if ds.isEmpty then none else some (Decimal.digitsValue ds, cs.drop ds.length)

/-- A year: up to four digits, or a sign and any number of digits. -/
def readYear? (cs : List Char) : Option (Int × List Char) :=
  match cs with
  | '-' :: rest => (readDigits? rest.length rest).map fun (n, rest) => (-(n : Int), rest)
  | '+' :: rest => (readDigits? rest.length rest).map fun (n, rest) => ((n : Int), rest)
  | _ => (readDigits? 4 cs).map fun (n, rest) => ((n : Int), rest)

/-- A field of one or two digits between two bounds, after any blanks. -/
def readField? (low high : Nat) (cs : List Char) : Option (Nat × List Char) :=
  match readDigits? 2 (Text.skipBlanks cs) with
  | some (n, rest) => if low ≤ n ∧ n ≤ high then some (n, rest) else none
  | none => none

/-- The effect of one element of a layout on the fields and the text. -/
def readItem? (fields : Fields) (cs : List Char) : LayoutItem → Option (Fields × List Char)
  | .year => (readYear? (Text.skipBlanks cs)).map fun (n, rest) => ({ fields with year := n }, rest)
  | .month => (readField? 1 12 cs).map fun (n, rest) => ({ fields with month := n }, rest)
  | .day => (readField? 1 31 cs).map fun (n, rest) => ({ fields with day := n }, rest)
  | .hour => (readField? 0 23 cs).map fun (n, rest) => ({ fields with hour := n }, rest)
  | .minute => (readField? 0 59 cs).map fun (n, rest) => ({ fields with minute := n }, rest)
  | .second => (readField? 0 60 cs).map fun (n, rest) => ({ fields with second := n }, rest)
  | .mark c => match cs with
    | d :: rest => if c = d then some (fields, rest) else none
    | [] => none
  | .gap => some (fields, Text.skipBlanks cs)

/-- The fields of a text that fits a layout from beginning to end. -/
def readLayout? : List LayoutItem → Fields → List Char → Option Fields
  | [], fields, [] => some fields
  | [], _, _ :: _ => none
  | item :: items, fields, cs =>
    match readItem? fields cs item with
    | some (fields, rest) => readLayout? items fields rest
    | none => none

/-- The stamp with the given fields, if its date exists. -/
def ofFields? (f : Fields) : Option Stamp :=
  let date : Date := ⟨f.year, f.month, f.day⟩
  if date.isValid then
    let start := date.toDays * 86400 + f.hour * 3600 + f.minute * 60
    if f.second = 60 then some (within (start + 59) leapNano)
    else some (within (start + f.second) 0)
  else none

/-- A date. -/
def dateLayout : List LayoutItem := [.year, .mark '-', .month, .mark '-', .day]

/-- A time of day to the minute. -/
def minuteLayout : List LayoutItem := [.hour, .mark ':', .minute]

/-- A time of day to the second. -/
def secondLayout : List LayoutItem := minuteLayout ++ [.mark ':', .second]

/-- The layouts of a stamp, in the order in which they are tried. -/
def layouts : List (List LayoutItem) :=
  [dateLayout ++ .mark 'T' :: secondLayout,
   dateLayout ++ .gap :: secondLayout,
   dateLayout ++ .mark 'T' :: minuteLayout,
   dateLayout ++ .gap :: minuteLayout,
   dateLayout]

/-- **Reading a stamp**: the answer of the first layout that fits the text without the blanks
at its ends and names an existing date. -/
def read? (text : String) : Option Stamp :=
  let cs := Text.trimChars text.toList
  layouts.findSome? fun layout => (readLayout? layout Fields.blank cs).bind ofFields?

/-- A text that is no stamp. -/
structure Unreadable where
  text : String
  deriving DecidableEq, Repr

/-- The wording of the error. -/
def Unreadable.message (e : Unreadable) : String := s!"cannot parse `{e.text}` as a timestamp"

/-- The stamp a text stands for, or the text as it was given. -/
def parse (text : String) : Except Unreadable Stamp :=
  match read? text with
  | some stamp => .ok stamp
  | none => .error ⟨text⟩

end Stamp

end SeriesAlgebra
