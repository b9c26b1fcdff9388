import HostCatch.Text.Quoted

namespace HostCatch

/-- How a value is set into a text. A width of zero asks for nothing. -/
structure TextLayout where
  plus : Bool := false
  minus : Bool := false
  sharp : Bool := false
  space : Bool := false
  zero : Bool := false
  width : Nat := 0
  precision : Option Nat := none
  deriving DecidableEq

/-- The ways to write a whole number. Marked octal shows its base whether asked to or not. -/
inductive Radix where
  | decimal
  | binary
  | octal
  | markedOctal
  | hex
  | upperHex
  deriving DecidableEq

namespace Radix

def base : Radix → Nat
  | decimal => 10
  | binary => 2
  | octal => 8
  | markedOctal => 8
  | hex => 16
  | upperHex => 16

def digits (r : Radix) (n : Nat) : String :=
  let text := String.ofList (Nat.toDigits r.base n)
  if r = upperHex then text.map Char.toUpper else text

/-- What stands between the sign and the digits. The mark of octal numbers is a zero, which is not
doubled. -/
def mark (r : Radix) (sharp : Bool) (digits : String) : String :=
  let zero := if sharp && digits.toList.head? ≠ some '0' then "0" else ""
  match r with
  | decimal => ""
  | binary => if sharp then "0b" else ""
  | octal => zero
  | markedOctal => "0o" ++ zero
  | hex => if sharp then "0x" else ""
  | upperHex => if sharp then "0X" else ""

end Radix

/-- The character of a code point; what is no code point gives the replacement character. -/
def charOfCode (n : Nat) : Char :=
  if n.isValidChar then Char.ofNat n else Char.ofNat 0xFFFD

namespace TextLayout

/-- The flag that a character stands for, set. -/
def withFlag? (layout : TextLayout) : Char → Option TextLayout
  | '+' => some { layout with plus := true }
  | '-' => some { layout with minus := true }
  | '#' => some { layout with sharp := true }
  | ' ' => some { layout with space := true }
  | '0' => some { layout with zero := true }
  | _ => none

/-- Fills a text up to the width. Zeros fill from the left only. -/
def pad (layout : TextLayout) (s : String) : String :=
  let missing := layout.width - s.length
  if layout.minus then s ++ "".pushn ' ' missing
  else "".pushn (if layout.zero then '0' else ' ') missing ++ s

/-- Fills a text up to the width with spaces. -/
def padBlank (layout : TextLayout) (s : String) : String :=
  { layout with zero := false }.pad s

def alphabet (layout : TextLayout) : Alphabet :=
  if layout.plus then .ascii else .printable

/-- No more characters of a text than the precision allows. -/
def cut (layout : TextLayout) (s : String) : String :=
  match layout.precision with
  | some most => String.ofList (s.toList.take most)
  | none => s

def text (layout : TextLayout) (s : String) : String :=
  layout.pad (layout.cut s)

def quote (layout : TextLayout) (s : String) : String :=
  let s := layout.cut s
  layout.pad (if layout.sharp && isRaw s then "\x60" ++ s ++ "\x60" else quotedIn layout.alphabet s)

/-- The bytes of a text in hexadecimal. The precision bounds their number; the space flag sets them
apart, and then each shows its base. -/
def hexBytes (layout : TextLayout) (radix : Radix) (bytes : Bytes) : String :=
  let shown := match layout.precision with
    | some most => bytes.take most
    | none => bytes
  let mark := radix.mark layout.sharp ""
  let pairs := shown.map fun b =>
    let pair := radix.digits b.toNat
    if b < 16 then "0" ++ pair else pair
  layout.pad
    (if shown = [] then ""
    else if layout.space then " ".intercalate (pairs.map (mark ++ ·))
    else mark ++ String.join pairs)

/-- A whole number with its sign, the mark of its base and no fewer digits than the precision asks
for. Without a precision, zeros may fill the width; the mark is not counted then. A precision of
zero leaves nothing of the number zero. -/
def integer (layout : TextLayout) (radix : Radix) (n : Int) : String :=
  if n = 0 && layout.precision = some 0 then layout.padBlank ""
  else
    let sign :=
      if n < 0 then "-" else if layout.plus then "+" else if layout.space then " " else ""
    let least := match layout.precision with
      | some least => least
      | none => if layout.zero && !layout.minus then layout.width - sign.length else 0
    let digits := radix.digits n.natAbs
    let digits := "".pushn '0' (least - digits.length) ++ digits
    layout.padBlank (sign ++ radix.mark layout.sharp digits ++ digits)

def char (layout : TextLayout) (code : Nat) : String :=
  layout.pad (String.singleton (charOfCode code))

def quoteChar (layout : TextLayout) (code : Nat) : String :=
  layout.pad (quotedChar layout.alphabet (charOfCode code))

/-- A code point by its number, of four digits or more; the sharp flag adds the character if it can
be printed. -/
def codePoint (layout : TextLayout) (code : Nat) : String :=
  let digits := Radix.upperHex.digits code
  let digits := "".pushn '0' (max 4 (layout.precision.getD 0) - digits.length) ++ digits
  let shown :=
    if layout.sharp && code.isValidChar && isPrintable (Char.ofNat code) then
      " '" ++ String.singleton (Char.ofNat code) ++ "'"
    else ""
  layout.padBlank ("U+" ++ digits ++ shown)

end TextLayout

end HostCatch
