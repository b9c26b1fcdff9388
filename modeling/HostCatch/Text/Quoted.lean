import HostCatch.Text.Basic
import HostCatch.Text.Printable

namespace HostCatch

/-- The controls that have a letter of their own after the backslash. -/
def escapeLetter? (c : Char) : Option Char :=
  match c.toNat with
  | 0x07 => some 'a'
  | 0x08 => some 'b'
  | 0x09 => some 't'
  | 0x0A => some 'n'
  | 0x0B => some 'v'
  | 0x0C => some 'f'
  | 0x0D => some 'r'
  | _ => none

/-- Which characters stand for themselves between the marks. -/
inductive Alphabet where
  | printable
  | ascii

def Alphabet.keeps (alphabet : Alphabet) (c : Char) : Bool :=
  match alphabet with
  | printable => isPrintable c
  | ascii => isPrintable c && c.toNat < 0x80

/-- One character as it stands between the marks: marks and backslashes escaped, what the alphabet
leaves out by letter or by number. -/
def escapeChar (alphabet : Alphabet) (mark c : Char) : String :=
  if c = mark || c = '\\' then String.ofList ['\\', c]
  else if alphabet.keeps c then String.singleton c
  else match escapeLetter? c with
    | some letter => String.ofList ['\\', letter]
    | none =>
      if c.toNat < 0x20 || c.toNat = 0x7F then "\\x" ++ hexText 2 c.toNat
      else if c.toNat < 0x10000 then "\\u" ++ hexText 4 c.toNat
      else "\\U" ++ hexText 8 c.toNat

/-- A text in double quotes, with characters of the alphabet only. -/
def quotedIn (alphabet : Alphabet) (s : String) : String :=
  "\"" ++ String.join (s.toList.map (escapeChar alphabet '"')) ++ "\""

/-- A text in double quotes, in printable characters only. -/
def quoted (s : String) : String :=
  quotedIn .printable s

/-- A character in single quotes. -/
def quotedChar (alphabet : Alphabet) (c : Char) : String :=
  "'" ++ escapeChar alphabet (Char.ofNat 0x27) c ++ "'"

/-- Whether a text may stand between backquotes as it is: it has no backquote, no control other than
the tab, and no byte order mark. -/
def isRaw (s : String) : Bool :=
  s.toList.all fun c =>
    let n := c.toNat
    (0x20 ≤ n || n = 0x09) && n ≠ 0x60 && n ≠ 0x7F && n ≠ 0xFEFF

end HostCatch
