import HostCatch.Text.Layout

namespace HostCatch.Template

/-- What fills a placeholder of a message template. -/
inductive Arg where
  | int (value : Int)
  | text (value : String)

namespace Arg

def type : Arg → String
  | int _ => "int"
  | text _ => "string"

/-- An argument in its usual form; a literal text is quoted. -/
def usual (layout : TextLayout) (literal : Bool) : Arg → String
  | int n => layout.integer .decimal n
  | text s => if literal then layout.quote s else layout.text s

/-- The report on a letter that does not suit the argument. -/
def misfit (layout : TextLayout) (literal : Bool) (verb : Char) (arg : Arg) : String :=
  "%!" ++ String.singleton verb ++ "(" ++ arg.type ++ "=" ++ arg.usual layout literal ++ ")"

/-- The argument as a letter asks for it. Negative codes of characters are taken as words of 64
bits. -/
def fill (layout : TextLayout) (verb : Char) (arg : Arg) : String :=
  let general := { layout with plus := false, sharp := false }
  match arg, verb with
  | arg, 'v' => arg.usual general layout.sharp
  | arg, 'w' => arg.misfit general layout.sharp 'w'
  | arg, 'T' => layout.text arg.type
  | int n, 'd' => layout.integer .decimal n
  | int n, 'b' => layout.integer .binary n
  | int n, 'o' => layout.integer .octal n
  | int n, 'O' => layout.integer .markedOctal n
  | int n, 'x' => layout.integer .hex n
  | int n, 'X' => layout.integer .upperHex n
  | int n, 'c' => layout.char (UInt64.ofInt n).toNat
  | int n, 'q' => layout.quoteChar (UInt64.ofInt n).toNat
  | int n, 'U' => layout.codePoint (UInt64.ofInt n).toNat
  | text s, 's' => layout.text s
  | text s, 'q' => layout.quote s
  | text s, 'x' => layout.hexBytes .hex (utf8 s)
  | text s, 'X' => layout.hexBytes .upperHex (utf8 s)
  | arg, verb => arg.misfit layout false verb

end Arg

/-- The largest width or precision that an argument may give. -/
def largest : Nat := 1000000

/-- The number at the head of a text, and what follows it. A number that goes on after its digits
have passed the largest is no number, and takes everything with it. -/
def leadingNumber (cs : List Char) : Option Nat × List Char :=
  let value (digits : List Char) := digits.foldl (fun n d => n * 10 + (d.toNat - '0'.toNat)) 0
  match cs.takeWhile Char.isDigit with
  | [] => (none, cs)
  | digits =>
    if largest < value digits.dropLast then (none, [])
    else (some (value digits), cs.dropWhile Char.isDigit)

/-- The number in brackets, given what follows the opening one, and what comes after it. Without a
closing bracket, or with nothing but that, only the opening one is used up. -/
def bracketed (cs : List Char) : Option Nat × List Char :=
  match cs.dropWhile (· ≠ ']') with
  | [] => (none, cs)
  | _ :: rest =>
    if cs = [']'] then (none, cs)
    else match leadingNumber (cs.takeWhile (· ≠ ']')) with
      | (some n, []) => (some n, rest)
      | _ => (none, rest)

def takeFlags (layout : TextLayout) : List Char → TextLayout × List Char
  | [] => (layout, [])
  | c :: cs =>
    match layout.withFlag? c with
    | some layout => takeFlags layout cs
    | none => (layout, c :: cs)

/-- The argument at a position as a width or a precision, and the position of the next. -/
def measure (args : List Arg) (next : Nat) : Option Int × Nat :=
  match args[next]? with
  | none => (none, next)
  | some (.int n) => (if n.natAbs ≤ largest then some n else none, next + 1)
  | some (.text _) => (none, next + 1)

/-- How far a template has been filled in: the text so far, the characters to come, the position of
the next argument, and whether any argument was picked by its position. The other fields are about
the placeholder at hand: its layout, whether it asks for an argument that there is, and whether a
position was the last thing read. -/
structure Progress where
  written : String := ""
  rest : List Char
  next : Nat := 0
  picked : Bool := false
  layout : TextLayout := {}
  valid : Bool := true
  positioned : Bool := false

namespace Progress

def write (p : Progress) (s : String) : Progress :=
  { p with written := p.written ++ s }

/-- Reads the position of an argument, which counts from one. -/
def position (args : List Arg) (p : Progress) : Progress :=
  match p.rest with
  | '[' :: cs =>
    match bracketed cs with
    | (some n, rest) =>
      let p := { p with rest, picked := true, positioned := true }
      if 0 < n && n ≤ args.length then { p with next := n - 1 } else { p with valid := false }
    | (none, rest) => { p with rest, picked := true, valid := false, positioned := false }
  | _ => { p with positioned := false }

/-- Reads the width, which an argument gives in place of a star. A negative one is filled from the
right. No width in digits may follow a position. -/
def width (args : List Arg) (p : Progress) : Progress :=
  match p.rest with
  | '*' :: rest =>
    let (given, next) := measure args p.next
    let p := { p with rest, next, positioned := false }
    match given with
    | some n =>
      { p with layout := { p.layout with width := n.natAbs, minus := p.layout.minus || n < 0 } }
    | none => p.write "%!(BADWIDTH)"
  | cs =>
    match leadingNumber cs with
    | (some n, rest) =>
      { p with rest, layout := { p.layout with width := n }, valid := p.valid && !p.positioned }
    | (none, rest) => { p with rest }

/-- Reads the precision, which starts with a point that is not the last character. It is zero when
nothing gives it. -/
def precision (args : List Arg) (p : Progress) : Progress :=
  match p.rest with
  | '.' :: c :: cs =>
    let p := { p with rest := c :: cs, valid := p.valid && !p.positioned }.position args
    match p.rest with
    | '*' :: rest =>
      let (given, next) := measure args p.next
      let p := { p with rest, next, positioned := false }
      match given with
      | some (.ofNat n) => { p with layout := { p.layout with precision := some n } }
      | _ => p.write "%!(BADPREC)"
    | cs =>
      let (n, rest) := leadingNumber cs
      { p with rest, layout := { p.layout with precision := some (n.getD 0) } }
  | _ => p

/-- Fills in the argument as the letter of the placeholder asks for it, or says what is wrong. -/
def letter (args : List Arg) (p : Progress) : Progress :=
  match p.rest with
  | [] => p.write "%!(NOVERB)"
  | '%' :: rest => { p with rest }.write "%"
  | verb :: rest =>
    let p := { p with rest }
    if !p.valid then p.write ("%!" ++ String.singleton verb ++ "(BADINDEX)")
    else match args[p.next]? with
      | none => p.write ("%!" ++ String.singleton verb ++ "(MISSING)")
      | some arg => { p with next := p.next + 1 }.write (arg.fill p.layout verb)

/-- Fills in a placeholder, given what follows its percent sign. -/
def placeholder (args : List Arg) (cs : List Char) (p : Progress) : Progress :=
  let (layout, rest) := takeFlags {} cs
  let p := { p with rest, layout, valid := true }.position args
  let p := (p.width args).precision args
  let p := if p.positioned then p else p.position args
  p.letter args

/-- Each step uses up at least one character, so the length of the template bounds the steps. -/
def run (args : List Arg) : Nat → Progress → Progress
  | 0, p => p
  | steps + 1, p =>
    match p.rest with
    | [] => p
    | '%' :: cs => run args steps (p.placeholder args cs)
    | c :: cs => run args steps ({ p with rest := cs }.write (String.singleton c))

end Progress

/-- The list of the arguments that are left over. -/
def leftOver (args : List Arg) : String :=
  if args.isEmpty then ""
  else
    "%!(EXTRA " ++ ", ".intercalate (args.map fun arg => arg.type ++ "=" ++ arg.usual {} false)
      ++ ")"

end HostCatch.Template

namespace HostCatch

/-- The template with its placeholders filled in by the arguments. Those left over are listed at the
end, unless some were picked by their position. A template for which there are no arguments at all
is a text that stands for itself. -/
def fillTemplate (template : String) (args : List Template.Arg) : String :=
  if args.isEmpty then template
  else
    let p := Template.Progress.run args template.length { rest := template.toList }
    p.written ++ (if p.picked then "" else Template.leftOver (args.drop p.next))

end HostCatch
