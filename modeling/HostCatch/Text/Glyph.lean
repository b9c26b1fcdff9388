import HostCatch.Text.Basic
import HostCatch.Text.Cluster.Basic

namespace HostCatch

/-- A character of a byte string, or a byte that belongs to none. -/
inductive Glyph where
  | char (c : Char)
  | stray (b : UInt8)
  deriving DecidableEq

/-- The character at the head of a byte string, and the number of bytes that spell it. -/
def leadingChar? (bytes : Bytes) : Option (Char × Nat) :=
  [1, 2, 3, 4].findSome? fun n =>
    match (utf8Text? (bytes.take n)).map String.toList with
    | some [c] => some (c, n)
    | _ => none

/-- The glyphs of the bytes once `skip` of them are passed over. -/
def glyphsFrom : Nat → Bytes → List Glyph
  | _, [] => []
  | skip + 1, _ :: rest => glyphsFrom skip rest
  | 0, b :: rest =>
    match leadingChar? (b :: rest) with
    | some (c, n) => .char c :: glyphsFrom (n - 1) rest
    | none => .stray b :: glyphsFrom 0 rest

def glyphs (bytes : Bytes) : List Glyph :=
  glyphsFrom 0 bytes

/-- A glyph as a reader sees it; a stray byte shows as the replacement character. -/
def Glyph.shown : Glyph → Char
  | char c => c
  | stray _ => '�'

/-- A message as a reader sees it. -/
def shown (message : Bytes) : String :=
  String.ofList ((glyphs message).map Glyph.shown)

/-- What a terminal is in the middle of. -/
inductive Terminal where
  | text
  | cluster (k : Cluster)
  /-- The character that starts a control sequence. -/
  | escape
  | intermediate
  /-- Parameters up to a letter. -/
  | parameters
  /-- A string that only its terminator ends. -/
  | command
  /-- A string that characters beyond ASCII end as well. -/
  | note

namespace Terminal

/-- How a byte that is no letter of its own goes on from a text. -/
def ofControl (n : Nat) : Terminal :=
  match n with
  | 0x1B => escape
  | 0x90 => command
  | 0x98 => note
  | 0x9B => parameters
  | 0x9D => command
  | 0x9E => note
  | 0x9F => note
  | _ => text

/-- The controls that break off whatever is being read. -/
def isCancel (n : Nat) : Bool :=
  n = 0x18 || n = 0x1A

/-- How an ASCII character goes on within a control sequence. -/
def within (r : Terminal) (n : Nat) : Terminal :=
  if isCancel n then text
  else if n = 0x1B then escape
  else match r with
    | escape =>
      if n < 0x20 || n = 0x7F then escape
      else if n < 0x30 then intermediate
      else match Char.ofNat n with
        | '[' => parameters
        | ']' => command
        | 'P' => command
        | 'X' => note
        | '^' => note
        | '_' => note
        | _ => text
    | intermediate => if n < 0x30 || n = 0x7F then intermediate else text
    | parameters => if n < 0x40 || n = 0x7F then parameters else text
    | command => if n = 0x07 then text else command
    | r => r

/-- One more glyph: what is read next, and the columns that are settled. Control sequences take
none. -/
def step (r : Terminal) (g : Glyph) : Terminal × Nat :=
  let fresh : Terminal × Nat :=
    match g with
    | .char c =>
      if 0x80 ≤ c.toNat then (cluster (.start c), 0)
      else if 0x20 ≤ c.toNat && c.toNat ≤ 0x7E then (text, 1)
      else (ofControl c.toNat, 0)
    | .stray b =>
      if 0xC2 ≤ b && b ≤ 0xF4 then (cluster (.start g.shown), 0) else (ofControl b.toNat, 0)
  match r with
  | text => fresh
  | cluster k =>
    match k.push? g.shown with
    | some k => (cluster k, 0)
    | none => (fresh.1, k.width + fresh.2)
  | command =>
    match g with
    | .char c => if 0x80 ≤ c.toNat then (command, 0) else (command.within c.toNat, 0)
    | .stray b => (if b = 0x9C then text else command, 0)
  | r =>
    match g with
    | .char c => if 0x80 ≤ c.toNat then fresh else (r.within c.toNat, 0)
    | .stray _ => fresh

/-- The columns of the glyphs to come. -/
def columns (r : Terminal) : List Glyph → Nat
  | [] =>
    match r with
    | cluster k => k.width
    | _ => 0
  | g :: gs =>
    let (r, settled) := r.step g
    settled + columns r gs

end Terminal

/-- The columns that a line takes on a terminal. -/
def lineWidth (line : Bytes) : Nat :=
  Terminal.text.columns (glyphs line)

end HostCatch
