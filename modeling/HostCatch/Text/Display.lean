import HostCatch.Text.Glyph

namespace HostCatch

/-- Every tab becomes four spaces. -/
def expandTabs (bytes : Bytes) : Bytes :=
  bytes.flatMap fun b => if b = 0x09 then [0x20, 0x20, 0x20, 0x20] else [b]

/-- A line end of two characters becomes one of one. -/
def unifyLineEnds : Bytes → Bytes
  | 0x0D :: 0x0A :: rest => 0x0A :: unifyLineEnds rest
  | b :: rest => b :: unifyLineEnds rest
  | [] => []

/-- The line at the head of a text, and the lines after it. -/
def splitLines : Bytes → Bytes × List Bytes
  | [] => ([], [])
  | b :: rest =>
    let (line, lines) := splitLines rest
    if b = 0x0A then ([], line :: lines) else (b :: line, lines)

/-- Lines of one width: the shorter ones are filled up with spaces. -/
def rectangle (bytes : Bytes) : Bytes :=
  let (line, lines) := splitLines bytes
  let lines := line :: lines
  let width := (lines.map lineWidth).foldl max 0
  let filled := lines.map fun line => line ++ List.replicate (width - lineWidth line) 0x20
  [0x0A].intercalate filled

/-- How texts are shown: as they are, or as blocks for a terminal. -/
inductive Display where
  | plain
  | styled
  deriving DecidableEq

namespace Display

/-- A message as it is shown. -/
def renderBytes : Display → Bytes → String
  | plain, bytes => shown (expandTabs bytes)
  | styled, bytes => shown (rectangle (unifyLineEnds (expandTabs bytes)))

def render (display : Display) (s : String) : String :=
  display.renderBytes (utf8 s)

/-- The name of the command, which a terminal shows with a blank on either side. -/
def title : Display → String
  | plain => "catchwrap"
  | styled => " catchwrap "

end Display

end HostCatch
