import HostCatch.Command.Picker

namespace HostCatch

/-- The first of some characters that fit into a width, each counted for itself. -/
def fitting : Nat → List Char → List Char
  | _, [] => []
  | width, c :: cs =>
    if width = 0 || width < loneWidth c then [] else c :: fitting (width - loneWidth c) cs

/-- The end of a text that fits into a width. A text that does not fit loses its first character in
any case. -/
def tailFitting (width : Nat) (s : String) : String :=
  if textWidth s ≤ width then s
  else String.ofList (fitting width (s.toList.drop 1).reverse).reverse

namespace Choice

def box (c : Choice) : String :=
  if c.checked then "[x] " else "[ ] "

/-- The line of a choice; the one under the cursor is shown as one block. -/
def line (c : Choice) (current : Bool) : String :=
  if current then Display.styled.render ("> " ++ c.box ++ c.text ++ " " ++ c.signature) ++ "\n"
  else
    "  " ++ c.box ++ Display.styled.render c.text ++ " " ++ Display.styled.render c.signature
      ++ "\n"

end Choice

namespace Picker

/-- Columns of the filter line for the text, without the place of the text cursor. -/
def filterWidth : Nat := 40

def filterLine (p : Picker) : String :=
  let text := if p.filter = "" then "filter imports" else tailFitting filterWidth p.filter
  "/ " ++ text ++ "".pushn ' ' (filterWidth - textWidth text + 1)

def choiceLines (p : Picker) : String :=
  String.join (p.visible.zipIdx.map fun (i, row) =>
    ((p.choices[i]?).map (·.line (row = p.cursor))).getD "")

/-- The screen of the picker. -/
def view (p : Picker) : String :=
  match p.fault with
  | some fault =>
    Display.styled.renderBytes
      (utf8 "Error: " ++ fault.message ++ utf8 "\n\nPress esc to quit.")
  | none =>
    if p.done then p.report ++ "\nenter quit"
    else if p.choices? = none then "Loading module..."
    else
      Display.styled.title ++ " " ++ p.options.input ++ "\n\n" ++ p.filterLine ++ "\n\n"
        ++ p.choiceLines ++ s!"\n{p.selection.length} selected\n"
        ++ "↑/↓ move • space toggle • type to filter • enter wrap • esc quit"

end Picker

end HostCatch
