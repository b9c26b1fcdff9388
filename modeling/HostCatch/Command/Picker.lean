import HostCatch.Text.Lowercase
import HostCatch.Command.Run

namespace HostCatch

/-- An imported function that may be chosen. -/
structure Choice where
  module : String
  name : String
  signature : String
  checked : Bool := false
  deriving DecidableEq

namespace Choice

def text (c : Choice) : String :=
  importText c.module c.name

def flip (c : Choice) : Choice :=
  { c with checked := !c.checked }

end Choice

/-- The functions that a program imports, sorted by how they are spoken of; equal ones keep their
order. -/
def Program.choices (p : Program) : List Choice :=
  let choiceOf (i : Import) : Option Choice := do
    let func ← p.funcs[← i.func?]?
    let signature ← p.types[func.type]?
    pure ⟨i.module, i.name, signature.text, false⟩
  (p.imports.filterMap choiceOf).mergeSort fun a b => !decide (b.text < a.text)

inductive Key where
  | up
  | down
  | space
  | enter
  | backspace
  /-- Either of the keys that leave the picker. -/
  | leave
  | typed (text : String)
  deriving DecidableEq

def Key.ofText : String → Key
  | "up" => up
  | "down" => down
  | "space" => space
  | " " => space
  | "enter" => enter
  | "backspace" => backspace
  | "esc" => leave
  | "ctrl+c" => leave
  | text => typed text

/-- The character that a typed one puts into the filter: tabs and line ends count as blanks, and
other controls as nothing. -/
def filterChar? (c : Char) : Option Char :=
  if c = '\t' || c = '\n' || c = '\r' then some ' '
  else if c.toNat < 0x20 || (0x7F ≤ c.toNat && c.toNat ≤ 0x9F) || c = '�' then none
  else some c

/-- Whether a list of characters stands somewhere in another. -/
def hasInfix (part : List Char) : List Char → Bool
  | [] => part.isEmpty
  | c :: cs => part.isPrefixOf (c :: cs) || hasInfix part cs

/-- What the picker is told: a key, a text put into the filter by other means, the module once it is
read, and the outcome of wrapping. -/
inductive Message where
  | key (key : Key)
  | retyped (text : String)
  | loaded (result : Except Fault (Bytes × List Choice))
  | wrapped (result : Except Fault String)

/-- What the picker asks for. -/
inductive Request where
  | wrap
  | quit
  deriving DecidableEq

/-- The state of choosing imports by hand. There are no choices until the module is read. -/
structure Picker where
  options : Options
  data : Bytes := []
  choices? : Option (List Choice) := none
  filter : String := ""
  cursor : Nat := 0
  fault : Option Fault := none
  report : String := ""
  done : Bool := false

namespace Picker

def choices (p : Picker) : List Choice :=
  p.choices?.getD []

/-- Whether the filter shows a choice; letter case does not matter. -/
def shows (filter : String) (c : Choice) : Bool :=
  hasInfix (lowerText filter).toList (lowerText c.text).toList

/-- The positions of the choices that the filter shows. -/
def visible (p : Picker) : List Nat :=
  p.choices.zipIdx.filterMap fun (c, i) => if shows p.filter c then some i else none

def selection (p : Picker) : List Choice :=
  p.choices.filter Choice.checked

/-- Flips the choice under the cursor. -/
def toggle (p : Picker) : Picker :=
  match p.visible[p.cursor]? with
  | none => p
  | some i => { p with choices? := p.choices?.map fun cs => cs.modify i Choice.flip }

/-- Changes the filter; a cursor that is left beyond the shown choices moves to the last of them. -/
def refilter (p : Picker) (text : String) : Picker :=
  if p.done then p
  else
    let p := { p with filter := text }
    { p with cursor := min p.cursor (p.visible.length - 1) }

/-- Takes in the choices of a module; patterns that are given check those that they accept. -/
def load (p : Picker) (data : Bytes) (choices : List Choice) : Picker :=
  let patterns := Pattern.ofList p.options.patterns
  let check (c : Choice) : Choice :=
    { c with checked := patterns.any (Pattern.accepts c.module c.name) }
  let choices := if p.options.patterns = "" then choices else choices.map check
  { p with data, choices? := some choices }

def press (p : Picker) : Key → Picker × Option Request
  | .leave => (p, some .quit)
  | .up => ({ p with cursor := p.cursor - 1 }, none)
  | .down =>
    (if p.cursor + 1 < p.visible.length then { p with cursor := p.cursor + 1 } else p, none)
  | .space => (if p.done then p else p.toggle, none)
  | .enter =>
    if p.done then (p, some .quit)
    else (p, if p.selection = [] then none else some .wrap)
  | .backspace => (p.refilter (String.ofList p.filter.toList.dropLast), none)
  | .typed text =>
    (p.refilter (p.filter ++ String.ofList (text.toList.filterMap filterChar?)), none)

/-- One step of the picker. -/
def update (p : Picker) : Message → Picker × Option Request
  | .key key => p.press key
  | .retyped text => (p.refilter text, none)
  | .loaded (.error fault) => ({ p with fault := some fault }, none)
  | .loaded (.ok (data, choices)) => (p.load data choices, none)
  | .wrapped (.error fault) => ({ p with fault := some fault, report := "", done := true }, none)
  | .wrapped (.ok report) => ({ p with fault := none, report, done := true }, none)

variable {m : Type → Type} [Monad m]

/-- Reads the module to choose from. -/
def reading (files : Files m) (o : Options) : m Message := do
  match ← files.read o.input with
  | .error fault => pure (.loaded (.error fault))
  | .ok data =>
    match Program.parse data with
    | .error fault => pure (.loaded (.error fault))
    | .ok p => pure (.loaded (.ok (data, p.choices)))

/-- The matcher of exactly the imports that are checked. -/
def matcher (p : Picker) : Matcher :=
  .names (p.selection.map fun c => (c.module, c.name))

/-- Wraps what is checked. -/
def wrapping (files : Files m) (p : Picker) : m Message :=
  Message.wrapped <$> p.options.wrapTo files .styled p.matcher p.data

/-- One step and what it asks for at once; the answer says whether the picker is to be left. -/
def advance (files : Files m) (p : Picker) (message : Message) : m (Picker × Bool) := do
  match p.update message with
  | (p, some .wrap) => pure ((p.update (← p.wrapping files)).1, false)
  | (p, request) => pure (p, request = some .quit)

end Picker

end HostCatch
