import HostCatch.Guard.Transform

namespace HostCatch

/-- The files to read and to write, and the texts that say what to wrap and how. -/
structure Options where
  input : String := ""
  output : String := ""
  patterns : String := ""
  table : String := defaultTable
  alloc : String := defaultAlloc
  signal : String := defaultSignal
  strategy : String := "auto"
  deriving DecidableEq

/-- What the arguments of the command say. -/
structure Settings where
  options : Options := {}
  interactive : Bool := false
  verbose : Bool := false
  deriving DecidableEq

/-- A flag is a switch or takes a text, and changes one setting. -/
inductive FlagEffect where
  | switch (set : Bool → Settings → Settings)
  | text (usual : String) (set : String → Options → Options)

structure Flag where
  name : String
  effect : FlagEffect
  purpose : String

namespace Flag

/-- The flags of the command, in the order in which they are explained. -/
def all : List Flag :=
  [⟨"alloc", .text defaultAlloc fun value o => { o with alloc := value },
      "Export name of the externref slot allocator"⟩,
    ⟨"catch", .text "" fun value o => { o with patterns := value },
      "Imports to wrap (module.name, name, module.*, * ; comma-separated)"⟩,
    ⟨"i", .switch fun value s => { s with interactive := value }, "Interactive mode with TUI"⟩,
    ⟨"in", .text "" fun value o => { o with input := value }, "Path to input wasm module"⟩,
    ⟨"out", .text "" fun value o => { o with output := value },
      "Path to write the transformed module"⟩,
    ⟨"signal", .text defaultSignal fun value o => { o with signal := value },
      "Export name of the exception store"⟩,
    ⟨"strategy", .text "auto" fun value o => { o with strategy := value },
      "Exception handling encoding (auto, legacy, modern)"⟩,
    ⟨"table", .text defaultTable fun value o => { o with table := value },
      "Export name of the externref table"⟩,
    ⟨"v", .switch fun value s => { s with verbose := value }, "Debug logging"⟩]

/-- The explanation of one flag; a usual value that is not empty is named. -/
def explanation (flag : Flag) : String :=
  match flag.effect with
  | .switch _ => s!"  -{flag.name}\t{flag.purpose}\n"
  | .text "" _ => s!"  -{flag.name} string\n    \t{flag.purpose}\n"
  | .text usual _ =>
    s!"  -{flag.name} string\n    \t{flag.purpose} (default " ++ quoted usual ++ ")\n"

end Flag

/-- The explanation of all flags. -/
def flagUsage : String :=
  "Usage of catchwrap:\n" ++ String.join (Flag.all.map Flag.explanation)

/-- Why arguments are not taken. -/
inductive FlagError where
  /-- An explanation of the flags is asked for. -/
  | help
  | malformed (arg : String)
  | undefined (name : String)
  | noArgument (name : String)
  | notBoolean (value name : String)
  deriving DecidableEq

namespace FlagError

def message : FlagError → String
  | help => ""
  | malformed arg => s!"bad flag syntax: {arg}\n"
  | undefined name => s!"flag provided but not defined: -{name}\n"
  | noArgument name => s!"flag needs an argument: -{name}\n"
  | notBoolean value name =>
    "invalid boolean value " ++ quoted value ++ s!" for -{name}: parse error\n"

/-- To ask for help is no mistake. -/
def exitCode : FlagError → UInt32
  | help => 0
  | _ => 2

end FlagError

/-- A truth value in one of its spellings. -/
def boolOfText? (s : String) : Option Bool :=
  if ["1", "t", "T", "TRUE", "true", "True"].contains s then some true
  else if ["0", "f", "F", "FALSE", "false", "False"].contains s then some false
  else none

/-- An argument as a flag: its name and the value after an equals sign; `none` when the flags end
before it. -/
def splitFlag (arg : String) : Except FlagError (Option (String × Option String)) :=
  let body? : Option (List Char) :=
    match arg.toList with
    | ['-', '-'] => none
    | '-' :: '-' :: body => some body
    | ['-'] => none
    | '-' :: body => some body
    | _ => none
  match body? with
  | none => .ok none
  | some [] => .error (.malformed arg)
  | some (c :: cs) =>
    if c = '-' || c = '=' then .error (.malformed arg)
    else
      let name := String.ofList (c :: cs.takeWhile (· ≠ '='))
      match cs.dropWhile (· ≠ '=') with
      | [] => .ok (some (name, none))
      | _ :: value => .ok (some (name, some (String.ofList value)))

/-- Takes flags from the front of the arguments; of a flag given twice the last value stays. -/
def Settings.ofArgs (s : Settings) : List String → Except FlagError Settings
  | [] => .ok s
  | arg :: rest => do
    match ← splitFlag arg with
    | none => pure s
    | some (name, value?) =>
      match Flag.all.find? (·.name = name) with
      | none =>
        if name = "help" || name = "h" then throw .help
        throw (.undefined name)
      | some ⟨_, .switch set, _⟩ =>
        match value? with
        | none => ofArgs (set true s) rest
        | some value =>
          match boolOfText? value with
          | some b => ofArgs (set b s) rest
          | none => throw (.notBoolean value name)
      | some ⟨_, .text _ set, _⟩ =>
        match value?, rest with
        | some value, rest => ofArgs { s with options := set value s.options } rest
        | none, [] => throw (.noArgument name)
        | none, value :: rest => ofArgs { s with options := set value s.options } rest

end HostCatch
