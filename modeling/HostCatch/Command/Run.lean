import HostCatch.Command.Files
import HostCatch.Command.Report

namespace HostCatch

namespace Options

/-- Wraps the imports that a matcher accepts, as the options say. A stop is reported like a fault.
-/
def wrap (o : Options) (matcher : Matcher) (data : Bytes) : Except Fault (Bytes × Report) := do
  let strategy ← Strategy.ofText o.strategy
  match transform data ⟨matcher, o.table, o.alloc, o.signal, strategy⟩ with
  | .ok result => pure result
  | .error failure => throw failure.toFault

/-- Wraps and writes the module, and tells what was done. -/
def wrapTo {m : Type → Type} [Monad m] (files : Files m) (o : Options) (display : Display)
    (matcher : Matcher) (data : Bytes) : m (Except Fault String) := do
  match o.wrap matcher data with
  | .error fault => pure (.error fault)
  | .ok (out, report) =>
    match ← files.write o.output out with
    | .error fault => pure (.error (.writing o.output fault))
    | .ok () => pure (.ok (report.text display o))

/-- The work of the command: reads the module, and wraps the imports that the patterns select. -/
def run {m : Type → Type} [Monad m] (files : Files m) (o : Options) (display : Display) :
    m (Except Fault String) := do
  match ← files.read o.input with
  | .error cause => pure (.error (.caused (.loadFailed ("read " ++ o.input)) cause))
  | .ok data =>
    match Pattern.ofList o.patterns with
    | [] =>
      pure (.error (.diagnosed (.invalidInput .config
        (utf8 "no imports selected; use -catch or -i"))))
    | patterns => o.wrapTo files display (.oneOf patterns) data

/-- What is noted of a module on the way: names that cannot be read, and that it was taken in.
Nothing is noted when the options keep the work from getting to the module. -/
def notes (o : Options) (data : Bytes) : List String :=
  let asked := Pattern.ofList o.patterns ≠ [] && (Strategy.ofText o.strategy).isOk
  let broken :=
    match Program.parseModule data with
    | .ok m => (Program.skeleton m).isOk && Program.hasBrokenNames m
    | .error _ => false
  if !asked then []
  else (if broken then ["keeping unparsed name section"] else [])
    ++ (if (Program.parse data).isOk then ["module parsed"] else [])

end Options

/-- How an invocation ended, beside the files that it wrote. -/
structure Exit where
  code : UInt32 := 0
  printed : String := ""
  complaint : String := ""
  notes : List String := []

namespace Exit

/-- The command without files to work on. -/
def unused : Exit where
  code := 1
  complaint := "Usage: catchwrap -in <in.wasm> -out <out.wasm> -catch 'env.*,my_import'\n" ++
    "       catchwrap -in <in.wasm> -out <out.wasm> -i  (interactive mode)\n"

def refused (e : FlagError) : Exit where
  code := e.exitCode
  complaint := e.message ++ flagUsage

def ofResult (display : Display) : Except Fault String → Exit
  | .ok text => { printed := text }
  | .error fault =>
    { code := 1, complaint := display.renderBytes (utf8 "Error: " ++ fault.message) ++ "\n" }

end Exit

/-- What the arguments ask the command to do. -/
inductive Invocation where
  | finish (exit : Exit)
  | once (verbose : Bool) (options : Options)
  | pick (verbose : Bool) (options : Options)

def Invocation.ofArgs (args : List String) : Invocation :=
  match Settings.ofArgs {} args with
  | .error e => finish (.refused e)
  | .ok ⟨o, interactive, verbose⟩ =>
    if o.input = "" || o.output = "" then finish .unused
    else if interactive then pick verbose o
    else once verbose o

/-- One run of the command, with its notes when they are asked for. -/
def Options.runOnce {m : Type → Type} [Monad m] (files : Files m) (o : Options) (verbose : Bool)
    (display complaints : Display) : m Exit := do
  let notes ←
    if verbose then
      match ← files.read o.input with
      | .ok data => pure (o.notes data)
      | .error _ => pure []
    else pure []
  let result ← o.run files display
  pure { Exit.ofResult complaints result with notes }

end HostCatch
