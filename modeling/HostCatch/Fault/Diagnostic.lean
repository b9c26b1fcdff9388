import HostCatch.Text.Quoted

namespace HostCatch

/-- Where in the work a fault arose. -/
inductive Phase where
  | parse
  | emit
  | config
  | transform
  | load
  | other (name : String)
  deriving DecidableEq

namespace Phase

def text : Phase → String
  | parse => "parse"
  | emit => "emit"
  | config => "config"
  | transform => "transform"
  | load => "load"
  | other name => name

def ofText (s : String) : Phase :=
  ([parse, emit, config, transform, load].find? (·.text = s)).getD (other s)

end Phase

/-- What sort of fault it is. -/
inductive Kind where
  | invalidData
  | unsupported
  | outOfBounds
  | missingHandle
  | notFound
  | invalidInput
  | unresolvedLabel
  | other (name : String)
  deriving DecidableEq

namespace Kind

def text : Kind → String
  | invalidData => "invalid_data"
  | unsupported => "unsupported"
  | outOfBounds => "out_of_bounds"
  | missingHandle => "missing_handle"
  | notFound => "not_found"
  | invalidInput => "invalid_input"
  | unresolvedLabel => "unresolved_label"
  | other name => name

def ofText (s : String) : Kind :=
  ([invalidData, unsupported, outOfBounds, missingHandle, notFound, invalidInput,
    unresolvedLabel].find? (·.text = s)).getD (other s)

end Kind

/-- The value a diagnostic complains of. -/
inductive Subject where
  | int (value : Int)
  | text (value : String)
  /-- Anything else, as it is written. -/
  | data (written : String)
  deriving DecidableEq

/-- A fault with its place: a path into the module, the handle and the value type concerned, and a
detail for the reader. Absent parts are empty. -/
structure Diagnostic where
  phase : Phase
  kind : Kind
  path : List Bytes := []
  handle : String := ""
  type : String := ""
  detail : Bytes := []
  value : Option Subject := none
  deriving DecidableEq

namespace Diagnostic

/-- The item that the message names after its kind. -/
def subjectText (d : Diagnostic) : Bytes :=
  match d.handle, d.type with
  | "", "" => []
  | "", type => utf8 ("type " ++ type)
  | handle, "" => utf8 handle
  | handle, type => utf8 (handle ++ " of type " ++ type)

/-- The message without a cause: phase and kind, then path, item and detail where present. -/
def message (d : Diagnostic) : Bytes :=
  let place := if d.path = [] then [] else utf8 " at " ++ (utf8 ".").intercalate d.path
  let item := d.subjectText
  let named := d.handle ≠ "" ∨ d.type ≠ ""
  let item := if named then utf8 ": " ++ item else []
  let detail :=
    if d.detail = [] then [] else (if named then utf8 " - " else utf8 ": ") ++ d.detail
  utf8 ("[" ++ d.phase.text ++ "] " ++ d.kind.text) ++ place ++ item ++ detail

def missingHandle (handle : String) : Diagnostic :=
  { phase := .config, kind := .missingHandle, handle, detail := utf8 "not found" }

def unsupportedType (phase : Phase) (path : List Bytes) (type : String) : Diagnostic :=
  { phase, kind := .unsupported, path, type, detail := utf8 "no default value can be synthesized" }

def unsupported (phase : Phase) (what : String) : Diagnostic :=
  { phase, kind := .unsupported, detail := utf8 what }

def outOfBounds (phase : Phase) (path : List Bytes) (index length : Int) : Diagnostic :=
  { phase, kind := .outOfBounds, path, value := some (.int index),
    detail := utf8 s!"index {index} out of bounds (length {length})" }

def invalidData (phase : Phase) (path : List Bytes) (detail : String) : Diagnostic :=
  { phase, kind := .invalidData, path, detail := utf8 detail }

def notFound (phase : Phase) (what name : String) : Diagnostic :=
  { phase, kind := .notFound, detail := utf8 (what ++ " " ++ quoted name ++ " not found") }

def invalidInput (phase : Phase) (detail : Bytes) : Diagnostic :=
  { phase, kind := .invalidInput, detail }

def parseFailed (what : String) : Diagnostic :=
  { phase := .parse, kind := .invalidData, detail := utf8 ("parse " ++ what) }

def loadFailed (detail : String) : Diagnostic :=
  { phase := .load, kind := .invalidData, detail := utf8 detail }

/-- A path below an entity that is known by its number. -/
def numbered (what : String) (index : Nat) (below : List String) : List Bytes :=
  utf8 what :: utf8 (toString index) :: below.map utf8

end Diagnostic

end HostCatch
