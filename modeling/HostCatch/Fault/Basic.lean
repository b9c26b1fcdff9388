import HostCatch.Fault.Read
import HostCatch.Fault.Violation
import HostCatch.Fault.Diagnostic

namespace HostCatch

/-- Why a path leads to no file. -/
inductive Obstacle where
  | missing
  | directory
  | notDirectory
  | tooLong
  | invalid
  deriving DecidableEq

def Obstacle.text : Obstacle → String
  | missing => "no such file or directory"
  | directory => "is a directory"
  | notDirectory => "not a directory"
  | tooLong => "file name too long"
  | invalid => "invalid argument"

/-- What was done to a file when it failed. -/
inductive FileAction where
  | opening
  | reading
  deriving DecidableEq

def FileAction.text : FileAction → String
  | opening => "open"
  | reading => "read"

/-- An error that an operation reports. -/
inductive Fault where
  | read (cause : ReadFault)
  | violation (cause : Violation)
  | text (message : Bytes)
  | valueType (code : UInt8)
  | notReference (type : String)
  | functionRange (func : UInt32)
  | functionRefRange (func : UInt32)
  | file (action : FileAction) (path : String) (obstacle : Obstacle)
  | writing (path : String) (cause : Fault)
  | diagnosed (diagnostic : Diagnostic)
  | caused (diagnostic : Diagnostic) (cause : Fault)
  /-- Several faults found together. -/
  | several (faults : List Fault)
  deriving Inhabited

namespace Fault

/-- The text of a fault; a cause follows what it caused, and faults found together are joined. -/
def message : Fault → Bytes
  | read cause => utf8 cause.message
  | violation cause => utf8 cause.message
  | text message => message
  | valueType value => utf8 ("unknown value type " ++ code value)
  | notReference type => utf8 s!"table element type {type} is not a reference"
  | functionRange func => utf8 s!"function {func} out of range"
  | functionRefRange func => utf8 s!"ref.func {func} out of range"
  | file action path obstacle => utf8 s!"{action.text} {path}: {obstacle.text}"
  | writing path cause => utf8 s!"write {path}: " ++ cause.message
  | diagnosed diagnostic => diagnostic.message
  | caused diagnostic cause =>
    diagnostic.message ++ utf8 " (caused by: " ++ cause.message ++ utf8 ")"
  | several faults => (utf8 "; ").intercalate (faults.map message)

/-- The cause that a fault carries. -/
def cause? : Fault → Option Fault
  | writing _ cause => some cause
  | caused _ cause => some cause
  | read (.inSection _ cause) => some (read cause)
  | read (.inSubsection _ cause) => some (read cause)
  | read (.located _ _ cause) => some (read cause)
  | read (.overflowAt _) => some (read .overflow)
  | _ => none

/-- The outermost diagnostic along the causes. -/
def diagnostic? : Fault → Option Diagnostic
  | diagnosed diagnostic => some diagnostic
  | caused diagnostic _ => some diagnostic
  | writing _ cause => cause.diagnostic?
  | _ => none

/-- The diagnostics along the causes, outermost first. -/
def diagnostics : Fault → List Diagnostic
  | diagnosed diagnostic => [diagnostic]
  | caused diagnostic cause => diagnostic :: cause.diagnostics
  | writing _ cause => cause.diagnostics
  | _ => []

/-- The fault that the causes end in. -/
def root : Fault → Fault
  | caused _ cause => cause.root
  | writing _ cause => cause.root
  | read cause => read cause.root
  | fault => fault

/-- Whether a diagnostic of the same phase and kind is along the causes. -/
def hasKind (fault : Fault) (phase : Phase) (kind : Kind) : Bool :=
  fault.diagnostics.any fun d => d.phase = phase && d.kind = kind

def isEndOfInput (fault : Fault) : Bool :=
  match fault.root with
  | read .endOfInput => true
  | _ => false

/-- Whether a fault is of the sort of another: diagnostics are matched by phase and kind, the end of
input by itself, and a plain text matches nothing but the very fault it came with. -/
def isA (fault target : Fault) : Bool :=
  match target with
  | diagnosed d => fault.hasKind d.phase d.kind
  | caused d _ => fault.hasKind d.phase d.kind
  | read .endOfInput => fault.isEndOfInput
  | _ => false

def isMissingHandle (fault : Fault) : Bool :=
  fault.hasKind .config .missingHandle

def isUnsupportedType (fault : Fault) : Bool :=
  fault.hasKind .transform .unsupported

/-- A diagnostic with the fault that caused it, if there is one. -/
def because (d : Diagnostic) : Option Fault → Fault
  | none => diagnosed d
  | some cause => caused d cause

/-- Faults found one after another: none is success, and one stands for itself. -/
def joined : List Fault → Except Fault Unit
  | [] => .ok ()
  | [fault] => .error fault
  | faults => .error (several faults)

end Fault

/-- Why an operation stopped without an answer: its input is no value that it is defined on. -/
inductive Abort where
  /-- A handle or position beyond what there is. -/
  | outOfRange (index length : Nat)
  /-- A part that has to be there is absent. -/
  | missing
  /-- An immediate of another kind than the opcode takes. -/
  | mismatched
  /-- Sequences that contain one another. -/
  | cyclic
  | noStrategy
  | unknownStrategy (name : String)
  | unsupported (diagnostic : Diagnostic)

/-- An operation either reports a fault or stops. -/
inductive Failure where
  | fault (cause : Fault)
  | abort (cause : Abort)

namespace Failure

instance : MonadLift (Except Fault) (Except Failure) where
  monadLift
    | .ok a => .ok a
    | .error cause => .error (fault cause)

instance : MonadLift (Except Abort) (Except Failure) where
  monadLift
    | .ok a => .ok a
    | .error cause => .error (abort cause)

end Failure

namespace Abort

def message : Abort → Bytes
  | outOfRange index length =>
    utf8 s!"runtime error: index out of range [{index}] with length {length}"
  | missing => utf8 "runtime error: a part of the module is missing"
  | mismatched => utf8 "runtime error: an immediate does not suit its opcode"
  | cyclic => utf8 "runtime error: sequences contain one another"
  | noStrategy =>
    utf8 "catch: imports are flagged but no exception-handling strategy was selected"
  | unknownStrategy name => utf8 ("catch: unknown strategy " ++ name)
  | unsupported diagnostic => diagnostic.message

/-- A stop that is reported instead: a diagnostic as it is, anything else by its text. -/
def toFault : Abort → Fault
  | unsupported diagnostic => .diagnosed diagnostic
  | abort => .text abort.message

end Abort

/-- A failure that is reported, whichever it was. -/
def Failure.toFault : Failure → Fault
  | fault cause => cause
  | abort cause => cause.toFault

end HostCatch
