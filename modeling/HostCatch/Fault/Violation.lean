import HostCatch.Text.Quoted

namespace HostCatch

/-- The structural rule that a module breaks. -/
inductive Violation where
  | functionType (func : Nat) (type : UInt32) (types : Nat)
  | importType (entry : Nat) (module name : String) (type : UInt32)
  | importTagType (entry : Nat) (module name : String) (type : UInt32)
  | tagType (tag : Nat) (type : UInt32)
  | startRange (start : UInt32) (funcs : Nat)
  | elementFunction (element entry : Nat) (func : UInt32)
  | elementTable (element : Nat) (table : UInt32)
  | dataMemory (segment : Nat) (mem : UInt32)
  | duplicateExport (name : String) (entry : Nat)
  | exportRange (entry : Nat) (name kind : String) (index : UInt32)
  | startUntyped (start : UInt32)
  | startSignature (params results : Nat)
  | dataCount (declared : UInt32) (segments : Nat)
  | codeCount (bodies funcs : Nat)
  | sharedUnbounded (what : String) (entry : Nat)
  | minPages (what : String) (entry : Nat) (pages : UInt64) (bound : Nat)
  | maxPages (what : String) (entry : Nat) (pages : UInt64) (bound : Nat)
  deriving DecidableEq

def Violation.message : Violation → String
  | functionType func type types =>
    s!"function {func} references invalid type index {type} ({types} types)"
  | importType entry module name type =>
    s!"import {entry} ({module}.{name}) references invalid type index {type}"
  | importTagType entry module name type =>
    s!"import {entry} ({module}.{name}) tag references invalid type index {type}"
  | tagType tag type => s!"tag {tag} references invalid type index {type}"
  | startRange start funcs => s!"start function index {start} exceeds function count {funcs}"
  | elementFunction element entry func =>
    s!"element {element}, entry {entry} references invalid function index {func}"
  | elementTable element table => s!"element {element} references invalid table index {table}"
  | dataMemory segment mem => s!"data segment {segment} references invalid memory index {mem}"
  | duplicateExport name entry =>
    "duplicate export name " ++ quoted name ++ s!" at index {entry}"
  | exportRange entry name kind index =>
    s!"export {entry} ({name}) references invalid {kind} index {index}"
  | startUntyped start => s!"start function {start} has no type"
  | startSignature params results =>
    s!"start function must have signature [] -> [], got [{params} params] -> [{results} results]"
  | dataCount declared segments =>
    s!"data count section declares {declared} segments, but data section has {segments}"
  | codeCount bodies funcs =>
    s!"code section has {bodies} entries but function section has {funcs}"
  | sharedUnbounded what entry => s!"{what} {entry}: shared memory must have maximum limit"
  | minPages what entry pages bound =>
    s!"{what} {entry}: min pages {pages} exceeds maximum {bound}"
  | maxPages what entry pages bound =>
    s!"{what} {entry}: max pages {pages} exceeds maximum {bound}"

end HostCatch
