import HostCatch.Fault.Basic
import HostCatch.Wire.Module.Basic

namespace HostCatch

namespace HeapType

def func : HeapType := -16

def host : HeapType := -17

/-- Predefined heap types are negative. -/
def isAbstract (h : HeapType) : Bool :=
  h < 0

/-- The heap types that a one-byte code stands for. -/
def isNamed (h : HeapType) : Bool :=
  -23 ≤ h && h ≤ -12

/-- The heap type that a type index stands for. -/
def concrete (type : Nat) : HeapType :=
  Int64.ofNat type

def text (h : HeapType) : String :=
  match h.toInt with
  | -12 => "noexn"
  | -13 => "nofunc"
  | -14 => "noextern"
  | -15 => "none"
  | -16 => "func"
  | -17 => "extern"
  | -18 => "any"
  | -19 => "eq"
  | -20 => "i31"
  | -21 => "struct"
  | -22 => "array"
  | -23 => "exn"
  | .ofNat index => toString index
  | other => s!"heap({other})"

end HeapType

namespace RefType

/-- Any value of the host. -/
def host : RefType := ⟨true, HeapType.host⟩

/-- Any function. -/
def func : RefType := ⟨true, HeapType.func⟩

def text (r : RefType) : String :=
  if r = host then "externref"
  else if r = func then "funcref"
  else if r.nullable then "(ref null " ++ HeapType.text r.heap ++ ")"
  else "(ref " ++ HeapType.text r.heap ++ ")"

/-- The one-byte code of a nullable reference to a named heap type. -/
def code? (r : RefType) : Option Wire.TypeCode :=
  if r.nullable && HeapType.isNamed r.heap then some (UInt8.ofNat (r.heap.toInt + 0x80).toNat)
  else none

/-- The code that a reference is written with: its own, or that of references with a heap type. -/
def code (r : RefType) : Wire.TypeCode :=
  r.code?.getD (if r.nullable then Wire.TypeCode.refNull else Wire.TypeCode.ref)

end RefType

/-- The kinds of value types, by number from one on. -/
inductive ValKind where
  | i32
  | i64
  | f32
  | f64
  | v128
  | ref
  | unknown (number : Nat)
  deriving DecidableEq

namespace ValKind

def ofNat : Nat → ValKind
  | 1 => i32
  | 2 => i64
  | 3 => f32
  | 4 => f64
  | 5 => v128
  | 6 => ref
  | number => unknown number

def text : ValKind → String
  | i32 => "i32"
  | i64 => "i64"
  | f32 => "f32"
  | f64 => "f64"
  | v128 => "v128"
  | ref => "ref"
  | unknown _ => "unknown"

end ValKind

/-- A value type. A type of unknown kind has no code of its own. -/
inductive ValType where
  | i32
  | i64
  | f32
  | f64
  | v128
  | ref (type : RefType)
  | unknown (number : Nat)
  deriving DecidableEq

namespace ValType

def externRef : ValType := ref RefType.host

def funcRef : ValType := ref RefType.func

def kind : ValType → ValKind
  | i32 => .i32
  | i64 => .i64
  | f32 => .f32
  | f64 => .f64
  | v128 => .v128
  | ref _ => .ref
  | unknown number => .unknown number

def text : ValType → String
  | ref type => type.text
  | type => type.kind.text

/-- The value type of a kind; a bare reference kind says nothing of its target. -/
def ofKind : ValKind → ValType
  | .i32 => i32
  | .i64 => i64
  | .f32 => f32
  | .f64 => f64
  | .v128 => v128
  | .ref => ref ⟨false, 0⟩
  | .unknown number => unknown number

/-- The value type that a word names. -/
def ofText? (s : String) : Option ValType :=
  [i32, i64, f32, f64, v128, externRef, funcRef].find? (·.text = s)

def isRef (v : ValType) : Bool :=
  v.kind = .ref

open Wire

/-- The value type that a one-byte code stands for. -/
def ofCode (code : TypeCode) : Except Fault ValType :=
  if code = 0x7F then .ok i32
  else if code = 0x7E then .ok i64
  else if code = 0x7D then .ok f32
  else if code = 0x7C then .ok f64
  else if code = 0x7B then .ok v128
  else if 0x69 ≤ code ∧ code ≤ 0x74 then .ok (ref ⟨true, Int64.ofInt (code.toNat - 0x80)⟩)
  else .error (.valueType code)

def ofExt : ExtType → Except Fault ValType
  | .plain code => ofCode code
  | .ref _ type => .ok (ref type)

/-- A list of value types, in full where that is given. -/
def ofWire (codes : List TypeCode) (exts : List ExtType) : Except Fault (List ValType) :=
  if exts = [] then codes.mapM ofCode else exts.mapM ofExt

/-- The code a type is written with; references with a heap type need more than that. -/
def code : ValType → TypeCode
  | i32 => 0x7F
  | i64 => 0x7E
  | f32 => 0x7D
  | f64 => 0x7C
  | v128 => 0x7B
  | ref type => type.code
  | unknown _ => 0

/-- Whether a type has no one-byte code. -/
def needsHeap : ValType → Bool
  | ref type => type.code?.isNone
  | _ => false

def toExt : ValType → ExtType
  | ref type =>
    match type.code? with
    | some code => .plain code
    | none => .ref type.code type
  | type => .plain type.code

/-- A type in full, when its code does not say it all. -/
def ext? (v : ValType) : Option ExtType :=
  if v.needsHeap then some v.toExt else none

/-- The types of a list in full, when some code does not say it all. -/
def toExts (types : List ValType) : List ExtType :=
  if types.any needsHeap then types.map toExt else []

end ValType

structure Signature where
  params : List ValType
  results : List ValType
  deriving DecidableEq

namespace Signature

def text (s : Signature) : String :=
  let list (types : List ValType) := "(" ++ ", ".intercalate (types.map ValType.text) ++ ")"
  list s.params ++ " -> " ++ list s.results

def toWire (s : Signature) : Wire.FuncType where
  params := s.params.map ValType.code
  results := s.results.map ValType.code
  extParams := ValType.toExts s.params
  extResults := ValType.toExts s.results

end Signature

end HostCatch
