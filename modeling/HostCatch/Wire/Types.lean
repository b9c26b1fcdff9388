import HostCatch.Wire.Primitive

namespace HostCatch

/-- A heap type as a signed number: predefined heap types are negative, type indices are not. -/
abbrev HeapType := Int64

structure RefType where
  nullable : Bool
  heap : HeapType
  deriving DecidableEq

namespace Wire

/-- The one-byte code of a value type. -/
abbrev TypeCode := UInt8

namespace TypeCode

/-- A nullable reference with its heap type after it. -/
def refNull : TypeCode := 0x63

/-- A reference with its heap type after it. -/
def ref : TypeCode := 0x64

def name (c : TypeCode) : String :=
  match c.toNat with
  | 0x7F => "i32"
  | 0x7E => "i64"
  | 0x7D => "f32"
  | 0x7C => "f64"
  | 0x7B => "v128"
  | 0x73 => "nullfuncref"
  | 0x72 => "nullexternref"
  | 0x71 => "nullref"
  | 0x70 => "funcref"
  | 0x6F => "externref"
  | 0x6E => "anyref"
  | 0x6D => "eqref"
  | 0x6C => "i31ref"
  | 0x6B => "structref"
  | 0x6A => "arrayref"
  | 0x64 => "ref"
  | 0x63 => "ref null"
  | _ => "unknown"

/-- Codes that a heap type follows. -/
def takesHeap (c : TypeCode) : Bool :=
  c = refNull || c = ref

end TypeCode

/-- A value type in full: one code, or a reference with its heap type. -/
inductive ExtType where
  | plain (code : TypeCode)
  | ref (code : TypeCode) (type : RefType)
  deriving DecidableEq

namespace ExtType

def code : ExtType → TypeCode
  | plain code => code
  | ref code _ => code

def isRef : ExtType → Bool
  | plain _ => false
  | ref _ _ => true

end ExtType

def refType (r : RefType) : Bytes :=
  (if r.nullable then TypeCode.refNull else TypeCode.ref) :: Leb128.s64 r.heap

def extType : ExtType → Bytes
  | .plain code => [code]
  | .ref _ type => refType type

/-- A value type given by its code and, for a reference with a heap type, in full. -/
def typeOrCode (code : TypeCode) : Option ExtType → Bytes
  | some (.ref _ type) => refType type
  | _ => [code]

/-- A reference type given by its code and, where it names a heap type, in full. -/
def refOrCode (code : TypeCode) : Option RefType → Bytes
  | some type => refType type
  | none => [code]

end Wire

namespace Reader

open Wire

/-- The reference that a code stands for once its heap type is read; other codes stand for none. -/
def refAfter (code : TypeCode) : Reader (Option RefType) :=
  if code.takesHeap then do
    let heap ← Leb128.readS64
    pure (some ⟨code = TypeCode.refNull, heap⟩)
  else pure none

def extAfter (code : TypeCode) : Reader (Option ExtType) := do
  let type ← refAfter code
  pure (type.map (.ref code))

def extType : Reader ExtType := do
  let code ← byte
  let type ← extAfter code
  pure (type.getD (.plain code))

end Reader

end HostCatch
