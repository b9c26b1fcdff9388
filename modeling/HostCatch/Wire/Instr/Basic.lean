import HostCatch.Wire.Types

namespace HostCatch.Wire

/-- Where a load or store goes. -/
structure MemArg where
  align : UInt32
  offset : UInt64
  mem : UInt32
  deriving DecidableEq

structure CatchClause where
  kind : UInt8
  tag : UInt32
  label : UInt32
  deriving DecidableEq

/-- The clauses that name a tag: `catch` and `catch_ref`. -/
def CatchClause.takesTag (kind : UInt8) : Bool :=
  kind = 0x00 || kind = 0x01

/-- The operands of an instruction on structures, arrays and references; the second opcode says
which of them are present. -/
structure GcImm where
  sub : UInt32
  type : UInt32 := 0
  field : UInt32 := 0
  type2 : UInt32 := 0
  data : UInt32 := 0
  elem : UInt32 := 0
  size : UInt32 := 0
  label : UInt32 := 0
  heap : HeapType := 0
  heap2 : HeapType := 0
  castFlags : UInt8 := 0
  deriving DecidableEq

structure SimdImm where
  sub : UInt32
  memarg : Option MemArg := none
  lane : Option UInt8 := none
  bytes : Bytes := []
  deriving DecidableEq

/-- What follows an opcode. Floating point constants are kept as bit patterns. -/
inductive Imm where
  | none
  | block (type : Int32)
  | branch (label : UInt32)
  | brTable (labels : List UInt32) (default : UInt32)
  | call (func : UInt32)
  | callIndirect (type table : UInt32)
  | callRef (type : UInt32)
  | localVar (index : UInt32)
  | globalVar (index : UInt32)
  | table (index : UInt32)
  | memory (arg : MemArg)
  | memIndex (index : UInt32)
  | i32 (value : Int32)
  | i64 (value : Int64)
  | f32 (bits : UInt32)
  | f64 (bits : UInt64)
  | misc (sub : UInt32) (operands : List UInt32)
  | refNull (heap : HeapType)
  | refFunc (func : UInt32)
  | select (types : List TypeCode) (extTypes : List ExtType)
  | simd (imm : SimdImm)
  | atomic (sub : UInt32) (memarg : Option MemArg)
  | gc (imm : GcImm)
  | throw (tag : UInt32)
  | tryTable (type : Int32) (catches : List CatchClause)
  deriving DecidableEq

/-- An instruction: its opcode and what follows it. Nothing forces the two to suit each other. -/
structure Instr where
  op : UInt8
  imm : Imm
  deriving DecidableEq

/-- Which sort of immediate an opcode takes. -/
inductive Layout where
  | none
  | block
  | branch
  | brTable
  | call
  | callIndirect
  | callRef
  | localVar
  | globalVar
  | table
  | memory
  | memIndex
  | i32
  | i64
  | f32
  | f64
  | misc
  | refNull
  | refFunc
  | select
  | simd
  | atomic
  | gc
  | throw
  | tryTable
  deriving DecidableEq

/-- The immediate that an opcode takes; `none` for a byte that is no opcode. -/
def Layout.ofOpcode? (op : UInt8) : Option Layout :=
  if op ∈ [0x02, 0x03, 0x04, 0x06] then some block
  else if op ∈ [0x07, 0x08] then some throw
  else if op ∈ [0x09, 0x0C, 0x0D, 0x18, 0xD5, 0xD6] then some branch
  else if op = 0x0E then some brTable
  else if op ∈ [0x10, 0x12] then some call
  else if op ∈ [0x11, 0x13] then some callIndirect
  else if op ∈ [0x14, 0x15] then some callRef
  else if op = 0x1C then some select
  else if op = 0x1F then some tryTable
  else if op ∈ [0x20, 0x21, 0x22] then some localVar
  else if op ∈ [0x23, 0x24] then some globalVar
  else if op ∈ [0x25, 0x26] then some table
  else if 0x28 ≤ op ∧ op ≤ 0x3E then some memory
  else if op ∈ [0x3F, 0x40] then some memIndex
  else if op = 0x41 then some i32
  else if op = 0x42 then some i64
  else if op = 0x43 then some f32
  else if op = 0x44 then some f64
  else if op = 0xD0 then some refNull
  else if op = 0xD2 then some refFunc
  else if op = 0xFB then some gc
  else if op = 0xFC then some misc
  else if op = 0xFD then some simd
  else if op = 0xFE then some atomic
  else if 0x45 ≤ op ∧ op ≤ 0xC4 then some none
  else if op ∈ [0x00, 0x01, 0x05, 0x0A, 0x0B, 0x0F, 0x19, 0x1A, 0x1B, 0xD1, 0xD3, 0xD4] then
    some none
  else .none

/-- How many operands a bulk-memory or conversion instruction has. -/
def miscArity? (sub : UInt32) : Option Nat :=
  if sub ≤ 0x07 then some 0
  else if sub ∈ [0x08, 0x0A, 0x0C, 0x0E] then some 2
  else if sub ≤ 0x12 then some 1
  else none

/-- Which operands an instruction on structures, arrays and references has. -/
inductive GcLayout where
  | none
  | type
  | typeField
  | typeSize
  | typeData
  | typeElem
  | typeType
  | heap
  | cast
  deriving DecidableEq

def GcLayout.ofOpcode? (sub : UInt32) : Option GcLayout :=
  if sub ∈ [0x00, 0x01, 0x06, 0x07, 0x0B, 0x0C, 0x0D, 0x0E, 0x10] then some type
  else if sub ∈ [0x02, 0x03, 0x04, 0x05] then some typeField
  else if sub = 0x08 then some typeSize
  else if sub ∈ [0x09, 0x12] then some typeData
  else if sub ∈ [0x0A, 0x13] then some typeElem
  else if sub = 0x11 then some typeType
  else if sub ∈ [0x14, 0x15, 0x16, 0x17] then some heap
  else if sub ∈ [0x18, 0x19] then some cast
  else if sub ∈ [0x0F, 0x1A, 0x1B, 0x1C, 0x1D, 0x1E] then some none
  else .none

/-- Which operands a vector instruction has. -/
inductive SimdLayout where
  | none
  | memory
  | bytes
  | lane
  | memoryLane
  deriving DecidableEq

def SimdLayout.ofOpcode (sub : UInt32) : SimdLayout :=
  if sub ≤ 0x0B then memory
  else if sub ≤ 0x0D then bytes
  else if 0x15 ≤ sub ∧ sub ≤ 0x22 then lane
  else if 0x54 ≤ sub ∧ sub ≤ 0x5B then memoryLane
  else if sub ∈ [0x5C, 0x5D] then memory
  else none

/-- The one atomic instruction without a memory argument. -/
def atomicFence : UInt32 := 0x03

end HostCatch.Wire
