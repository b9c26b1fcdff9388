import HostCatch.Fault.Basic
import HostCatch.Wire.Instr.Basic

namespace HostCatch

namespace Reader

open Wire Leb128

/-- Bit six of the alignment says that a memory index follows. -/
def memArg : Reader MemArg := do
  let raw ← readU32
  let mem ← if raw &&& 0x40 ≠ 0 then readU32 else pure 0
  let offset ← readU64
  pure ⟨raw &&& ~~~(0x40 : UInt32), offset, mem⟩

def catchClause : Reader CatchClause := do
  let kind ← byte
  let tag ← if CatchClause.takesTag kind then readU32 else pure 0
  let label ← readU32
  pure ⟨kind, tag, label⟩

def miscImm : Reader Imm := do
  let sub ← readU32
  match miscArity? sub with
  | some n =>
    let operands ← times readU32 n
    pure (.misc sub operands)
  | none => throw (.miscOpcode sub)

def simdImm : Reader SimdImm := do
  let sub ← readU32
  match SimdLayout.ofOpcode sub with
  | .memory =>
    let arg ← memArg
    pure { sub, memarg := some arg }
  | .bytes =>
    let bytes ← bytes 16
    pure { sub, bytes }
  | .lane =>
    let lane ← byte
    pure { sub, lane := some lane }
  | .memoryLane =>
    let arg ← memArg
    let lane ← byte
    pure { sub, memarg := some arg, lane := some lane }
  | .none => pure { sub }

/-- The byte after a fence is reserved and dropped. -/
def atomicImm : Reader Imm := do
  let sub ← readU32
  if sub = atomicFence then
    let _ ← byte
    pure (.atomic sub none)
  else
    let arg ← memArg
    pure (.atomic sub (some arg))

def gcImm : Reader GcImm := do
  let sub ← readU32
  match GcLayout.ofOpcode? sub with
  | some .none => pure { sub }
  | some .type =>
    let type ← readU32
    pure { sub, type }
  | some .typeField =>
    let type ← readU32
    let field ← readU32
    pure { sub, type, field }
  | some .typeSize =>
    let type ← readU32
    let size ← readU32
    pure { sub, type, size }
  | some .typeData =>
    let type ← readU32
    let data ← readU32
    pure { sub, type, data }
  | some .typeElem =>
    let type ← readU32
    let elem ← readU32
    pure { sub, type, elem }
  | some .typeType =>
    let type ← readU32
    let type2 ← readU32
    pure { sub, type, type2 }
  | some .heap =>
    let heap ← readS64
    pure { sub, heap }
  | some .cast =>
    let castFlags ← byte
    let label ← readU32
    let heap ← readS64
    let heap2 ← readS64
    pure { sub, castFlags, label, heap, heap2 }
  | none => throw (.gcOpcode sub)

/-- A typed select keeps its types in full only when one of them names a heap type. -/
def selectImm : Reader Imm := do
  let n ← readU32
  let types ← times extType n.toNat
  let full := if types.any ExtType.isRef then types else []
  pure (.select (types.map ExtType.code) full)

def imm : Layout → Reader Imm
  | .none => pure .none
  | .block => .block <$> readS32
  | .branch => .branch <$> readU32
  | .brTable => do
    let n ← readU32
    let labels ← times readU32 n.toNat
    let default ← readU32
    pure (.brTable labels default)
  | .call => .call <$> readU32
  | .callIndirect => do
    let type ← readU32
    let table ← readU32
    pure (.callIndirect type table)
  | .callRef => .callRef <$> readU32
  | .localVar => .localVar <$> readU32
  | .globalVar => .globalVar <$> readU32
  | .table => .table <$> readU32
  | .memory => .memory <$> memArg
  | .memIndex => .memIndex <$> readU32
  | .i32 => .i32 <$> readS32
  | .i64 => .i64 <$> readS64
  | .f32 => do
    let bs ← wholeBytes 4
    pure (.f32 (UInt32.ofNat (littleEndian bs)))
  | .f64 => do
    let bs ← wholeBytes 8
    pure (.f64 (UInt64.ofNat (littleEndian bs)))
  | .misc => miscImm
  | .refNull => .refNull <$> readS64
  | .refFunc => .refFunc <$> readU32
  | .select => selectImm
  | .simd => .simd <$> simdImm
  | .atomic => atomicImm
  | .gc => .gc <$> gcImm
  | .throw => .throw <$> readU32
  | .tryTable => do
    let type ← readS32
    let n ← readU32
    let catches ← times catchClause n.toNat
    pure (.tryTable type catches)

def instr : Reader Wire.Instr := do
  let op ← byte
  match Layout.ofOpcode? op with
  | some layout =>
    let imm ← imm layout
    pure ⟨op, imm⟩
  | none => throw (.opcode op)

/-- Instructions to the end of the input, at most `bound` of them. -/
def instrs : Nat → Reader (List Wire.Instr)
  | 0 => pure []
  | bound + 1 => do
    if ← atEnd then pure []
    else
      let first ← instr
      let rest ← instrs bound
      pure (first :: rest)

end Reader

namespace Wire

open Leb128

/-- The instructions of a piece of code. Each takes a byte or more, so the length bounds their
number. -/
def decodeInstrs (code : Bytes) : Except ReadFault (List Instr) :=
  (Reader.instrs code.length).run code

def memArg (arg : MemArg) : Bytes :=
  if arg.mem = 0 then u32 arg.align ++ u64 arg.offset
  else u32 (arg.align ||| 0x40) ++ u32 arg.mem ++ u64 arg.offset

def catchClause (c : CatchClause) : Bytes :=
  c.kind :: ((if CatchClause.takesTag c.kind then u32 c.tag else []) ++ u32 c.label)

/-- The operands that the opcode takes; fewer of them than that is no instruction. -/
def miscImm (sub : UInt32) (operands : List UInt32) : Except Abort Bytes :=
  let taken := (miscArity? sub).getD 0
  if taken ≤ operands.length then .ok (u32 sub ++ (operands.take taken).flatMap u32)
  else .error (.outOfRange operands.length operands.length)

def simdImm (imm : SimdImm) : Bytes :=
  u32 imm.sub ++ (imm.memarg.map memArg).getD [] ++ imm.bytes ++ imm.lane.toList

def atomicImm (sub : UInt32) (arg : Option MemArg) : Bytes :=
  u32 sub ++ if sub = atomicFence then [0] else (arg.map memArg).getD []

def gcImm (imm : GcImm) : Bytes :=
  u32 imm.sub ++
    match GcLayout.ofOpcode? imm.sub with
    | some .type => u32 imm.type
    | some .typeField => u32 imm.type ++ u32 imm.field
    | some .typeSize => u32 imm.type ++ u32 imm.size
    | some .typeData => u32 imm.type ++ u32 imm.data
    | some .typeElem => u32 imm.type ++ u32 imm.elem
    | some .typeType => u32 imm.type ++ u32 imm.type2
    | some .heap => s64 imm.heap
    | some .cast => imm.castFlags :: (u32 imm.label ++ s64 imm.heap ++ s64 imm.heap2)
    | some .none => []
    | none => []

def selectImm (types : List TypeCode) (full : List ExtType) : Bytes :=
  if full = [] then list (fun code => [code]) types else list extType full

/-- The bytes of an immediate of the sort that the layout asks for. -/
def imm : Layout → Imm → Except Abort Bytes
  | .none, _ => .ok []
  | .block, .block type => .ok (s32 type)
  | .branch, .branch label => .ok (u32 label)
  | .brTable, .brTable labels default => .ok (list u32 labels ++ u32 default)
  | .call, .call func => .ok (u32 func)
  | .callIndirect, .callIndirect type table => .ok (u32 type ++ u32 table)
  | .callRef, .callRef type => .ok (u32 type)
  | .localVar, .localVar index => .ok (u32 index)
  | .globalVar, .globalVar index => .ok (u32 index)
  | .table, .table index => .ok (u32 index)
  | .memory, .memory arg => .ok (memArg arg)
  | .memIndex, .memIndex index => .ok (u32 index)
  | .i32, .i32 value => .ok (s32 value)
  | .i64, .i64 value => .ok (s64 value)
  | .f32, .f32 bits => .ok (u32le bits)
  | .f64, .f64 bits => .ok (u64le bits)
  | .misc, .misc sub operands => miscImm sub operands
  | .refNull, .refNull heap => .ok (s64 heap)
  | .refFunc, .refFunc func => .ok (u32 func)
  | .select, .select types full => .ok (selectImm types full)
  | .simd, .simd operands => .ok (simdImm operands)
  | .atomic, .atomic sub arg => .ok (atomicImm sub arg)
  | .gc, .gc operands => .ok (gcImm operands)
  | .throw, .throw tag => .ok (u32 tag)
  | .tryTable, .tryTable type catches => .ok (s32 type ++ list catchClause catches)
  | _, _ => .error .mismatched

/-- An opcode that is none is written as the byte it is. -/
def instr (i : Instr) : Except Abort Bytes :=
  match Layout.ofOpcode? i.op with
  | some layout => (i.op :: ·) <$> imm layout i.imm
  | none => .ok [i.op]

def encodeInstrs : List Instr → Except Abort Bytes
  | [] => .ok []
  | i :: rest => do
    let first ← instr i
    let others ← encodeInstrs rest
    pure (first ++ others)

end Wire

end HostCatch
