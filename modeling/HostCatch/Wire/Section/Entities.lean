import HostCatch.Wire.Section.Types
import HostCatch.Wire.ConstExpr

namespace HostCatch

namespace Reader

open Wire

/-- Bit 0 of the flags announces a maximum, bit 1 sharing, bit 2 wide numbers. -/
def limits : Reader Limits := do
  let flags ← byte
  let memory64 : Bool := flags &&& 0x04 ≠ 0
  let bound : Reader UInt64 := if memory64 then u64 else UInt32.toUInt64 <$> u32
  let min ← bound
  let max ← if flags &&& 0x01 ≠ 0 then some <$> bound else pure none
  match max with
  | some most => if most < min then throw (.limits min most)
  | none => pure ()
  pure ⟨min, max, flags &&& 0x02 ≠ 0, memory64⟩

/-- A table type; the prefix `0x40 0x00` announces an initial value at its end. -/
def tableType : Reader TableType := do
  let first ← byte
  if first = 0x40 then
    let zero ← byte
    if zero ≠ 0 then throw (.tablePrefix zero)
    let elem ← byte
    let ref ← refAfter elem
    let limits ← limits
    let init ← constExpr
    pure ⟨elem, ref, limits, init⟩
  else
    let ref ← refAfter first
    let limits ← limits
    pure ⟨first, ref, limits, []⟩

def globalType : Reader GlobalType := do
  let val ← byte
  let ext ← extAfter val
  let mutable ← byte
  pure ⟨val, ext, mutable ≠ 0⟩

def tagType : Reader TagType := do
  let attr ← byte
  let type ← u32
  pure ⟨attr, type⟩

def importDesc (kind : UInt8) : Reader ImportDesc :=
  if kind = EntityCode.func then .func <$> u32
  else if kind = EntityCode.table then (fun t => .table (some t)) <$> tableType
  else if kind = EntityCode.memory then (fun l => .memory (some l)) <$> limits
  else if kind = EntityCode.global then (fun g => .global (some g)) <$> globalType
  else if kind = EntityCode.tag then (fun t => .tag (some t)) <$> tagType
  else throw (.importKind kind)

def importEntry : Reader Wire.Import := do
  let module ← name
  let name ← name
  let kind ← byte
  let desc ← importDesc kind
  pure ⟨module, name, desc⟩

def exportEntry : Reader Wire.Export := do
  let name ← name
  let kind ← byte
  if EntityCode.tag < kind then throw (.exportKind kind)
  let index ← u32
  pure ⟨name, kind, index⟩

def globalEntry : Reader Global := do
  let type ← globalType
  let init ← constExpr
  pure ⟨type, init⟩

end Reader

namespace Wire

open Leb128

def limits (l : Limits) : Bytes :=
  let bits (b : Bool) (bit : UInt8) : UInt8 := if b then bit else 0
  let flags := bits l.max.isSome 0x01 ||| bits l.shared 0x02 ||| bits l.memory64 0x04
  let bound (n : UInt64) : Bytes := if l.memory64 then u64 n else u32 n.toUInt32
  flags :: (bound l.min ++ (l.max.map bound).getD [])

def tableType (t : TableType) : Bytes :=
  if t.init = [] then refOrCode t.elem t.ref ++ limits t.limits
  else [0x40, 0x00] ++ refOrCode t.elem t.ref ++ limits t.limits ++ t.init

def globalType (g : GlobalType) : Bytes :=
  typeOrCode g.val g.ext ++ flag g.mutable

def tagType (t : TagType) : Bytes :=
  t.attr :: u32 t.type

/-- A descriptor that lacks its part is written by its kind alone. -/
def importDesc (d : ImportDesc) : Bytes :=
  d.kind ::
    match d with
    | .func type => u32 type
    | .table type => (type.map tableType).getD []
    | .memory lim => (lim.map limits).getD []
    | .global type => (type.map globalType).getD []
    | .tag type => (type.map tagType).getD []
    | .other _ _ => []

def importEntry (i : Import) : Bytes :=
  name i.module ++ name i.name ++ importDesc i.desc

def exportEntry (e : Export) : Bytes :=
  name e.name ++ e.kind :: u32 e.index

def globalEntry (g : Global) : Bytes :=
  globalType g.type ++ g.init

end Wire

end HostCatch
