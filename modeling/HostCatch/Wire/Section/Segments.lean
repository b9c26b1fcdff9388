import HostCatch.Wire.Section.Entities

namespace HostCatch

namespace Reader

open Wire

def element : Reader Element := do
  let flags ← u32
  if 7 < flags then throw (.elementFlags flags)
  let e : Element := ⟨flags, 0, [], 0, 0, none, [], []⟩
  let table ← if e.hasTable then u32 else pure 0
  let offset ← if e.isActive then constExpr else pure []
  let elemKind ← if e.hasType && !e.hasExprs then byte else pure 0
  let type ← if e.hasType && e.hasExprs then byte else pure 0
  let ref ← if e.hasType && e.hasExprs then refAfter type else pure none
  let n ← u32
  let funcs ← if e.hasExprs then pure [] else times u32 n.toNat
  let exprs ← if e.hasExprs then times constExpr n.toNat else pure []
  pure ⟨flags, table, offset, elemKind, type, ref, funcs, exprs⟩

def localEntry : Reader LocalEntry := do
  let count ← u32
  let val ← byte
  let ext ← extAfter val
  pure ⟨count, val, ext⟩

/-- A body is read from the bytes that its size sets apart. -/
def funcBody : Reader FuncBody := do
  let n ← u32
  let data ← bytes n.toNat
  inside data do
    let locals ← list localEntry
    let code ← remaining
    pure ⟨locals, code⟩

def dataSegment : Reader DataSegment := do
  let flags ← u32
  if 2 < flags then throw (.dataFlags flags)
  let mem ← if flags = 2 then u32 else pure 0
  let offset ← if flags ≠ 1 then constExpr else pure []
  let n ← u32
  let init ← bytes n.toNat
  pure ⟨flags, mem, offset, init⟩

def custom : Reader Custom := do
  let name ← name
  let data ← remaining
  pure ⟨name, data⟩

end Reader

namespace Wire

open Leb128

def element (e : Element) : Bytes :=
  u32 e.flags ++
  (if e.hasTable then u32 e.table else []) ++
  (if e.isActive then e.offset else []) ++
  (if e.hasType then if e.hasExprs then refOrCode e.type e.ref else [e.elemKind] else []) ++
  (if e.hasExprs then list id e.exprs else list u32 e.funcs)

def localEntry (l : LocalEntry) : Bytes :=
  u32 l.count ++ typeOrCode l.val l.ext

def funcBody (b : FuncBody) : Bytes :=
  let bytes := list localEntry b.locals ++ b.code
  size bytes.length ++ bytes

def dataSegment (d : DataSegment) : Bytes :=
  u32 d.flags ++
  (if d.flags = 2 then u32 d.mem else []) ++
  (if d.flags = 1 then [] else d.offset) ++
  size d.init.length ++ d.init

def custom (c : Custom) : Bytes :=
  name c.name ++ c.data

end Wire

end HostCatch
