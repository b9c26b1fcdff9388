import HostCatch.Wire.Section.Segments

namespace HostCatch

namespace Wire

/-- The sections of a module, in the order in which they stand; custom sections stand anywhere. -/
inductive SectionId where
  | custom
  | types
  | imports
  | funcs
  | tables
  | memories
  | tags
  | globals
  | exports
  | start
  | elements
  | dataCount
  | code
  | data
  deriving DecidableEq

namespace SectionId

def all : List SectionId :=
  [custom, types, imports, funcs, tables, memories, tags, globals, exports, start, elements,
    dataCount, code, data]

def toByte : SectionId → UInt8
  | custom => 0
  | types => 1
  | imports => 2
  | funcs => 3
  | tables => 4
  | memories => 5
  | globals => 6
  | exports => 7
  | start => 8
  | elements => 9
  | code => 10
  | data => 11
  | dataCount => 12
  | tags => 13

def ofByte? (id : UInt8) : Option SectionId :=
  all.find? (·.toByte = id)

/-- The place of a section in the order; custom sections have none. -/
def rank (s : SectionId) : Nat :=
  all.idxOf s

def name : SectionId → String
  | custom => "custom"
  | types => "type"
  | imports => "import"
  | funcs => "function"
  | tables => "table"
  | memories => "memory"
  | tags => "tag"
  | globals => "global"
  | exports => "export"
  | start => "start"
  | elements => "element"
  | dataCount => "data count"
  | code => "code"
  | data => "data"

end SectionId

/-- The place in the order of the section with an id; unknown sections come last. -/
def sectionRank (id : UInt8) : Nat :=
  match SectionId.ofByte? id with
  | some s => s.rank
  | none => SectionId.all.length

def magic : UInt32 := 0x6D736100

def version : UInt32 := 1

end Wire

namespace Reader

open Wire

/-- Adds what the payload of a section holds to a module. -/
def payload (m : Module) : SectionId → Reader Module
  | .custom => do
    let entry ← custom
    pure { m with customs := m.customs ++ [entry] }
  | .types => typeSection m
  | .imports => do
    let imports ← list importEntry
    pure { m with imports }
  | .funcs => do
    let funcs ← list u32
    pure { m with funcs }
  | .tables => do
    let tables ← list tableType
    pure { m with tables }
  | .memories => do
    let memories ← list limits
    pure { m with memories }
  | .tags => do
    let tags ← list tagType
    pure { m with tags }
  | .globals => do
    let globals ← list globalEntry
    pure { m with globals }
  | .exports => do
    let exports ← list exportEntry
    pure { m with exports }
  | .start => do
    let start ← u32
    pure { m with start := some start }
  | .elements => do
    let elements ← list element
    pure { m with elements }
  | .dataCount => do
    let count ← u32
    pure { m with dataCount := some count }
  | .code => do
    let code ← list funcBody
    pure { m with code }
  | .data => do
    let data ← list dataSegment
    pure { m with data }

/-- The size of a section and the bytes it sets apart. -/
def sectionData : Reader Bytes := do
  let n ← locating "section size" u32
  locating "section data" (bytes n.toNat)

/-- The sections up to the end of the data, each in its place after the one of rank `last`, in at
most `bound` sections. What a section holds after its entries is not looked at. -/
def sections : Nat → Nat → Module → Reader Module
  | 0, _, m => pure m
  | bound + 1, last, m => do
    if ← atEnd then pure m
    else
      let id ← byte
      let rank := sectionRank id
      if id ≠ SectionId.custom.toByte ∧ rank ≤ last then throw (.sectionOrder id)
      let data ← sectionData
      match SectionId.ofByte? id with
      | none => throw (.unknownSection id)
      | some s =>
        let m ← inside data (within s.name (payload m s))
        sections bound (if s = .custom then last else rank) m

/-- A whole module. Each section takes a byte or more, so the data bounds their number. -/
def module : Reader Module := do
  let found ← locating "header" u32le
  if found ≠ magic then throw .badMagic
  let found ← locating "header" u32le
  if found ≠ version then throw .badVersion
  fun c => sections c.rest.length 0 {} c

end Reader

namespace Wire

def Module.decode (data : Bytes) : Except ReadFault Module :=
  Reader.module.run data

/-- A section: its id, its size and its payload. -/
def framed (s : SectionId) (payload : Bytes) : Bytes :=
  s.toByte :: (size payload.length ++ payload)

/-- A section that lists entries is left out when it has none. -/
def entries {α : Type} (s : SectionId) (write : α → Bytes) : List α → Bytes
  | [] => []
  | as => framed s (list write as)

/-- A section that holds one number is left out when there is none. -/
def number (s : SectionId) : Option UInt32 → Bytes
  | some n => framed s (Leb128.u32 n)
  | none => []

/-- The bytes of a module, its custom sections last. -/
def Module.encode (m : Module) : Except Abort Bytes := do
  let types ← if m.typeDefs = [] ∧ m.types = [] then pure [] else framed .types <$> typeSection m
  pure (u32le magic ++ u32le version ++ types ++
    entries .imports importEntry m.imports ++
    entries .funcs Leb128.u32 m.funcs ++
    entries .tables tableType m.tables ++
    entries .memories limits m.memories ++
    entries .tags tagType m.tags ++
    entries .globals globalEntry m.globals ++
    entries .exports exportEntry m.exports ++
    number .start m.start ++
    entries .elements element m.elements ++
    number .dataCount m.dataCount ++
    entries .code funcBody m.code ++
    entries .data dataSegment m.data ++
    m.customs.flatMap (framed .custom ∘ custom))

end Wire

end HostCatch
