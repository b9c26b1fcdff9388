import HostCatch.Program.Basic
import HostCatch.Wire.Primitive

namespace HostCatch

/-- The name of the entity with an index. -/
structure NameEntry where
  index : UInt32
  name : Bytes
  deriving DecidableEq

/-- Names of entities that belong to the one with an index. -/
structure IndirectNames where
  index : UInt32
  names : List NameEntry
  deriving DecidableEq

/-- The custom section that holds debug names. -/
def nameSectionName : String := "name"

namespace NameSubsection

def funcs : UInt8 := 1
def locals : UInt8 := 2
def labels : UInt8 := 3
def tables : UInt8 := 5
def tags : UInt8 := 11

end NameSubsection

namespace Reader

open Leb128

/-- A debug name: any bytes, with their number before them. -/
def debugName : Reader Bytes := do
  let n ← readU32
  let here ← get
  if here.rest.length < n.toNat then throw (.nameLength n here.rest.length)
  bytes n.toNat

def nameEntry : Reader NameEntry := do
  let index ← readU32
  let name ← debugName
  pure ⟨index, name⟩

def nameMap : Reader (List NameEntry) := do
  let n ← readU32
  times nameEntry n.toNat

def indirectNames : Reader IndirectNames := do
  let index ← readU32
  let names ← nameMap
  pure ⟨index, names⟩

def indirectNameMap : Reader (List IndirectNames) := do
  let n ← readU32
  times indirectNames n.toNat

def nameSubsection : Reader NameSubsection := do
  let id ← byte
  let n ← readU32
  let here ← get
  if here.rest.length < n.toNat then throw (.subsectionSize id n here.rest.length)
  let data ← bytes n.toNat
  pure ⟨id, data⟩

end Reader

/-- What a section of debug names was found to hold: the names of functions, the other subsections,
and whether it could be read to its end. -/
structure NameScan where
  funcs : List NameEntry
  others : List NameSubsection
  complete : Bool
  deriving DecidableEq

namespace NameScan

/-- Reads at most `bound` subsections. -/
def scan : Nat → NameScan → Cursor → NameScan
  | 0, found, c => { found with complete := c.rest.isEmpty }
  | bound + 1, found, c =>
    if c.rest.isEmpty then { found with complete := true }
    else
      match Reader.nameSubsection c with
      | .error _ _ => found
      | .ok sub c =>
        if sub.id = NameSubsection.funcs then
          match Reader.nameMap.run sub.data with
          | .error _ => found
          | .ok entries => scan bound { found with funcs := found.funcs ++ entries } c
        else scan bound { found with others := found.others ++ [sub] } c

/-- Each subsection takes a byte or more, so the data bounds their number. -/
def ofBytes (data : Bytes) : NameScan :=
  scan data.length ⟨[], [], false⟩ (.start data)

end NameScan

namespace Program

/-- Gives a function the name of an entry, if there is such a function. -/
def assignName (p : Program) (e : NameEntry) : Program :=
  p.setName e.index.toNat e.name

/-- Takes in a custom section. Names of functions are taken over as far as they can be read; a
section that cannot be read to its end is kept as it is, and one that can replaces the subsections
kept before. -/
def takeCustom (p : Program) (c : Wire.Custom) : Program :=
  if c.name = nameSectionName then
    let found := NameScan.ofBytes c.data
    let p := found.funcs.foldl assignName p
    if found.complete then { p with names := found.others }
    else { p with customs := p.customs ++ [c] }
  else { p with customs := p.customs ++ [c] }

end Program

namespace Wire

open Leb128

def nameEntry (e : NameEntry) : Bytes :=
  u32 e.index ++ size e.name.length ++ e.name

/-- Names in the order of their indices. -/
def nameMap (entries : List NameEntry) : Bytes :=
  list nameEntry (entries.mergeSort fun a b => a.index ≤ b.index)

def indirectNames (e : IndirectNames) : Bytes :=
  u32 e.index ++ nameMap e.names

def indirectNameMap (entries : List IndirectNames) : Bytes :=
  list indirectNames (entries.mergeSort fun a b => a.index ≤ b.index)

def nameSubsection (s : NameSubsection) : Bytes :=
  s.id :: (size s.data.length ++ s.data)

end Wire

end HostCatch
