import HostCatch.Program.Basic

namespace HostCatch

/-- The order in which entities are written: imported ones by import, then the others by position.
The place of an entity in this order is its index. -/
structure Numbering where
  funcs : List FuncId
  tables : List TableId
  tags : List TagId
  deriving DecidableEq

namespace Program

/-- The positions at which a list has entries of some sort. -/
def positions {α : Type} (select : α → Bool) (as : List α) : List Nat :=
  as.zipIdx.filterMap fun (a, i) => if select a then some i else none

/-- The functions with bodies. -/
def definedFuncs (p : Program) : List FuncId :=
  positions (!·.isImported) p.funcs

def definedTables (p : Program) : List TableId :=
  positions (·.entry.isNone) p.tables

def definedTags (p : Program) : List TagId :=
  positions (·.entry.isNone) p.tags

def numbering (p : Program) : Numbering where
  funcs := p.imports.filterMap Import.func? ++ p.definedFuncs
  tables := p.imports.filterMap Import.table? ++ p.definedTables
  tags := p.imports.filterMap Import.tag? ++ p.definedTags

end Program

namespace Numbering

/-- The index of an entity in an order. -/
def indexIn (order : List Nat) (id : Nat) : UInt32 :=
  UInt32.ofNat (order.idxOf id)

/-- The index of an entity, which has to exist. -/
def index (order : List Nat) (id : Nat) : Except Abort UInt32 :=
  if id < order.length then .ok (indexIn order id) else .error (.outOfRange id order.length)

def func (l : Numbering) (id : FuncId) : Except Abort UInt32 :=
  index l.funcs id

def table (l : Numbering) (id : TableId) : Except Abort UInt32 :=
  index l.tables id

def tag (l : Numbering) (id : TagId) : Except Abort UInt32 :=
  index l.tags id

/-- The index of an entity; an index of none is kept. -/
def follow (order : List Nat) (index : UInt32) : UInt32 :=
  if index.toNat < order.length then indexIn order index.toNat else index

/-- Whether some function's index is not its position. -/
def movesFuncs (l : Numbering) : Bool :=
  l.funcs ≠ List.range l.funcs.length

end Numbering

end HostCatch
