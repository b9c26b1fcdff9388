import HostCatch.Wire.Types

namespace HostCatch.Wire

/-- A function signature. The codes alone stand in `params` and `results`; the other two lists give
the value types in full where they are known. -/
structure FuncType where
  params : List TypeCode
  results : List TypeCode
  extParams : List ExtType
  extResults : List ExtType
  deriving DecidableEq

inductive Storage where
  | val (code : TypeCode)
  | packed (code : UInt8)
  | ref (type : RefType)
  | other
  deriving DecidableEq

structure Field where
  storage : Storage
  mutable : Bool
  deriving DecidableEq

/-- A composite type. A module that was not read from bytes may lack the part its kind promises. -/
inductive Composite where
  | func (type : Option FuncType)
  | struct (fields : Option (List Field))
  | array (element : Option Field)
  | other
  deriving DecidableEq

structure SubType where
  final : Bool
  parents : List UInt32
  comp : Composite
  deriving DecidableEq

/-- An entry of the type section. -/
inductive TypeDef where
  | func (type : Option FuncType)
  | sub (type : Option SubType)
  | group (types : Option (List SubType))
  | other
  deriving DecidableEq

structure Limits where
  min : UInt64
  max : Option UInt64
  shared : Bool
  memory64 : Bool
  deriving DecidableEq

structure TableType where
  elem : TypeCode
  ref : Option RefType
  limits : Limits
  init : Bytes
  deriving DecidableEq

structure GlobalType where
  val : TypeCode
  ext : Option ExtType
  mutable : Bool
  deriving DecidableEq

structure TagType where
  attr : UInt8
  type : UInt32
  deriving DecidableEq

/-- What an import asks for. -/
inductive ImportDesc where
  | func (type : UInt32)
  | table (type : Option TableType)
  | memory (limits : Option Limits)
  | global (type : Option GlobalType)
  | tag (type : Option TagType)
  | other (kind : UInt8) (type : UInt32)
  deriving DecidableEq

/-- The codes of the kinds of entity that imports and exports name. -/
def EntityCode.func : UInt8 := 0
def EntityCode.table : UInt8 := 1
def EntityCode.memory : UInt8 := 2
def EntityCode.global : UInt8 := 3
def EntityCode.tag : UInt8 := 4

def ImportDesc.kind : ImportDesc → UInt8
  | func _ => EntityCode.func
  | table _ => EntityCode.table
  | memory _ => EntityCode.memory
  | global _ => EntityCode.global
  | tag _ => EntityCode.tag
  | other kind _ => kind

structure Import where
  module : String
  name : String
  desc : ImportDesc
  deriving DecidableEq

structure Export where
  name : String
  kind : UInt8
  index : UInt32
  deriving DecidableEq

structure Global where
  type : GlobalType
  init : Bytes
  deriving DecidableEq

/-- An element segment. Bit 0 of the flags marks a segment without a place, bit 1 an explicit table
or a declaration, bit 2 expressions in place of function indices. -/
structure Element where
  flags : UInt32
  table : UInt32
  offset : Bytes
  elemKind : UInt8
  type : TypeCode
  ref : Option RefType
  funcs : List UInt32
  exprs : List Bytes
  deriving DecidableEq

namespace Element

/-- Active segments are copied to a table when the module starts. -/
def isActive (e : Element) : Bool :=
  e.flags &&& 0x01 = 0

def hasTable (e : Element) : Bool :=
  e.flags &&& 0x02 ≠ 0 && e.isActive

def hasExprs (e : Element) : Bool :=
  e.flags &&& 0x04 ≠ 0

def hasType (e : Element) : Bool :=
  e.flags &&& 0x03 ≠ 0

end Element

structure LocalEntry where
  count : UInt32
  val : TypeCode
  ext : Option ExtType
  deriving DecidableEq

structure FuncBody where
  locals : List LocalEntry
  code : Bytes
  deriving DecidableEq

/-- A data segment: flag 1 marks one without a place, flag 2 an explicit memory. -/
structure DataSegment where
  flags : UInt32
  mem : UInt32
  offset : Bytes
  init : Bytes
  deriving DecidableEq

structure Custom where
  name : String
  data : Bytes
  deriving DecidableEq

/-- A module as its sections give it. `types` holds the function types; `typeDefs` is empty unless
other type definitions stand among them. -/
structure Module where
  types : List FuncType := []
  typeDefs : List TypeDef := []
  imports : List Import := []
  funcs : List UInt32 := []
  tables : List TableType := []
  memories : List Limits := []
  tags : List TagType := []
  globals : List Global := []
  exports : List Export := []
  start : Option UInt32 := none
  elements : List Element := []
  dataCount : Option UInt32 := none
  code : List FuncBody := []
  data : List DataSegment := []
  customs : List Custom := []
  deriving DecidableEq

end HostCatch.Wire
