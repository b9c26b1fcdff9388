import HostCatch.Program.Body

namespace HostCatch

inductive FunctionKind where
  | imported (entry : ImportId)
  | defined (body : Body)
  deriving DecidableEq

/-- A function; its debug name may be any bytes, and none at all. -/
structure Function where
  name : Bytes
  type : TypeId
  kind : FunctionKind
  deriving DecidableEq

namespace Function

def body? (f : Function) : Option Body :=
  match f.kind with
  | .defined body => some body
  | .imported _ => none

def import? (f : Function) : Option ImportId :=
  match f.kind with
  | .imported entry => some entry
  | .defined _ => none

def isImported (f : Function) : Bool :=
  f.import?.isSome

end Function

structure Table where
  elem : RefType
  limits : Wire.Limits
  init : Bytes
  entry : Option ImportId
  deriving DecidableEq

structure Tag where
  type : TypeId
  attr : UInt8
  entry : Option ImportId
  deriving DecidableEq

/-- What an import provides; memories and globals are kept as they are written. -/
inductive ImportTarget where
  | func (func : FuncId)
  | table (table : TableId)
  | tag (tag : TagId)
  | carried (desc : Wire.ImportDesc)
  deriving DecidableEq

structure Import where
  module : String
  name : String
  target : ImportTarget
  deriving DecidableEq

namespace Import

def kind (i : Import) : UInt8 :=
  match i.target with
  | .func _ => Wire.EntityCode.func
  | .table _ => Wire.EntityCode.table
  | .tag _ => Wire.EntityCode.tag
  | .carried desc => desc.kind

def func? (i : Import) : Option FuncId :=
  match i.target with
  | .func func => some func
  | _ => none

def table? (i : Import) : Option TableId :=
  match i.target with
  | .table table => some table
  | _ => none

def tag? (i : Import) : Option TagId :=
  match i.target with
  | .tag tag => some tag
  | _ => none

end Import

/-- What an export names; for memories and globals that is an index as it is written. -/
inductive ExportTarget where
  | func (func : FuncId)
  | table (table : TableId)
  | tag (tag : TagId)
  | other (kind : UInt8) (index : UInt32)
  deriving DecidableEq

structure Export where
  name : String
  target : ExportTarget
  deriving DecidableEq

def Export.kind (e : Export) : UInt8 :=
  match e.target with
  | .func _ => Wire.EntityCode.func
  | .table _ => Wire.EntityCode.table
  | .tag _ => Wire.EntityCode.tag
  | .other kind _ => kind

/-- A subsection of the debug names, as it is written. -/
structure NameSubsection where
  id : UInt8
  data : Bytes
  deriving DecidableEq

/-- A module whose entities can be added to and changed. They refer to each other by position; what
is not looked into is carried along as it is written. -/
structure Program where
  types : List Signature := []
  funcs : List Function := []
  tables : List Table := []
  tags : List Tag := []
  imports : List Import := []
  exports : List Export := []
  locals : List ValType := []
  start : Option FuncId := none
  memories : List Wire.Limits := []
  globals : List Wire.Global := []
  elements : List Wire.Element := []
  data : List Wire.DataSegment := []
  dataCount : Option UInt32 := none
  customs : List Wire.Custom := []
  names : List NameSubsection := []
  deriving DecidableEq

namespace Program

/-- The first type with a signature. -/
def findType? (p : Program) (s : Signature) : Option TypeId :=
  p.types.findIdx? (· = s)

/-- Adds a type, also when there is one with the same signature. -/
def insertType (p : Program) (s : Signature) : TypeId × Program :=
  (p.types.length, { p with types := p.types ++ [s] })

/-- The first type with a signature, which is added when there is none. -/
def addType (p : Program) (s : Signature) : TypeId × Program :=
  match p.findType? s with
  | some id => (id, p)
  | none => p.insertType s

def params (p : Program) (type : TypeId) : List ValType :=
  (p.types[type]?.map Signature.params).getD []

def results (p : Program) (type : TypeId) : List ValType :=
  (p.types[type]?.map Signature.results).getD []

def addLocal (p : Program) (type : ValType) : LocalId × Program :=
  (p.locals.length, { p with locals := p.locals ++ [type] })

def addFunction (p : Program) (f : Function) : FuncId × Program :=
  (p.funcs.length, { p with funcs := p.funcs ++ [f] })

/-- Imports a function of a type. -/
def importFunction (p : Program) (module name : String) (type : TypeId) :
    (FuncId × ImportId) × Program :=
  let func := p.funcs.length
  let entry := p.imports.length
  ((func, entry), { p with
    imports := p.imports ++ [⟨module, name, .func func⟩]
    funcs := p.funcs ++ [⟨[], type, .imported entry⟩] })

/-- Imports a tag of a type. -/
def importTag (p : Program) (module name : String) (type : TypeId) : (TagId × ImportId) × Program :=
  let tag := p.tags.length
  let entry := p.imports.length
  ((tag, entry), { p with
    imports := p.imports ++ [⟨module, name, .tag tag⟩]
    tags := p.tags ++ [⟨type, 0, some entry⟩] })

def tableLimits (min : UInt64) (max : Option UInt64) : Wire.Limits :=
  ⟨min, max, false, false⟩

def importTable (p : Program) (module name : String) (elem : RefType) (min : UInt64)
    (max : Option UInt64) : (TableId × ImportId) × Program :=
  let table := p.tables.length
  let entry := p.imports.length
  ((table, entry), { p with
    imports := p.imports ++ [⟨module, name, .table table⟩]
    tables := p.tables ++ [⟨elem, tableLimits min max, [], some entry⟩] })

def addTag (p : Program) (type : TypeId) : TagId × Program :=
  (p.tags.length, { p with tags := p.tags ++ [⟨type, 0, none⟩] })

def addTable (p : Program) (elem : RefType) (min : UInt64) (max : Option UInt64) :
    TableId × Program :=
  (p.tables.length, { p with tables := p.tables ++ [⟨elem, tableLimits min max, [], none⟩] })

/-- Exports an entity; that it exists is not checked here. -/
def addExport (p : Program) (name : String) (target : ExportTarget) : ExportId × Program :=
  (p.exports.length, { p with exports := p.exports ++ [⟨name, target⟩] })

def findImport? (p : Program) (module name : String) : Option ImportId :=
  p.imports.findIdx? fun i => i.module = module && i.name = name

def findExport? (p : Program) (name : String) : Option ExportId :=
  p.exports.findIdx? (·.name = name)

/-- The first function with a debug name. -/
def findFunction? (p : Program) (name : Bytes) : Option FuncId :=
  p.funcs.findIdx? (·.name = name)

/-- The first export of a name, when it is a function. -/
def exportedFunction? (p : Program) (name : String) : Option FuncId := do
  let id ← p.findExport? name
  match (← p.exports[id]?).target with
  | .func func => some func
  | _ => none

/-- The first export of a name, when it is a table. -/
def exportedTable? (p : Program) (name : String) : Option TableId := do
  let id ← p.findExport? name
  match (← p.exports[id]?).target with
  | .table table => some table
  | _ => none

/-- The import that provides a function. -/
def importOf? (p : Program) (func : FuncId) : Option Import := do
  let f ← p.funcs[func]?
  let entry ← f.import?
  p.imports[entry]?

/-- The name under which a function is imported. -/
def importName? (p : Program) (func : FuncId) : Option String :=
  (p.importOf? func).map Import.name

def setName (p : Program) (func : FuncId) (name : Bytes) : Program :=
  { p with funcs := p.funcs.modify func fun f => { f with name } }

def setBody (p : Program) (func : FuncId) (body : Body) : Program :=
  { p with funcs := p.funcs.modify func fun f => { f with kind := .defined body } }

end Program

end HostCatch
