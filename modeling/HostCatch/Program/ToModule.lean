import HostCatch.Program.ToBody
import HostCatch.Program.OfModule
import HostCatch.Wire.Module.Valid

namespace HostCatch

namespace Program

open Wire

/-- A function with the position of its type checked. -/
def emitFunction (p : Program) (numbering : Numbering) (id : FuncId) :
    Emit (UInt32 × FuncBody) := do
  let type := (p.funcs[id]?.map Function.type).getD 0
  if p.types.length ≤ type then
    throw (.fault (.diagnosed
      (.outOfBounds .emit (Diagnostic.numbered "func" id ["type"]) type p.types.length)))
  let body ← p.emitBody numbering id (((p.funcs[id]?).bind Function.body?).getD {})
  pure (UInt32.ofNat type, body)

def tableToWire (t : Table) : TableType where
  elem := t.elem.code
  ref := if t.elem.code?.isSome then none else some t.elem
  limits := t.limits
  init := t.init

def tagToWire (t : Tag) : TagType :=
  ⟨t.attr, UInt32.ofNat t.type⟩

/-- The descriptor of an import: what it provides is described by the entity itself. -/
def importToWire (p : Program) (i : Import) : Except Abort Wire.Import := do
  let desc : ImportDesc ←
    match i.target with
    | .func id =>
      match p.funcs[id]? with
      | some f => .ok (.func (UInt32.ofNat f.type))
      | none => .error .missing
    | .table id =>
      match p.tables[id]? with
      | some t => .ok (.table (some (tableToWire t)))
      | none => .error .missing
    | .tag id =>
      match p.tags[id]? with
      | some t => .ok (.tag (some (tagToWire t)))
      | none => .error .missing
    | .carried desc => .ok desc
  pure ⟨i.module, i.name, desc⟩

def importsToWire (p : Program) : Except Abort (List Wire.Import) :=
  p.imports.mapM p.importToWire

/-- A reference to a function in a constant expression, with its index. -/
def followRef (numbering : Numbering) (i : Wire.Instr) : Except Failure Wire.Instr :=
  match i.op.toNat, i.imm with
  | 0xD2, .refFunc func =>
    if func.toNat < numbering.funcs.length then
      .ok ⟨i.op, .refFunc (Numbering.indexIn numbering.funcs func.toNat)⟩
    else .error (.fault (.functionRefRange func))
  | _, _ => .ok i

/-- A constant expression with the indices of functions. It stays as it is written unless functions
have moved and it names one. -/
def followExpr (numbering : Numbering) (expr : Bytes) : Except Failure Bytes := do
  if !numbering.movesFuncs || expr = [] then pure expr
  else
    match decodeInstrs expr with
    | .error cause => throw (.fault (.read cause))
    | .ok instrs =>
      let moved ← instrs.mapM (followRef numbering)
      if instrs.any (·.op = 0xD2) then encodeInstrs moved else pure expr

/-- A fault of some part of the module, with the name of the part. -/
def emitting {α : Type} (what : String) : Except Failure α → Except Failure α
  | .error (.fault cause) => .error (.fault (invalidBecause .emit what cause))
  | result => result

def emitGlobal (numbering : Numbering) (i : Nat) (g : Global) : Except Failure Global := do
  let init ← emitting s!"global {i} init" (followExpr numbering g.init)
  pure { g with init }

def followElement (numbering : Numbering) (e : Element) : Except Failure Element := do
  let funcs ← e.funcs.mapM fun func =>
    if func.toNat < numbering.funcs.length then
      (.ok (Numbering.indexIn numbering.funcs func.toNat) : Except Failure UInt32)
    else .error (.fault (.functionRange func))
  let exprs ← e.exprs.mapM (followExpr numbering)
  pure { e with table := Numbering.follow numbering.tables e.table, funcs, exprs }

def emitElement (numbering : Numbering) (i : Nat) (e : Element) : Except Failure Element :=
  emitting s!"element {i}" (followElement numbering e)

def exportToWire (numbering : Numbering) (e : Export) : Except Abort Wire.Export := do
  let index ←
    match e.target with
    | .func func => numbering.func func
    | .table table => numbering.table table
    | .tag tag => numbering.tag tag
    | .other _ index => .ok index
  pure ⟨e.name, e.kind, index⟩

def exportsToWire (p : Program) (numbering : Numbering) : Except Abort (List Wire.Export) :=
  p.exports.mapM (exportToWire numbering)

def startIndex (p : Program) (numbering : Numbering) : Except Abort (Option UInt32) :=
  p.start.mapM numbering.func

/-- The names of functions with their indices. -/
def functionNames (p : Program) (numbering : Numbering) : List NameEntry :=
  (p.funcs.zipIdx.filter (·.1.name ≠ [])).map fun (f, id) =>
    ⟨Numbering.indexIn numbering.funcs id, f.name⟩

/-- A subsection of debug names, with the indices that its entities have. -/
def followNames (numbering : Numbering) (s : NameSubsection) : Except Fault Bytes :=
  let inSubsection {α : Type} (f : α → Bytes) : Except ReadFault α → Except Fault Bytes
    | .ok a => .ok (f a)
    | .error cause => .error (.read (.inSubsection s.id cause))
  if s.id = NameSubsection.locals || s.id = NameSubsection.labels then
    inSubsection (fun entries => indirectNameMap
      (entries.map fun e => { e with index := Numbering.follow numbering.funcs e.index }))
      (Reader.indirectNameMap.run s.data)
  else if s.id = NameSubsection.tables || s.id = NameSubsection.tags then
    let order := if s.id = NameSubsection.tags then numbering.tags else numbering.tables
    inSubsection (fun entries => nameMap
      (entries.map fun e => { e with index := Numbering.follow order e.index }))
      (Reader.nameMap.run s.data)
  else .ok s.data

/-- The subsections of debug names. Names of functions stand before the first subsection that
follows them. -/
def nameSubsections (p : Program) (numbering : Numbering) : Except Fault (List NameSubsection) := do
  let others ← p.names.mapM fun s => do pure (⟨s.id, ← followNames numbering s⟩ : NameSubsection)
  let names := p.functionNames numbering
  let funcs := if names = [] then [] else [⟨NameSubsection.funcs, nameMap names⟩]
  let (before, after) := others.span (·.id ≤ NameSubsection.funcs)
  pure (before ++ funcs ++ after)

/-- The section of debug names, when there is anything to write. -/
def nameSection (p : Program) (numbering : Numbering) : Except Fault (List Custom) := do
  let subsections ← p.nameSubsections numbering
  if subsections = [] then pure []
  else pure [⟨nameSectionName, subsections.flatMap nameSubsection⟩]

/-- The module as its sections give it. Bodies come first, because they may ask for further types.
-/
def toModule (p : Program) : Except Failure Module := do
  let numbering := p.numbering
  let (bodies, extra) ← (p.definedFuncs.mapM (p.emitFunction numbering)).run []
  let types := (p.types ++ extra.map (Signature.mk [] [·])).map Signature.toWire
  let imports ← p.importsToWire
  let globals ← p.globals.zipIdx.mapM fun (g, i) => emitGlobal numbering i g
  let elements ← p.elements.zipIdx.mapM fun (e, i) => emitElement numbering i e
  let exports ← p.exportsToWire numbering
  let start ← p.startIndex numbering
  let names ← emitting "name section" (liftM (p.nameSection numbering))
  pure {
    types
    typeDefs := types.map fun t => .func (some t)
    imports
    funcs := bodies.map Prod.fst
    tables := (p.definedTables.filterMap (p.tables[·]?)).map tableToWire
    memories := p.memories
    tags := (p.definedTags.filterMap (p.tags[·]?)).map tagToWire
    globals
    exports
    start
    elements
    dataCount := p.dataCount
    code := bodies.map Prod.snd
    data := p.data
    customs := names ++ p.customs }

/-- The bytes of the module, which passes the structural check. -/
def emit (p : Program) : Except Failure Bytes := do
  let m ← p.toModule
  emitting "emitted module is invalid" m.validate
  m.encode

end Program

end HostCatch
