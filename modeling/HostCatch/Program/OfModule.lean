import HostCatch.Program.OfBody
import HostCatch.Program.Names
import HostCatch.Wire.Module.Codec

namespace HostCatch

namespace Program

open Wire

/-- A diagnostic of invalid data with the fault that caused it. -/
def invalidBecause (phase : Phase) (detail : String) (cause : Fault) : Fault :=
  .caused { phase, kind := .invalidData, detail := utf8 detail } cause

def wrapping {α : Type} (detail : String) : Except Fault α → Except Fault α
  | .ok a => .ok a
  | .error cause => .error (invalidBecause .parse detail cause)

/-- Only plain function types are looked into. -/
def checkTypeDefs (defs : List TypeDef) : Except Fault Unit :=
  let plain : TypeDef → Bool
    | .func _ => true
    | _ => false
  match defs.findIdx? (!plain ·) with
  | some i => .error (.diagnosed {
      phase := .parse
      kind := .unsupported
      path := Diagnostic.numbered "type" i []
      detail := utf8 "GC type definitions are not supported" })
  | none => .ok ()

def signatureOf (i : Nat) (t : FuncType) : Except Fault Signature := do
  let params ← wrapping s!"type {i} params" (ValType.ofWire t.params t.extParams)
  let results ← wrapping s!"type {i} results" (ValType.ofWire t.results t.extResults)
  pure ⟨params, results⟩

/-- Each entry of a list with its position, in order, up to the first fault. -/
def mapNumbered {α β : Type} (f : Nat → α → Except Fault β) (as : List α) : Except Fault (List β) :=
  as.zipIdx.mapM fun (a, i) => f i a

def foldNumbered {α : Type} (f : Program → Nat → α → Except Fault Program) (p : Program)
    (as : List α) : Except Fault Program :=
  as.zipIdx.foldlM (fun p (a, i) => f p i a) p

def checkBound (path : List Bytes) (index bound : Nat) : Except Fault Nat :=
  if index < bound then .ok index
  else .error (.diagnosed (.outOfBounds .parse path index bound))

/-- The elements of a table are references. -/
def elemOf (t : TableType) : Except Fault RefType :=
  match t.ref with
  | some type => .ok type
  | none => do
    match ← ValType.ofCode t.elem with
    | .ref type => pure type
    | type => throw (.notReference type.text)

def takeImport (p : Program) (i : Nat) (entry : Wire.Import) : Except Fault Program := do
  let add (target : ImportTarget) : Program :=
    { p with imports := p.imports ++ [⟨entry.module, entry.name, target⟩] }
  let absent (what : String) : Fault :=
    .diagnosed (.invalidData .parse (Diagnostic.numbered "import" i [])
      s!"{what} import without {what} type")
  let id := p.imports.length
  match entry.desc with
  | .func type =>
    let type ← checkBound (Diagnostic.numbered "import" i ["type"]) type.toNat p.types.length
    pure { add (.func p.funcs.length) with funcs := p.funcs ++ [⟨[], type, .imported id⟩] }
  | .table none => throw (absent "table")
  | .table (some t) =>
    let elem ← wrapping s!"import {i}" (elemOf t)
    pure { add (.table p.tables.length) with
      tables := p.tables ++ [⟨elem, t.limits, t.init, some id⟩] }
  | .tag none => throw (absent "tag")
  | .tag (some t) =>
    pure { add (.tag p.tags.length) with tags := p.tags ++ [⟨t.type.toNat, t.attr, some id⟩] }
  | desc => pure (add (.carried desc))

def takeFunc (p : Program) (i : Nat) (type : UInt32) : Except Fault Program := do
  let type ← checkBound (Diagnostic.numbered "func" i ["type"]) type.toNat p.types.length
  pure { p with funcs := p.funcs ++ [⟨[], type, .defined {}⟩] }

def takeTable (p : Program) (i : Nat) (t : TableType) : Except Fault Program := do
  let elem ← wrapping s!"table {i}" (elemOf t)
  pure { p with tables := p.tables ++ [⟨elem, t.limits, t.init, none⟩] }

def takeTag (p : Program) (i : Nat) (t : TagType) : Except Fault Program := do
  let type ← checkBound (Diagnostic.numbered "tag" i ["type"]) t.type.toNat p.types.length
  pure { p with tags := p.tags ++ [⟨type, t.attr, none⟩] }

def takeExport (p : Program) (e : Wire.Export) : Except Fault Program := do
  let path := [utf8 "export", utf8 e.name]
  let target ←
    if e.kind = EntityCode.func then .func <$> checkBound path e.index.toNat p.funcs.length
    else if e.kind = EntityCode.table then .table <$> checkBound path e.index.toNat p.tables.length
    else if e.kind = EntityCode.tag then .tag <$> checkBound path e.index.toNat p.tags.length
    else pure (.other e.kind e.index)
  pure { p with exports := p.exports ++ [⟨e.name, target⟩] }

/-- Takes over the parts of a module that are kept as they are written. -/
def carry (p : Program) (m : Module) : Program :=
  { p with
    memories := m.memories
    globals := m.globals
    elements := m.elements
    data := m.data
    dataCount := m.dataCount }

/-- All of a module but the bodies of its functions, which are left empty. -/
def skeleton (m : Module) : Except Fault Program := do
  checkTypeDefs m.typeDefs
  let types ← mapNumbered signatureOf m.types
  let p ← foldNumbered takeImport { types } m.imports
  if m.funcs.length ≠ m.code.length then
    throw (.diagnosed (.invalidData .parse [utf8 "code"]
      s!"{m.funcs.length} function declarations but {m.code.length} bodies"))
  let p ← foldNumbered takeFunc p m.funcs
  let p ← foldNumbered takeTable p m.tables
  let p ← foldNumbered takeTag p m.tags
  let p := { p.carry m with start := m.start.map UInt32.toNat }
  let p ← m.exports.foldlM takeExport p
  pure (m.customs.foldl takeCustom p)

/-- The types of the local variables that a body declares. -/
def declaredTypes (scope : Scope) (entries : List LocalEntry) : Except Fault (List ValType) := do
  let groups ← entries.mapM fun e => do
    let type ← scope.restate (match e.ext with
      | some ext => ValType.ofExt ext
      | none => ValType.ofCode e.val)
    pure (List.replicate e.count.toNat type)
  pure groups.flatten

/-- Reads the body of a function. -/
def takeBody (p : Program) (func : FuncId) (code : FuncBody) : Except Fault Program := do
  let type := (p.funcs[func]?.map Function.type).getD 0
  let scope : Scope := ⟨func, [], p.types.length, p.funcs.length, p.tables.length, p.tags.length⟩
  let params := p.params type
  let declared ← declaredTypes scope code.locals
  let ids := List.range' p.locals.length (params.length + declared.length)
  let seqs ← Body.seqsOfCode { scope with locals := ids } type code.code
  let body : Body := ⟨ids.take params.length, ids.drop params.length, seqs, 0⟩
  pure ({ p with locals := p.locals ++ params ++ declared }.setBody func body)

/-- A module with all its bodies. The functions that have bodies follow the imported ones. -/
def ofModule (m : Module) : Except Fault Program := do
  let p ← skeleton m
  let first := p.funcs.length - m.code.length
  foldNumbered (fun p i code => p.takeBody (first + i) code) p m.code

/-- Whether a section of debug names of a module could not be read to its end. -/
def hasBrokenNames (m : Module) : Bool :=
  m.customs.any fun c => c.name = nameSectionName && !(NameScan.ofBytes c.data).complete

def parseModule (data : Bytes) : Except Fault Module :=
  match Module.decode data with
  | .ok m => .ok m
  | .error cause => .error (.caused (.parseFailed "module") (.read cause))

/-- The program that the bytes of a module spell. -/
def parse (data : Bytes) : Except Fault Program := do
  let m ← parseModule data
  ofModule m

end Program

end HostCatch
