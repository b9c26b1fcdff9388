import HostCatch.Wire.Module.Codec

namespace HostCatch.Wire

/-- How many entities of each kind a module has, imported ones included. -/
structure Spaces where
  types : Nat
  funcs : Nat
  tables : Nat
  memories : Nat
  globals : Nat
  tags : Nat
  deriving DecidableEq

/-- How many entities of a kind there are, and what the kind is called. -/
def Spaces.ofKind? (s : Spaces) (kind : UInt8) : Option (Nat × String) :=
  if kind = EntityCode.func then some (s.funcs, "function")
  else if kind = EntityCode.table then some (s.tables, "table")
  else if kind = EntityCode.memory then some (s.memories, "memory")
  else if kind = EntityCode.global then some (s.globals, "global")
  else if kind = EntityCode.tag then some (s.tags, "tag")
  else none

/-- How many type indices a definition takes: a group takes one for each member. -/
def TypeDef.indices : TypeDef → Except Abort Nat
  | func _ => .ok 1
  | sub _ => .ok 1
  | group (some types) => .ok types.length
  | group none => .error .missing
  | other => .ok 0

namespace Module

def typeCount (m : Module) : Except Abort Nat :=
  if m.typeDefs = [] then .ok m.types.length
  else do
    let counts ← m.typeDefs.mapM TypeDef.indices
    pure (counts.foldr (· + ·) 0)

/-- How many imports are of a kind. -/
def imported (m : Module) (kind : UInt8) : Nat :=
  m.imports.countP (·.desc.kind = kind)

def spaces (m : Module) : Except Abort Spaces := do
  let types ← m.typeCount
  pure {
    types
    funcs := m.imported EntityCode.func + m.funcs.length
    tables := m.imported EntityCode.table + m.tables.length
    memories := m.imported EntityCode.memory + m.memories.length
    globals := m.imported EntityCode.global + m.globals.length
    tags := m.imported EntityCode.tag + m.tags.length }

/-- The function type at a type index among definitions. A subtype that is not there cannot be
passed. -/
def typeDefAt : List TypeDef → Nat → Except Abort (Option FuncType)
  | [], _ => .ok none
  | .func type :: _, 0 => .ok type
  | .func _ :: rest, n + 1 => typeDefAt rest n
  | .sub none :: _, _ => .error .missing
  | .sub (some type) :: _, 0 => .ok type.comp.funcType?
  | .sub (some _) :: rest, n + 1 => typeDefAt rest n
  | .group none :: _, _ => .error .missing
  | .group (some types) :: rest, n =>
    if n < types.length then .ok (types[n]?.bind (·.comp.funcType?))
    else typeDefAt rest (n - types.length)
  | .other :: rest, n => typeDefAt rest n

/-- The function type at a type index, if there is one. -/
def typeAt (m : Module) (n : Nat) : Except Abort (Option FuncType) :=
  if m.typeDefs = [] then .ok m.types[n]? else typeDefAt m.typeDefs n

/-- The type index of each function, imported functions first. -/
def funcTypeIndices (m : Module) : List UInt32 :=
  (m.imports.filterMap fun i => match i.desc with | .func type => some type | _ => none) ++ m.funcs

/-- The signature of a function, if it has one. -/
def signature? (m : Module) (func : Nat) : Except Abort (Option FuncType) :=
  match m.funcTypeIndices[func]? with
  | some type => m.typeAt type.toNat
  | none => .ok none

end Module

/-- The first violation among the entries of a list with their positions. -/
def firstViolation {α : Type} (check : Nat → α → Option Violation) (as : List α) :
    Option Violation :=
  as.zipIdx.findSome? fun (a, i) => check i a

def violationWhen (bad : Bool) (v : Violation) : Option Violation :=
  if bad then some v else none

namespace Module

def typeViolation (m : Module) (s : Spaces) : Option Violation :=
  firstViolation (fun i type => violationWhen (s.types ≤ type.toNat) (.functionType i type s.types))
    m.funcs <|>
  firstViolation (fun i (entry : Import) =>
    match entry.desc with
    | .func type =>
      violationWhen (s.types ≤ type.toNat) (.importType i entry.module entry.name type)
    | .tag (some tag) =>
      violationWhen (s.types ≤ tag.type.toNat) (.importTagType i entry.module entry.name tag.type)
    | _ => none) m.imports <|>
  firstViolation (fun i (tag : TagType) =>
    violationWhen (s.types ≤ tag.type.toNat) (.tagType i tag.type)) m.tags

def funcViolation (m : Module) (s : Spaces) : Option Violation :=
  (m.start.bind fun start =>
    violationWhen (s.funcs ≤ start.toNat) (.startRange start s.funcs)) <|>
  firstViolation (fun i (e : Element) =>
    firstViolation (fun j func =>
      violationWhen (s.funcs ≤ func.toNat) (.elementFunction i j func)) e.funcs) m.elements

/-- Active segments name a table or a memory of the module. -/
def segmentViolation (m : Module) (s : Spaces) : Option Violation :=
  firstViolation (fun i (e : Element) =>
    violationWhen (e.isActive && s.tables ≤ e.table.toNat) (.elementTable i e.table)) m.elements <|>
  firstViolation (fun i (d : DataSegment) =>
    violationWhen (d.flags ≠ 1 && s.memories ≤ d.mem.toNat) (.dataMemory i d.mem)) m.data

def exportViolation (m : Module) (s : Spaces) : Option Violation :=
  firstViolation (fun i (e : Export) =>
    violationWhen (e.name ∈ (m.exports.take i).map Export.name) (.duplicateExport e.name i) <|>
    (s.ofKind? e.kind).bind fun (bound, kind) =>
      violationWhen (bound ≤ e.index.toNat) (.exportRange i e.name kind e.index)) m.exports

/-- The start function takes and gives nothing. -/
def startViolation (m : Module) : Except Abort (Option Violation) :=
  match m.start with
  | none => .ok none
  | some start => do
    match ← m.signature? start.toNat with
    | none => pure (some (.startUntyped start))
    | some type =>
      pure (violationWhen (type.params ≠ [] || type.results ≠ [])
        (.startSignature type.params.length type.results.length))

def countViolation (m : Module) : Option Violation :=
  (m.dataCount.bind fun count =>
    violationWhen (count ≠ UInt32.ofNat m.data.length) (.dataCount count m.data.length)) <|>
  violationWhen (m.code ≠ [] && m.code.length ≠ m.funcs.length)
    (.codeCount m.code.length m.funcs.length)

/-- The most pages a memory may have. -/
def maxPages (l : Limits) : Nat :=
  if l.memory64 then 0x1000000000000 else 0x10000

def memoryViolation (what : String) (i : Nat) (l : Limits) : Option Violation :=
  violationWhen (l.shared && l.max.isNone) (.sharedUnbounded what i) <|>
  violationWhen (maxPages l < l.min.toNat) (.minPages what i l.min (maxPages l)) <|>
  l.max.bind fun max =>
    violationWhen (maxPages l < max.toNat) (.maxPages what i max (maxPages l))

def limitsViolation (m : Module) : Option Violation :=
  firstViolation (fun i (entry : Import) =>
    match entry.desc with
    | .memory (some l) => memoryViolation "imported memory" i l
    | _ => none) m.imports <|>
  firstViolation (memoryViolation "memory") m.memories

/-- The first structural rule that a module breaks. -/
def violation? (m : Module) : Except Abort (Option Violation) := do
  let s ← m.spaces
  let references := m.typeViolation s <|> m.funcViolation s <|> m.segmentViolation s
  match references <|> m.exportViolation s with
  | some v => pure (some v)
  | none =>
    match ← m.startViolation with
    | some v => pure (some v)
    | none => pure (m.countViolation <|> m.limitsViolation)

/-- A module passes, or the first rule that it breaks is reported. -/
def validate (m : Module) : Except Failure Unit := do
  match ← m.violation? with
  | some v => throw (.fault (.violation v))
  | none => pure ()

end Module

end HostCatch.Wire
