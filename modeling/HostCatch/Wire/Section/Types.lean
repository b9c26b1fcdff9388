import HostCatch.Fault.Basic
import HostCatch.Wire.Module.Basic

namespace HostCatch

namespace Wire

/-- The first byte of each form of type definition. -/
def Form.func : UInt8 := 0x60
def Form.struct : UInt8 := 0x5F
def Form.array : UInt8 := 0x5E
def Form.sub : UInt8 := 0x50
def Form.subFinal : UInt8 := 0x4F
def Form.group : UInt8 := 0x4E

/-- The forms of type definitions other than plain function types. -/
def Form.isComposite (form : UInt8) : Bool :=
  form ∈ [Form.group, Form.sub, Form.subFinal, Form.struct, Form.array]

def Storage.i8 : UInt8 := 0x78
def Storage.i16 : UInt8 := 0x77

/-- The function types that a type definition holds, in order. -/
def Composite.funcType? : Composite → Option FuncType
  | func type => type
  | _ => none

def TypeDef.funcTypes : TypeDef → List FuncType
  | func type => type.toList
  | sub type => (type.bind (·.comp.funcType?)).toList
  | group types => (types.getD []).filterMap (·.comp.funcType?)
  | other => []

end Wire

namespace Reader

open Wire

/-- Passes over a list of value types. -/
def skipTypes : Reader Unit := do
  let n ← u32
  let _ ← times (do let code ← byte; let _ ← refAfter code; pure ()) n.toNat

/-- Passes over a function type. -/
def skipFuncType : Reader Unit := do
  skipTypes
  skipTypes

def funcType : Reader FuncType := do
  let params ← list extType
  let results ← list extType
  pure ⟨params.map ExtType.code, results.map ExtType.code, params, results⟩

def storage : Reader Storage := do
  let code ← byte
  if code = Storage.i8 || code = Storage.i16 then pure (.packed code)
  else
    match ← refAfter code with
    | some type => pure (.ref type)
    | none => pure (.val code)

def field : Reader Field := do
  let storage ← storage
  let mutable ← byte
  pure ⟨storage, mutable ≠ 0⟩

/-- The composite type of a given form; other forms are the given fault. -/
def compositeAfter (form : UInt8) (otherwise : ReadFault) : Reader Composite :=
  if form = Form.func then do
    let type ← funcType
    pure (.func (some type))
  else if form = Form.struct then do
    let fields ← list field
    pure (.struct (some fields))
  else if form = Form.array then do
    let element ← field
    pure (.array (some element))
  else throw otherwise

/-- A subtype after its first byte; a bare composite type is final and has no parents. -/
def subTypeAfter (form : UInt8) : Reader SubType :=
  if form = Form.sub || form = Form.subFinal then do
    let parents ← list u32
    let inner ← byte
    let comp ← compositeAfter inner (.compositeForm inner)
    pure ⟨form = Form.subFinal, parents, comp⟩
  else do
    let comp ← compositeAfter form (.subtypeForm form)
    pure ⟨true, [], comp⟩

def subType : Reader SubType := do
  let form ← byte
  subTypeAfter form

def plainType : Reader FuncType := do
  let form ← byte
  if form = Form.func then funcType else throw (.typeForm form)

def typeDef : Reader TypeDef := do
  let form ← byte
  if form = Form.func then do
    let type ← funcType
    pure (.func (some type))
  else if form = Form.group then do
    let types ← list subType
    pure (.group (some types))
  else if Form.isComposite form then do
    let type ← subTypeAfter form
    pure (.sub (some type))
  else throw (.typeForm form)

/-- Whether a definition other than a plain function type stands among the next `n`. -/
def anyComposite : Nat → Reader Bool
  | 0 => pure false
  | n + 1 => do
    let form ← byte
    if form = Form.func then do
      skipFuncType
      anyComposite n
    else if Form.isComposite form then pure true
    else throw (.typeForm form)

/-- The section is looked through first: only when it holds more than plain function types are the
definitions kept beside the function types. -/
def typeSection (m : Module) : Reader Module := do
  let n ← u32
  let here ← get
  let composite ← anyComposite n.toNat
  set here
  if composite then do
    let typeDefs ← times typeDef n.toNat
    pure { m with typeDefs, types := typeDefs.flatMap TypeDef.funcTypes }
  else do
    let types ← times plainType n.toNat
    pure { m with types }

end Reader

namespace Wire

/-- A function type in full where that is known. -/
def funcType (t : FuncType) : Bytes :=
  (if t.extParams = [] then list (fun code => [code]) t.params else list extType t.extParams) ++
  (if t.extResults = [] then list (fun code => [code]) t.results else list extType t.extResults)

def flag (b : Bool) : Bytes :=
  [if b then 1 else 0]

def storage : Storage → Bytes
  | .val code => [code]
  | .packed code => [code]
  | .ref type => refType type
  | .other => []

def field (f : Field) : Bytes :=
  storage f.storage ++ flag f.mutable

def composite : Composite → Except Abort Bytes
  | .func (some type) => .ok (Form.func :: funcType type)
  | .struct (some fields) => .ok (Form.struct :: list field fields)
  | .array (some element) => .ok (Form.array :: field element)
  | .other => .ok []
  | _ => .error .missing

/-- A final subtype without parents is written as its bare composite type. -/
def subType (t : SubType) : Except Abort Bytes := do
  let comp ← composite t.comp
  if t.parents = [] ∧ t.final then pure comp
  else pure ((if t.final then Form.subFinal else Form.sub) :: (list Leb128.u32 t.parents ++ comp))

def subTypes : List SubType → Except Abort Bytes
  | [] => .ok []
  | t :: ts => do
    let first ← subType t
    let rest ← subTypes ts
    pure (first ++ rest)

def typeDef : TypeDef → Except Abort Bytes
  | .func (some type) => .ok (Form.func :: funcType type)
  | .sub (some type) => subType type
  | .group (some types) => do
    let bytes ← subTypes types
    pure (Form.group :: (size types.length ++ bytes))
  | .other => .ok []
  | _ => .error .missing

def typeDefs : List TypeDef → Except Abort Bytes
  | [] => .ok []
  | t :: ts => do
    let first ← typeDef t
    let rest ← typeDefs ts
    pure (first ++ rest)

/-- A plain function type by the codes of its value types. -/
def plainType (t : FuncType) : Bytes :=
  Form.func :: (list (fun code => [code]) t.params ++ list (fun code => [code]) t.results)

/-- The payload of the type section: the definitions, or in their absence the plain function types.
-/
def typeSection (m : Module) : Except Abort Bytes :=
  if m.typeDefs = [] then .ok (list plainType m.types)
  else do
    let bytes ← typeDefs m.typeDefs
    pure (size m.typeDefs.length ++ bytes)

end Wire

end HostCatch
