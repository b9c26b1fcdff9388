import HostCatch.Guard.Retarget
import HostCatch.Guard.Strategy
import HostCatch.Program.Builder

namespace HostCatch

/-- The zero of a value type: a constant, or the null of exactly that reference type. -/
def defaultValue : ValType → Except Abort Instr
  | .i32 => .ok (.const (.i32 0))
  | .i64 => .ok (.const (.i64 0))
  | .f32 => .ok (.const (.f32 0))
  | .f64 => .ok (.const (.f64 0))
  | .ref type => .ok (.refNull type)
  | type => .error (.unsupported (.unsupportedType .transform [] type.text))

/-- What a handler needs: the table that keeps the exception, the function that finds a slot in it,
and the function that is told the slot. -/
structure Handles where
  table : TableId
  alloc : FuncId
  store : FuncId
  deriving DecidableEq

/-- What a wrapper is made of. -/
structure Recipe where
  callee : FuncId
  params : List LocalId
  results : List ValType
  tag : TagId
  handles : Handles
  exn : LocalId
  slot : LocalId

namespace Recipe

/-- Keeps the exception, which is on the stack, and puts a default for each result there. -/
def handler (r : Recipe) (seq : SeqId) : Build Unit := do
  Build.emitAll seq [.localSet r.exn, .call r.handles.alloc, .localTee r.slot, .localGet r.exn,
    .tableSet r.handles.table, .localGet r.slot, .call r.handles.store]
  r.results.forM fun type => do Build.emit seq (← defaultValue type)

/-- Calls the import with the parameters of the wrapper. -/
def forward (r : Recipe) (seq : SeqId) : Build Unit :=
  Build.emitAll seq (r.params.map .localGet ++ [.call r.callee])

/-- A block whose label gets the exception from a `try_table`, and the handler behind it. -/
def modern (r : Recipe) (entry : SeqId) : Build Unit := do
  Build.block entry (.single .externRef) fun caught => do
    Build.tryTable caught .empty [⟨0x00, r.tag, caught⟩] fun inner => do
      r.forward inner
      Build.emit inner .ret
    Build.emit caught .unreachable
  r.handler entry

/-- A `try` that gives the results, with the handler in it. -/
def legacy (r : Recipe) (entry : SeqId) (handlerType : TypeId) (type : BlockType) : Build Unit := do
  let handler ← Build.newSeq (.multi handlerType)
  r.handler handler
  Build.tryCatch entry type [⟨some r.tag, handler⟩] r.forward

end Recipe

namespace Program

/-- What a wrapper's name ends in. -/
def wrapperSuffix : Bytes := utf8 " catch wrapper"

/-- The debug name of a function, or the name it is imported under. -/
def baseName (p : Program) (id : FuncId) (f : Function) : Bytes :=
  if f.name ≠ [] then f.name else ((p.importName? id).map utf8).getD []

def wrapperName (p : Program) (id : FuncId) (f : Function) : Bytes :=
  p.baseName id f ++ wrapperSuffix

/-- The import that an instruction of a function named `name` wraps: the one it calls, when the
name is that of its wrapper. -/
def wrappedBy? (p : Program) (name : Bytes) : Instr → Option FuncId
  | .call id => do
    let callee ← p.funcs[id]?
    if callee.isImported && p.wrapperName id callee = name then some id else none
  | _ => none

/-- The imports that a function wraps. -/
def wrappedImports (p : Program) (f : Function) : Except Abort (List FuncId) :=
  match f.body? with
  | none => .ok []
  | some body =>
    if wrapperSuffix.isSuffixOf f.name then do
      let visits ← body.walk
      pure (visits.filterMap fun v => p.wrappedBy? f.name v.instr)
    else .ok []

/-- The wrappers that are already there, known by their names and by what they call. -/
def existingWrappers (p : Program) : Except Abort Targets :=
  p.funcs.zipIdx.foldlM (fun (t : Targets) (f, id) => do
    let wrapped ← p.wrappedImports f
    pure (wrapped.foldl (fun t callee => t.insert callee id) t)) []

/-- The type of a block that takes nothing and gives the results. -/
def resultBlockType (p : Program) : List ValType → BlockType × Program
  | [] => (.empty, p)
  | [result] => (.single result, p)
  | results =>
    let (type, p) := p.addType ⟨[], results⟩
    (.multi type, p)

/-- The body of a wrapper. A legacy handler gets a type of its own, also when there is an equal
one. -/
def wrapperBody (p : Program) (strategy : Strategy) (type : TypeId) (r : Recipe) :
    Except Abort (Body × Program) :=
  let start := Body.start type
  match strategy with
  | .modern => do
    let (_, body) ← (r.modern start.entry).run start
    pure (body, p)
  | .legacy => do
    let (handlerType, p) := p.insertType ⟨[.externRef], r.results⟩
    let (type, p) := p.resultBlockType r.results
    let (_, body) ← (r.legacy start.entry handlerType type).run start
    pure (body, p)
  | other => .error (.unknownStrategy other.text)

/-- Adds a function with the type of an import that forwards to it and handles an exception with the
tag. -/
def addWrapper (p : Program) (strategy : Strategy) (id : FuncId) (f : Function) (tag : TagId)
    (handles : Handles) : Except Abort (FuncId × Program) :=
  match p.types[f.type]? with
  | none => .error .missing
  | some type => do
    let first := p.locals.length
    let arity := type.params.length
    let recipe : Recipe := {
      callee := id
      params := List.range' first arity
      results := type.results
      tag
      handles
      slot := first + arity
      exn := first + arity + 1 }
    let name := p.wrapperName id f
    let p := { p with locals := p.locals ++ type.params ++ [ValType.i32, ValType.externRef] }
    let (body, p) ← p.wrapperBody strategy f.type recipe
    p.define name f.type recipe.params body

end Program

end HostCatch
