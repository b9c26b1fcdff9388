import HostCatch.Guard.Wrapper

namespace HostCatch

abbrev AdapterId := Nat

/-- An adapter and the import that implements it. -/
structure Adapter where
  entry : ImportId
  func : FuncId
  id : AdapterId
  deriving DecidableEq

/-- Which adapters' calls may throw, the handles of the runtime as far as they are known, and the
tag of host exceptions once there is one. -/
structure Metadata where
  catching : List AdapterId := []
  table : Option TableId := none
  alloc : Option FuncId := none
  store : Option FuncId := none
  tag : Option TagId := none
  deriving DecidableEq

/-- What a pass did: the wrappers of the flagged imports, those of them that were there before, and
how many calls were retargeted. -/
structure Outcome where
  program : Program
  tag : Option TagId
  flagged : List FuncId
  wrappers : Targets
  reused : List FuncId
  retargeted : Nat

/-- The import that provides the tag of host exceptions. -/
def tagModule : String := "__wbindgen_placeholder__"
def tagName : String := "__wbindgen_jstag"

namespace Metadata

/-- The functions of the flagged adapters, each once and in ascending order. -/
def flagged (md : Metadata) (adapters : List Adapter) : List FuncId :=
  ((adapters.filter (·.id ∈ md.catching)).map Adapter.func).eraseDups.mergeSort

/-- What is missing among the handles. -/
def missing (md : Metadata) : List Fault :=
  let absent {α : Type} (handle : Option α) (name : String) : List Fault :=
    if handle.isNone then [.diagnosed (.missingHandle name)] else []
  absent md.table "externref table" ++ absent md.alloc "externref allocator" ++
    absent md.store "exception store"

end Metadata

namespace Program

def configFault (detail : Bytes) : Fault :=
  .diagnosed (.invalidInput .config detail)

/-- A flagged function is an import. -/
def flagFaults (p : Program) (id : FuncId) : List Fault :=
  match p.funcs[id]? with
  | none => [.diagnosed (.notFound .config "function" (toString id))]
  | some f =>
    if f.isImported then []
    else [configFault (utf8 s!"function {id} (" ++ f.name ++ utf8 ") is not an import")]

/-- The handles, once everything that a pass needs is there. All that is missing is reported
together. -/
def checkHandles (p : Program) (md : Metadata) (flagged : List FuncId) : Except Fault Handles := do
  Fault.joined (md.missing ++ flagged.flatMap p.flagFaults)
  pure ⟨md.table.getD 0, md.alloc.getD 0, md.store.getD 0⟩

/-- No flagged function gives a vector, which has no default. -/
def checkResults (p : Program) (id : FuncId) : Except Abort Unit :=
  match p.funcs[id]? with
  | none => .ok ()
  | some f =>
    if .v128 ∈ p.results f.type then
      .error (.unsupported (.unsupportedType .transform [p.baseName id f] ValType.v128.text))
    else .ok ()

def hostTagSignature : Signature := ⟨[.externRef], []⟩

/-- The tag of host exceptions that is already imported. -/
def existingTag (p : Program) : Except Fault (Option TagId) :=
  match p.imports.find? fun i => i.module = tagModule && i.name = tagName with
  | none => .ok none
  | some entry =>
    match entry.tag? with
    | none =>
      .error (configFault (utf8 s!"import {tagModule}.{tagName} exists but is not a tag"))
    | some tag =>
      if (p.tags[tag]?.bind (p.types[·.type]?)) = some hostTagSignature then .ok (some tag)
      else .error (configFault
        (utf8 s!"tag import {tagModule}.{tagName} does not have type (externref) -> ()"))

/-- The tag of host exceptions, which is imported when there is none. -/
def hostTag (p : Program) : Except Fault (TagId × Program) := do
  match ← p.existingTag with
  | some tag => pure (tag, p)
  | none =>
    let (type, p) := p.addType hostTagSignature
    let ((tag, _), p) := p.importTag tagModule tagName type
    pure (tag, p)

/-- Wraps each flagged import that has no wrapper among the existing ones, and gives the wrappers
of all. -/
def wrapAll (strategy : Strategy) (tag : TagId) (handles : Handles) (existing : Targets) :
    List FuncId → Program → Except Abort (Targets × Program)
  | [], p => .ok ([], p)
  | id :: rest, p =>
    match existing.get? id with
    | some wrapper => do
      let (targets, p) ← wrapAll strategy tag handles existing rest p
      pure ((id, wrapper) :: targets, p)
    | none =>
      match p.funcs[id]? with
      | none => .error .missing
      | some f => do
        let (wrapper, p) ← p.addWrapper strategy id f tag handles
        let (targets, p) ← wrapAll strategy tag handles existing rest p
        pure ((id, wrapper) :: targets, p)

/-- Wraps the imports of all flagged adapters and has their callers call the wrappers. Whatever is
wrong with the request shows before the program is changed. -/
def guardImports (p : Program) (md : Option Metadata) (adapters : List Adapter)
    (strategy : Strategy) : Except Failure Outcome := do
  match md with
  | none => throw (.fault (configFault (utf8 "nil metadata")))
  | some md =>
    let flagged := md.flagged adapters
    if flagged = [] then pure ⟨p, none, [], [], [], 0⟩
    else
      let handles ← p.checkHandles md flagged
      if strategy = .none then throw (.abort .noStrategy)
      flagged.forM fun id => (liftM (p.checkResults id) : Except Failure Unit)
      let (tag, p) ← p.hostTag
      let existing ← p.existingWrappers
      let (wrappers, p) ← wrapAll strategy tag handles existing flagged p
      let (retargeted, p) ← p.retargetCalls wrappers
      pure ⟨p, some tag, flagged, wrappers, flagged.filter (existing.get? · |>.isSome), retargeted⟩

end Program

end HostCatch
