import HostCatch.Guard.Matcher
import HostCatch.Guard.Pass
import HostCatch.Program.ToModule

namespace HostCatch

/-- What to wrap and how. The texts name exports; an empty one stands for the usual name. -/
structure Config where
  matcher : Matcher
  table : String
  alloc : String
  signal : String
  strategy : Strategy

/-- The usual names of the exports that a handler needs. -/
def defaultTable : String := "__wbindgen_externrefs"
def defaultAlloc : String := "__externref_table_alloc"
def defaultSignal : String := "__wbindgen_exn_store"

namespace Config

def orDefault (name usual : String) : String :=
  if name = "" then usual else name

def tableName (c : Config) : String := orDefault c.table defaultTable

def allocName (c : Config) : String := orDefault c.alloc defaultAlloc

def signalName (c : Config) : String := orDefault c.signal defaultSignal

end Config

/-- An import and its wrapper, which may have been there before. -/
structure Wrapped where
  module : String
  name : String
  func : FuncId
  wrapper : FuncId
  existing : Bool
  deriving DecidableEq

structure Report where
  strategy : Strategy
  tag : Option TagId := none
  retargeted : Int := 0
  wrapped : List Wrapped := []
  deriving DecidableEq

namespace Program

/-- An adapter for each imported function, in order; those that the matcher accepts may throw. -/
def bind (p : Program) (matcher : Matcher) : Metadata × List Adapter :=
  let imported := p.imports.zipIdx.filterMap fun (i, entry) =>
    i.func?.map fun func => (i, entry, func)
  let adapters := imported.zipIdx.map fun ((_, entry, func), id) => (⟨entry, func, id⟩ : Adapter)
  let catching := imported.zipIdx.filterMap fun ((i, _, _), id) =>
    if matcher.accepts i.module i.name then some id else none
  ({ catching }, adapters)

/-- The strategy to use: the one asked for, or the one that the code already uses. -/
def chooseStrategy (p : Program) (asked : Strategy) : Except Failure Strategy := do
  if asked ≠ .none then pure asked
  else
    let found ← Strategy.detect p
    if found = .none then
      throw (.fault (configFault (utf8
        "module uses no exception handling instructions; select a strategy explicitly")))
    pure found

end Program

namespace Outcome

def wrapped (o : Outcome) (id : FuncId) : Wrapped :=
  let entry := o.program.importOf? id
  ⟨(entry.map Import.module).getD "", (entry.map Import.name).getD "", id,
    (o.wrappers.get? id).getD 0, o.reused.contains id⟩

def report (o : Outcome) (strategy : Strategy) : Report :=
  ⟨strategy, o.tag, o.retargeted, o.flagged.map o.wrapped⟩

end Outcome

/-- Wraps the imports that the configuration selects; `none` when it selects none. -/
def Program.transform (p : Program) (c : Config) : Except Failure (Option (Bytes × Report)) := do
  let (md, adapters) := p.bind c.matcher
  if md.flagged adapters = [] then pure none
  else
    let strategy ← p.chooseStrategy c.strategy
    let md := { md with
      table := p.exportedTable? c.tableName
      alloc := p.exportedFunction? c.allocName
      store := p.exportedFunction? c.signalName }
    let outcome ← p.guardImports (some md) adapters strategy
    let data ← outcome.program.emit
    pure (some (data, outcome.report strategy))

/-- Wraps the selected imports of a module. Data in which nothing is selected are given back as they
are. -/
def transform (data : Bytes) (c : Config) : Except Failure (Bytes × Report) := do
  let p ← Program.parse data
  match ← p.transform c with
  | some result => pure result
  | none => pure (data, { strategy := c.strategy })

end HostCatch
