import HostCatch.Program.Basic
import HostCatch.Proofs.Program.Walk

namespace HostCatch

/-- A value type of one of the kinds that have a code. -/
def ValType.IsKnown (v : ValType) : Prop :=
  ∀ number, v ≠ .unknown number

namespace Program

/-- An import and the entity that it provides name each other. -/
structure Linked (p : Program) : Prop where
  func : ∀ (id : FuncId) f entry, p.funcs[id]? = some f → f.kind = .imported entry →
    ∃ i, p.imports[entry]? = some i ∧ i.target = .func id
  table : ∀ (id : TableId) t entry, p.tables[id]? = some t → t.entry = some entry →
    ∃ i, p.imports[entry]? = some i ∧ i.target = .table id
  tag : ∀ (id : TagId) t entry, p.tags[id]? = some t → t.entry = some entry →
    ∃ i, p.imports[entry]? = some i ∧ i.target = .tag id
  toFunc : ∀ (entry : ImportId) i id, p.imports[entry]? = some i → i.target = .func id →
    ∃ f, p.funcs[id]? = some f ∧ f.kind = .imported entry
  toTable : ∀ (entry : ImportId) i id, p.imports[entry]? = some i → i.target = .table id →
    ∃ t, p.tables[id]? = some t ∧ t.entry = some entry
  toTag : ∀ (entry : ImportId) i id, p.imports[entry]? = some i → i.target = .tag id →
    ∃ t, p.tags[id]? = some t ∧ t.entry = some entry

/-- The types of functions exist, imports are linked, value types are known, and bodies are trees.
-/
structure WellFormed (p : Program) : Prop where
  funcTypes : ∀ f ∈ p.funcs, f.type < p.types.length
  linked : p.Linked
  signatures : ∀ s ∈ p.types, ∀ v ∈ s.params ++ s.results, v.IsKnown
  locals : ∀ v ∈ p.locals, v.IsKnown
  bodies : ∀ f ∈ p.funcs, ∀ b, f.kind = .defined b → b.IsTree

end Program

end HostCatch
