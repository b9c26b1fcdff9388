import HostCatch.Proofs.Program.Indexing

namespace HostCatch

open List

/-- The index spaces whose entries have identifiers. -/
inductive Space where
  | func
  | table
  | tag
  deriving DecidableEq

def Import.named? : Space → Import → Option Nat
  | .func => Import.func?
  | .table => Import.table?
  | .tag => Import.tag?

namespace Numbering

def order (l : Numbering) : Space → List Nat
  | .func => l.funcs
  | .table => l.tables
  | .tag => l.tags

/-- An index stands for the entity at its place in the order. -/
def Denotes (order : List Nat) (index : UInt32) (id : Nat) : Prop :=
  order[index.toNat]? = some id

instance (order : List Nat) (index : UInt32) (id : Nat) : Decidable (Denotes order index id) :=
  inferInstanceAs (Decidable (_ = _))

/-- The numbers that entities have in code which named them by their positions. -/
def renumbering (l : Numbering) : Renumbering where
  call func := indexIn l.funcs func.toNat
  func func := indexIn l.funcs func.toNat
  table table := indexIn l.tables table.toNat
  tag tag := indexIn l.tags tag.toNat

theorem denotes_indexIn {order : List Nat} {n id : Nat} (h : order.Perm (List.range n))
    (hn : n ≤ 2 ^ 32) (hid : id < n) : Denotes order (indexIn order id) id := by
  have hmem : id ∈ order := h.mem_iff.mpr (mem_range.mpr hid)
  have hlength : order.length = n := by rw [h.length_eq, length_range]
  have hlt : order.idxOf id < 2 ^ 32 := by
    have := idxOf_lt_length_of_mem hmem
    omega
  rw [Denotes, indexIn, UInt32.toNat_ofNat_of_lt' hlt]
  exact getElem?_idxOf hmem

theorem denotes_index {order : List Nat} {n id : Nat} {i : UInt32} (h : order.Perm (List.range n))
    (hn : n ≤ 2 ^ 32) (hi : index order id = .ok i) : Denotes order i id := by
  unfold index at hi
  split at hi
  next hlt =>
    cases hi
    rw [h.length_eq, length_range] at hlt
    exact denotes_indexIn h hn hlt
  next => cases hi

end Numbering

namespace Program

open HostCatch.Numbering

def count (p : Program) : Space → Nat
  | .func => p.funcs.length
  | .table => p.tables.length
  | .tag => p.tags.length

/-- How many entities of a space are imported. -/
def importedCount (p : Program) (space : Space) : Nat :=
  (p.imports.filterMap (Import.named? space)).length

theorem Paired.order_perm {p : Program} (h : p.Paired) (space : Space) :
    (p.numbering.order space).Perm (List.range (p.count space)) := by
  cases space with
  | func =>
    rw [order, numbering_funcs]
    exact h.funcs.order_perm
  | table => exact h.tables.order_perm
  | tag => exact h.tags.order_perm

theorem Keeps.count_le {p q : Program} (h : p.Keeps q) (space : Space) :
    p.count space ≤ q.count space := by
  cases space with
  | func => exact h.funcs.length_le
  | table => exact h.tables.length_le
  | tag => exact h.tags.length_le

theorem LoweredTo.count_le {p : Program} {out : Wire.Module} (h : p.LoweredTo out) {n : Nat}
    (hn : out.Within n) (space : Space) : p.count space ≤ n := by
  cases space with
  | func =>
    obtain ⟨_, -, hlength, -⟩ := h.funcs
    have himports := length_filterMap_le Wire.Import.func? out.imports
    have hfuncs := hn.funcs
    simp only [Wire.Module.funcSpace, length_append, length_zipWith] at hlength
    simp only [count]
    omega
  | table =>
    have hlength := h.tables.1
    have himports := length_filterMap_le Wire.Import.table? out.imports
    have htables := hn.tables
    simp only [Wire.Module.tableSpace, length_append, length_map] at hlength
    simp only [count]
    omega
  | tag =>
    have hlength := h.tags.1
    have himports := length_filterMap_le Wire.Import.tag? out.imports
    have htags := hn.tags
    simp only [Wire.Module.tagSpace, length_append, length_map] at hlength
    simp only [count]
    omega

section Order

variable {α : Type} {select : α → Bool} {as bs : List α} {pick : Import → Option Nat}
  {imports imports' : List Import}

theorem positions_isPrefix (h : as <+: bs) : positions select as <+: positions select bs := by
  obtain ⟨rest, rfl⟩ := h
  induction rest using List.reverseRecOn with
  | nil => simp
  | append_singleton rest b ih =>
    rw [← append_assoc, positions_append_singleton]
    exact ih.trans (prefix_append _ _)

/-- Entities that are imported stay in their places when others follow, and the rest move by as many
places as imports are added. -/
theorem order_getElem?_of_isPrefix
    (horder : imports.filterMap pick ++ positions select as = List.range as.length)
    (has : as <+: bs) (himports : imports <+: imports') {id : Nat} (hid : id < as.length) :
    (imports'.filterMap pick ++ positions select bs)[if id < (imports.filterMap pick).length then id
      else id + ((imports'.filterMap pick).length - (imports.filterMap pick).length)]? = some id := by
  have hplace : (imports.filterMap pick ++ positions select as)[id]? = some id := by
    rw [horder, getElem?_range hid]
  obtain ⟨more, rfl⟩ := himports
  rw [filterMap_append, append_assoc]
  split
  next hlt =>
    rw [getElem?_append_left hlt] at hplace ⊢
    exact hplace
  next hle =>
    rw [Nat.not_lt] at hle
    rw [getElem?_append_right hle] at hplace
    have hmoved := getElem?_of_isPrefix (positions_isPrefix has) hplace
    rw [length_append, Nat.add_sub_cancel_left, getElem?_append_right (by omega),
      getElem?_append_right (by omega), ← hmoved]
    congr 1
    omega

end Order

variable {p q : Program}

theorem Ordered.order_range (h : p.Ordered) (space : Space) :
    p.numbering.order space = List.range (p.count space) := by
  rw [h.numbering]
  cases space <;> rfl

theorem Keeps.order_getElem? (h : p.Keeps q) (hp : p.Ordered) {space : Space} {id : Nat}
    (hid : id < p.count space) :
    (q.numbering.order space)[if id < p.importedCount space then id
      else id + (q.importedCount space - p.importedCount space)]? = some id := by
  have horder := hp.order_range space
  cases space with
  | func => exact order_getElem?_of_isPrefix horder h.funcs h.imports hid
  | table => exact order_getElem?_of_isPrefix horder h.tables h.imports hid
  | tag => exact order_getElem?_of_isPrefix horder h.tags h.imports hid

/-- A position of what was read still serves as an index exactly if it is the position of an import,
or no import has been added. -/
theorem Keeps.denotes_self_iff (h : p.Keeps q) (hp : p.Ordered) (hq : q.Paired) (space : Space)
    {i : UInt32} (hi : i.toNat < p.count space) :
    Denotes (q.numbering.order space) i i.toNat ↔
      q.importedCount space = p.importedCount space ∨ i.toNat < p.importedCount space := by
  have hplace := h.order_getElem? hp hi
  constructor
  · intro hself
    by_cases hlt : i.toNat < p.importedCount space
    · exact .inr hlt
    · rw [if_neg hlt] at hplace
      have hle : p.importedCount space ≤ q.importedCount space :=
        (h.imports.filterMap _).length_le
      have hnodup := (hq.order_perm space).nodup_iff.mpr nodup_range
      have heq := (getElem?_inj (lt_of_getElem? hself) hnodup).mp (hself.trans hplace.symm)
      exact .inl (by omega)
  · rintro (hsame | hlt)
    · rw [hsame, Nat.sub_self, Nat.add_zero, ite_self] at hplace
      exact hplace
    · rw [if_pos hlt] at hplace
      exact hplace

/-- Operations touch only the lists that identifiers point into. -/
theorem Adds.rest {new : List Binding} (h : p.Adds new q) :
    q = { p with
      types := q.types, funcs := q.funcs, tables := q.tables, tags := q.tags
      imports := q.imports, exports := q.exports, locals := q.locals } := by
  obtain ⟨rfl, -⟩ | hpushes := h.pushes
  · rfl
  · clear h
    induction hpushes with
    | nil => rfl
    | @cons _ b _ _ _ _ ih => cases b <;> exact ih

theorem Reaches.rest {start : Program} {issued : List Binding} (h : Reaches start issued p) :
    p = { start with
      types := p.types, funcs := p.funcs, tables := p.tables, tags := p.tags
      imports := p.imports, exports := p.exports, locals := p.locals } := by
  induction h with
  | start => rfl
  | add _ hadds ih => rw [hadds.rest, ih]

section Read

variable {m out : Wire.Module} {p q s r : Program} {tables : List Table} {exports : List Export}

/-- Operations leave the entities that code names, at new places. -/
theorem Keeps.follows (h : p.Keeps r) (hr : r.Paired) (func : FuncId) {b : Body}
    (hnodup : (b.params ++ b.locals).Nodup) :
    Emitting.Follows ⟨r.numbering, r.types, func, b, b.slots⟩
      (p.scope func (b.params ++ b.locals)) id r.numbering.renumbering := by
  have hlength : ∀ space id, id < p.count space → id < (r.numbering.order space).length := by
    intro space id hid
    rw [(hr.order_perm space).length_eq, length_range]
    exact Nat.lt_of_lt_of_le hid (h.count_le space)
  have hfunc : ∀ n id, (p.scope func (b.params ++ b.locals)).funcRef n = .ok id →
      Emitting.funcIndex ⟨r.numbering, r.types, func, b, b.slots⟩ id =
        .ok (indexIn r.numbering.funcs n.toNat) := by
    intro n id hid
    obtain ⟨rfl, hlt⟩ := Scope.check_eq_ok hid
    exact if_pos (hlength .func _ hlt)
  refine ⟨hfunc, hfunc, ?_, ?_, ?_⟩
  · intro n id hid
    obtain ⟨rfl, hlt⟩ := Scope.check_eq_ok hid
    exact if_pos (hlength .tag _ hlt)
  · intro n id hid
    obtain ⟨rfl, hlt⟩ := Scope.check_eq_ok hid
    exact if_pos (hlength .table _ hlt)
  · exact fun n var hvar => Emitting.slot_localRef (Body.slots_eq hnodup) hnodup hvar

end Read

end Program

end HostCatch
