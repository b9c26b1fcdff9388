import HostCatch.Proofs.Success
import HostCatch.Wire.Module.Valid
import Mathlib.Data.Option.Basic

namespace HostCatch

open List

namespace Wire

/-- What stands at each of the type indices that a definition takes: a function type, or another
type. -/
def TypeDef.members : TypeDef → List (Option FuncType)
  | func type => [type]
  | sub type => [type.bind (·.comp.funcType?)]
  | group types => (types.getD []).map (·.comp.funcType?)
  | other => []

/-- A subtype or group that is there. -/
def TypeDef.isPresent : TypeDef → Bool
  | sub type => type.isSome
  | group types => types.isSome
  | func _ | other => true

/-- The definitions whose indices begin at `n` or before are there. -/
def PresentTo (defs : List TypeDef) (n : Nat) : Prop :=
  ∀ before d after, defs = before ++ d :: after → (before.flatMap TypeDef.members).length ≤ n →
    d.isPresent = true

/-- The most pages of a memory whose addresses have 64 or 32 bits. -/
def Limits.pages (l : Limits) : Nat :=
  if l.memory64 then 1 <<< 48 else 1 <<< 16

/-- Limits that a memory may have. -/
structure Limits.FitMemory (l : Limits) : Prop where
  bounded : l.shared = true → l.max.isSome = true
  min : l.min.toNat ≤ l.pages
  max : ∀ max ∈ l.max, max.toNat ≤ l.pages

namespace Module

/-- The types by their indices, each a function type or another. -/
def flatTypes (m : Module) : List (Option FuncType) :=
  if m.typeDefs = [] then m.types.map some else m.typeDefs.flatMap TypeDef.members

/-- How many entities of a kind a module imports and defines, for each kind that there is. -/
def count? (m : Module) (kind : UInt8) : Option Nat :=
  ([(EntityCode.func, m.funcs.length), (EntityCode.table, m.tables.length),
    (EntityCode.memory, m.memories.length), (EntityCode.global, m.globals.length),
    (EntityCode.tag, m.tags.length)].lookup kind).map (m.imports.countP (·.desc.kind = kind) + ·)

/-- An index of an entity of a kind. -/
def Has (m : Module) (kind : UInt8) (index : UInt32) : Prop :=
  ∀ count ∈ m.count? kind, index.toNat < count

/-- A function's type, found by its index among the imported functions and then those defined. -/
def FuncTyped (m : Module) (func : UInt32) (type : FuncType) : Prop :=
  ∃ i : UInt32, m.funcTypeIndices[func.toNat]? = some i ∧
    m.flatTypes[i.toNat]? = some (some type)

/-- The rules on the structure of a module, but for the number of its bodies. -/
structure Structured (m : Module) : Prop where
  funcTypes : ∀ type ∈ m.funcs, type.toNat < m.flatTypes.length
  importTypes : ∀ i ∈ m.imports, ∀ type, i.desc = .func type → type.toNat < m.flatTypes.length
  importTagTypes : ∀ i ∈ m.imports, ∀ tag : TagType, i.desc = .tag (some tag) →
    tag.type.toNat < m.flatTypes.length
  tagTypes : ∀ tag ∈ m.tags, tag.type.toNat < m.flatTypes.length
  start : ∀ start ∈ m.start, m.Has EntityCode.func start
  elementFuncs : ∀ e ∈ m.elements, ∀ func ∈ e.funcs, m.Has EntityCode.func func
  elementTables : ∀ e ∈ m.elements, e.isActive = true → m.Has EntityCode.table e.table
  dataMemories : ∀ d ∈ m.data, d.flags ≠ 1 → m.Has EntityCode.memory d.mem
  exportNames : (m.exports.map Export.name).Nodup
  exports : ∀ e ∈ m.exports, m.Has e.kind e.index
  startType : ∀ start ∈ m.start, ∃ type, m.FuncTyped start type ∧ type.params = [] ∧ type.results = []
  dataCount : ∀ count ∈ m.dataCount, count = UInt32.ofNat m.data.length
  importedMemories : ∀ i ∈ m.imports, ∀ l, i.desc = .memory (some l) → l.FitMemory
  memories : ∀ l ∈ m.memories, l.FitMemory

/-- The definitions are there that have to be looked at: all groups, and those up to the type of the
start function. -/
structure Present (m : Module) : Prop where
  groups : ∀ d ∈ m.typeDefs, d ≠ .group none
  start : ∀ start ∈ m.start, ∀ i, m.funcTypeIndices[start.toNat]? = some i →
    PresentTo m.typeDefs i.toNat

end Module

theorem firstViolation_eq_none_iff {α : Type} {check : Nat → α → Option Violation} {as : List α} :
    firstViolation check as = none ↔ ∀ i a, as[i]? = some a → check i a = none := by
  simp only [firstViolation, findSome?_eq_none_iff, Prod.forall, mem_zipIdx_iff_getElem?]
  exact forall_comm

theorem firstViolation_eq_none_of {α : Type} {check : Nat → α → Option Violation} {as : List α}
    {P : α → Prop} (h : ∀ i a, check i a = none ↔ P a) :
    firstViolation check as = none ↔ ∀ a ∈ as, P a := by
  simp only [firstViolation_eq_none_iff, h, mem_iff_getElem?, forall_exists_index]
  exact forall_comm

theorem violationWhen_eq_none_iff {bad : Bool} {v : Violation} :
    violationWhen bad v = none ↔ bad = false := by
  cases bad <;> simp [violationWhen]

theorem not_le_iff_lt {n : Nat} {i : UInt32} : decide (n ≤ i.toNat) = false ↔ i.toNat < n := by
  simp

theorem TypeDef.indices_eq_ok_iff {d : TypeDef} {n : Nat} :
    d.indices = .ok n ↔ d ≠ .group none ∧ n = d.members.length := by
  unfold TypeDef.indices TypeDef.members
  cases d with
  | group types => cases types <;> simp [eq_comm]
  | _ => simp [eq_comm]

theorem presentTo_cons_iff {d : TypeDef} {defs : List TypeDef} {n : Nat} :
    PresentTo (d :: defs) n ↔ d.isPresent = true ∧
      (d.members.length ≤ n → PresentTo defs (n - d.members.length)) := by
  constructor
  · intro h
    refine ⟨h [] d defs rfl (Nat.zero_le n), fun hle before e after hdefs hlength => ?_⟩
    refine h (d :: before) e after (by rw [hdefs, cons_append]) ?_
    rw [flatMap_cons, length_append]
    omega
  · rintro ⟨hd, hrest⟩ before e after hdefs hlength
    cases before with
    | nil =>
      cases hdefs
      exact hd
    | cons first before =>
      obtain ⟨rfl, rfl⟩ := List.cons.inj hdefs
      rw [flatMap_cons, length_append] at hlength
      exact hrest (by omega) before e after rfl (by omega)

namespace Module

variable {m : Module} {n : Nat} {type : FuncType} {i : UInt32}

theorem typeCount_eq_ok_iff :
    m.typeCount = .ok n ↔ (∀ d ∈ m.typeDefs, d ≠ .group none) ∧ n = m.flatTypes.length := by
  unfold typeCount flatTypes
  split
  next hnone => simp [hnone, eq_comm]
  next =>
    have hcounts : ∀ {defs : List TypeDef} {counts : List Nat},
        Forall₂ (fun d n => d.indices = .ok n) defs counts →
          counts.foldr (· + ·) 0 = (defs.flatMap TypeDef.members).length := by
      intro defs counts h
      induction h with
      | nil => rfl
      | cons hd _ ih =>
        rw [foldr_cons, ih, (TypeDef.indices_eq_ok_iff.mp hd).2, flatMap_cons, length_append]
    simp only [bind_eq_ok_iff, mapM_eq_ok_iff, pure_eq_ok_iff]
    constructor
    · rintro ⟨counts, hall, rfl⟩
      refine ⟨fun d hd => ?_, hcounts hall⟩
      obtain ⟨_, -, hindices⟩ := forall₂_mem_left hall hd
      exact (TypeDef.indices_eq_ok_iff.mp hindices).1
    · rintro ⟨hgroups, rfl⟩
      obtain ⟨counts, hall⟩ := exists_forall₂ (R := fun (d : TypeDef) n => d.indices = .ok n)
        fun d hd => ⟨_, TypeDef.indices_eq_ok_iff.mpr ⟨hgroups d hd, rfl⟩⟩
      exact ⟨counts, hall, hcounts hall⟩

/-- Looking a type up among definitions counts indices as the flat list of types does. -/
theorem typeDefAt_eq_ok_iff {defs : List TypeDef} : typeDefAt defs n = .ok (some type) ↔
      (defs.flatMap TypeDef.members)[n]? = some (some type) ∧ PresentTo defs n := by
  induction defs generalizing n with
  | nil => simp [typeDefAt]
  | cons d defs ih =>
    rw [flatMap_cons, presentTo_cons_iff, getElem?_append]
    cases d with
    | func found => cases n <;> simp [typeDefAt, TypeDef.members, TypeDef.isPresent, ih]
    | sub found =>
      cases found with
      | none => simp [typeDefAt, TypeDef.isPresent]
      | some found => cases n <;> simp [typeDefAt, TypeDef.members, TypeDef.isPresent, ih]
    | group found =>
      cases found with
      | none => simp [typeDefAt, TypeDef.isPresent]
      | some found =>
        by_cases hlt : n < found.length
        · simp [typeDefAt, TypeDef.members, TypeDef.isPresent, hlt, Nat.not_le_of_lt hlt]
        · simp [typeDefAt, TypeDef.members, TypeDef.isPresent, hlt, ih, Nat.le_of_not_lt hlt]
    | other => simp [typeDefAt, TypeDef.members, TypeDef.isPresent, ih]

theorem typeAt_eq_ok_iff : m.typeAt n = .ok (some type) ↔
      m.flatTypes[n]? = some (some type) ∧ PresentTo m.typeDefs n := by
  unfold typeAt flatTypes
  split
  next hnone =>
    have hpresent : PresentTo m.typeDefs n := by
      intro before d after hdefs
      rw [hnone] at hdefs
      simp at hdefs
    simp [hpresent]
  next => exact typeDefAt_eq_ok_iff

/-- How many entities of each kind there are, with the types counted in the flat list. -/
def sizes (m : Module) : Spaces where
  types := m.flatTypes.length
  funcs := m.imported EntityCode.func + m.funcs.length
  tables := m.imported EntityCode.table + m.tables.length
  memories := m.imported EntityCode.memory + m.memories.length
  globals := m.imported EntityCode.global + m.globals.length
  tags := m.imported EntityCode.tag + m.tags.length

theorem spaces_eq_ok_iff {s : Spaces} :
    m.spaces = .ok s ↔ (∀ d ∈ m.typeDefs, d ≠ .group none) ∧ s = m.sizes := by
  simp only [spaces, bind_eq_ok_iff, typeCount_eq_ok_iff, pure_eq_ok_iff]
  constructor
  · rintro ⟨_, ⟨hgroups, rfl⟩, rfl⟩
    exact ⟨hgroups, rfl⟩
  · rintro ⟨hgroups, rfl⟩
    exact ⟨_, ⟨hgroups, rfl⟩, rfl⟩

theorem ofKind?_sizes (m : Module) (kind : UInt8) :
    (m.sizes.ofKind? kind).map Prod.fst = m.count? kind := by
  unfold Spaces.ofKind? count?
  by_cases hfunc : kind = EntityCode.func
  · subst hfunc
    rfl
  by_cases htable : kind = EntityCode.table
  · subst htable
    rfl
  by_cases hmemory : kind = EntityCode.memory
  · subst hmemory
    rfl
  by_cases hglobal : kind = EntityCode.global
  · subst hglobal
    rfl
  by_cases htag : kind = EntityCode.tag
  · subst htag
    rfl
  simp [hfunc, htable, hmemory, hglobal, htag, lookup_cons, beq_false_of_ne]

theorem has_iff {kind : UInt8} : m.Has kind i ↔ ∀ e ∈ m.sizes.ofKind? kind, i.toNat < e.1 := by
  simp [Has, ← ofKind?_sizes]

theorem has_func_iff : m.Has EntityCode.func i ↔ i.toNat < m.sizes.funcs := by
  simp [has_iff, Spaces.ofKind?]

theorem has_table_iff : m.Has EntityCode.table i ↔ i.toNat < m.sizes.tables := by
  have hfunc : EntityCode.table ≠ EntityCode.func := by decide
  simp [has_iff, Spaces.ofKind?, hfunc]

theorem has_memory_iff : m.Has EntityCode.memory i ↔ i.toNat < m.sizes.memories := by
  have hfunc : EntityCode.memory ≠ EntityCode.func := by decide
  have htable : EntityCode.memory ≠ EntityCode.table := by decide
  simp [has_iff, Spaces.ofKind?, hfunc, htable]

theorem typeViolation_eq_none_iff : m.typeViolation m.sizes = none ↔
    (∀ type ∈ m.funcs, type.toNat < m.sizes.types) ∧
      (∀ i ∈ m.imports, (∀ type, i.desc = .func type → type.toNat < m.sizes.types) ∧
        ∀ tag : TagType, i.desc = .tag (some tag) → tag.type.toNat < m.sizes.types) ∧
      ∀ tag ∈ m.tags, tag.type.toNat < m.sizes.types := by
  unfold typeViolation
  rw [Option.orElse_eq_none, Option.orElse_eq_none]
  refine and_congr (firstViolation_eq_none_of fun i type => ?_) (and_congr
    (firstViolation_eq_none_of fun i entry => ?_) (firstViolation_eq_none_of fun i tag => ?_))
  · rw [violationWhen_eq_none_iff, not_le_iff_lt]
  · obtain ⟨module, name, desc⟩ := entry
    cases desc with
    | func type => simp [violationWhen_eq_none_iff]
    | tag tag => cases tag <;> simp [violationWhen_eq_none_iff]
    | _ => simp
  · rw [violationWhen_eq_none_iff, not_le_iff_lt]

theorem funcViolation_eq_none_iff : m.funcViolation m.sizes = none ↔
    (∀ start ∈ m.start, m.Has EntityCode.func start) ∧
      ∀ e ∈ m.elements, ∀ func ∈ e.funcs, m.Has EntityCode.func func := by
  unfold funcViolation
  rw [Option.orElse_eq_none, Option.bind_eq_none_iff]
  refine and_congr (forall₂_congr fun start _ => ?_) (firstViolation_eq_none_of fun i e =>
    firstViolation_eq_none_of fun j func => ?_)
  · rw [violationWhen_eq_none_iff, not_le_iff_lt, has_func_iff]
  · rw [violationWhen_eq_none_iff, not_le_iff_lt, has_func_iff]

theorem segmentViolation_eq_none_iff : m.segmentViolation m.sizes = none ↔
    (∀ e ∈ m.elements, e.isActive = true → m.Has EntityCode.table e.table) ∧
      ∀ d ∈ m.data, d.flags ≠ 1 → m.Has EntityCode.memory d.mem := by
  unfold segmentViolation
  rw [Option.orElse_eq_none]
  refine and_congr (firstViolation_eq_none_of fun i e => ?_) (firstViolation_eq_none_of fun i d => ?_)
  · simp [violationWhen_eq_none_iff, has_table_iff]
  · simp [violationWhen_eq_none_iff, has_memory_iff]

theorem nodup_iff_forall_take {α : Type} {as : List α} :
    as.Nodup ↔ ∀ (i : Nat) a, as[i]? = some a → a ∉ as.take i := by
  rw [Nodup, pairwise_iff_getElem]
  simp only [mem_take_iff_getElem, getElem?_eq_some_iff]
  constructor
  · rintro hapart i a ⟨hi, rfl⟩ ⟨j, hj, heq⟩
    exact hapart j i (by omega) hi (by omega) heq
  · intro hnew i j hi hj hlt heq
    exact hnew j as[j] ⟨hj, rfl⟩ ⟨i, by omega, heq⟩

/-- Exports have different names and export what is there. -/
theorem exportViolation_eq_none_iff : m.exportViolation m.sizes = none ↔
    (m.exports.map Export.name).Nodup ∧ ∀ e ∈ m.exports, m.Has e.kind e.index := by
  have hrange : ∀ (e : Export) (i : Nat), ((m.sizes.ofKind? e.kind).bind fun entry =>
      violationWhen (entry.1 ≤ e.index.toNat) (.exportRange i e.name entry.2 e.index)) = none ↔
        m.Has e.kind e.index := by
    intro e i
    simp only [Option.bind_eq_none_iff, violationWhen_eq_none_iff, not_le_iff_lt, has_iff,
      Option.mem_def]
  have hnames : (m.exports.map Export.name).Nodup ↔ ∀ (i : Nat) e, m.exports[i]? = some e →
      e.name ∉ (m.exports.take i).map Export.name := by
    simp only [nodup_iff_forall_take, getElem?_map, map_take, Option.map_eq_some_iff,
      forall_exists_index, and_imp, forall_apply_eq_imp_iff₂]
  simp only [exportViolation, firstViolation_eq_none_iff, Option.orElse_eq_none, hrange, hnames,
    violationWhen_eq_none_iff, decide_eq_false_iff_not, mem_iff_getElem?, forall_exists_index]
  constructor
  · intro h
    exact ⟨fun i e he => (h i e he).1, fun e i he => (h i e he).2⟩
  · rintro ⟨hapart, hhas⟩ i e he
    exact ⟨hapart i e he, hhas e i he⟩

theorem startViolation_eq_ok_none_iff : m.startViolation = .ok none ↔
    ∀ start ∈ m.start, ∃ type, m.signature? start.toNat = .ok (some type) ∧ type.params = [] ∧
      type.results = [] := by
  unfold startViolation
  cases m.start with
  | none => simp
  | some start =>
    simp only [Option.mem_some_iff, forall_eq', bind_eq_ok_iff]
    constructor
    · rintro ⟨type, htype, h⟩
      cases type with
      | none => cases h
      | some type =>
        refine ⟨type, htype, ?_⟩
        simpa [violationWhen_eq_none_iff] using h
    · rintro ⟨type, htype, hparams, hresults⟩
      exact ⟨some type, htype, by simp [violationWhen, hparams, hresults]⟩

theorem signature?_eq_ok_iff {func : UInt32} :
    m.signature? func.toNat = .ok (some type) ↔ m.FuncTyped func type ∧
      ∀ i, m.funcTypeIndices[func.toNat]? = some i → PresentTo m.typeDefs i.toNat := by
  unfold signature? FuncTyped
  cases m.funcTypeIndices[func.toNat]? with
  | none => simp
  | some i => simp [typeAt_eq_ok_iff]

theorem countViolation_eq_none_iff : m.countViolation = none ↔
    (∀ count ∈ m.dataCount, count = UInt32.ofNat m.data.length) ∧
      (m.code = [] ∨ m.code.length = m.funcs.length) := by
  unfold countViolation
  rw [Option.orElse_eq_none, Option.bind_eq_none_iff]
  refine and_congr (forall₂_congr fun count _ => ?_) ?_
  · simp [violationWhen_eq_none_iff]
  · rw [violationWhen_eq_none_iff, Bool.and_eq_false_iff]
    simp

theorem memoryViolation_eq_none_iff {what : String} {i : Nat} {l : Limits} :
    memoryViolation what i l = none ↔ l.FitMemory := by
  have hpages : maxPages l = l.pages := rfl
  have hmax : (l.max.bind fun max => violationWhen (maxPages l < max.toNat)
      (.maxPages what i max (maxPages l))) = none ↔ ∀ max ∈ l.max, max.toNat ≤ l.pages := by
    simp [Option.bind_eq_none_iff, violationWhen_eq_none_iff, hpages]
  unfold memoryViolation
  rw [Option.orElse_eq_none, Option.orElse_eq_none, hmax, hpages]
  constructor
  · rintro ⟨hshared, hmin, hmax⟩
    exact ⟨by simpa [violationWhen_eq_none_iff] using hshared,
      by simpa [violationWhen_eq_none_iff] using hmin, hmax⟩
  · rintro ⟨hshared, hmin, hmax⟩
    exact ⟨by simpa [violationWhen_eq_none_iff] using hshared,
      by simpa [violationWhen_eq_none_iff] using hmin, hmax⟩

theorem limitsViolation_eq_none_iff : m.limitsViolation = none ↔
    (∀ i ∈ m.imports, ∀ l, i.desc = .memory (some l) → l.FitMemory) ∧
      ∀ l ∈ m.memories, l.FitMemory := by
  unfold limitsViolation
  rw [Option.orElse_eq_none]
  refine and_congr (firstViolation_eq_none_of fun i entry => ?_)
    (firstViolation_eq_none_of fun i l => memoryViolation_eq_none_iff)
  obtain ⟨module, name, desc⟩ := entry
  cases desc with
  | memory l => cases l <;> simp [memoryViolation_eq_none_iff]
  | _ => simp

/-- A module passes if it passes every check. -/
theorem violation?_eq_ok_none_iff : m.violation? = .ok none ↔
    (∀ d ∈ m.typeDefs, d ≠ .group none) ∧ m.typeViolation m.sizes = none ∧
      m.funcViolation m.sizes = none ∧ m.segmentViolation m.sizes = none ∧
      m.exportViolation m.sizes = none ∧ m.startViolation = .ok none ∧ m.countViolation = none ∧
      m.limitsViolation = none := by
  unfold violation?
  simp only [bind_eq_ok_iff, spaces_eq_ok_iff]
  constructor
  · rintro ⟨_, ⟨hgroups, rfl⟩, h⟩
    split at h
    next => cases h
    next hrefs =>
      simp only [Option.orElse_eq_none] at hrefs
      obtain ⟨found, hstart, h⟩ := of_bind h
      cases found with
      | some v => cases h
      | none =>
        rw [pure_eq_ok_iff, Option.orElse_eq_none] at h
        exact ⟨hgroups, hrefs.1.1, hrefs.1.2.1, hrefs.1.2.2, hrefs.2, hstart, h⟩
  · rintro ⟨hgroups, htypes, hfuncs, hsegments, hexports, hstart, hcounts, hlimits⟩
    exact ⟨_, ⟨hgroups, rfl⟩, by
      simp [htypes, hfuncs, hsegments, hexports, hstart, hcounts, hlimits]⟩

theorem validate_eq_ok : m.validate = .ok () ↔ m.violation? = .ok none := by
  unfold validate
  rw [bind_eq_ok_iff]
  constructor
  · rintro ⟨found, hfound, h⟩
    cases found with
    | none => exact liftM_abort_eq_ok_iff.mp hfound
    | some v => cases h
  · intro h
    exact ⟨none, liftM_abort_eq_ok_iff.mpr h, rfl⟩

/-- A module passes exactly if it keeps the rules, what has to be looked at is there, and its bodies,
if it has any, are as many as the functions that it declares. -/
theorem validate_eq_ok_iff (m : Module) : m.validate = .ok () ↔
    m.Structured ∧ m.Present ∧ (m.code = [] ∨ m.code.length = m.funcs.length) := by
  rw [validate_eq_ok, violation?_eq_ok_none_iff, typeViolation_eq_none_iff, funcViolation_eq_none_iff,
    segmentViolation_eq_none_iff, exportViolation_eq_none_iff, startViolation_eq_ok_none_iff,
    countViolation_eq_none_iff, limitsViolation_eq_none_iff]
  simp only [signature?_eq_ok_iff]
  constructor
  · rintro ⟨hgroups, ⟨hfuncs, himports, htags⟩, ⟨hstart, helements⟩, ⟨htables, hmemories⟩,
      ⟨hnames, hexports⟩, htyped, ⟨hdata, hcode⟩, himported, hlimits⟩
    refine ⟨?_, ⟨hgroups, fun start hmem => ?_⟩, hcode⟩
    · exact {
        funcTypes := hfuncs
        importTypes := fun i hi => (himports i hi).1
        importTagTypes := fun i hi => (himports i hi).2
        tagTypes := htags
        start := hstart
        elementFuncs := helements
        elementTables := htables
        dataMemories := hmemories
        exportNames := hnames
        exports := hexports
        startType := fun start hmem => (htyped start hmem).imp fun _ h => ⟨h.1.1, h.2⟩
        dataCount := hdata
        importedMemories := himported
        memories := hlimits }
    · obtain ⟨type, ⟨-, hpresent⟩, -⟩ := htyped start hmem
      exact hpresent
  · rintro ⟨h, hpresent, hcode⟩
    refine ⟨hpresent.groups, ⟨h.funcTypes, fun i hi => ⟨h.importTypes i hi, h.importTagTypes i hi⟩,
      h.tagTypes⟩, ⟨h.start, h.elementFuncs⟩, ⟨h.elementTables, h.dataMemories⟩,
      ⟨h.exportNames, h.exports⟩, fun start hmem => ?_, ⟨h.dataCount, hcode⟩, h.importedMemories,
      h.memories⟩
    obtain ⟨type, htyped, hnone⟩ := h.startType start hmem
    exact ⟨type, ⟨htyped, hpresent.start start hmem⟩, hnone⟩

/-- A module that declares a function and has no body for it. -/
def bodiless : Module where
  types := [⟨[], [], [], []⟩]
  funcs := [0]

/-- A module without bodies passes, however many functions it declares. -/
theorem bodiless_passes : bodiless.validate = .ok () ∧ bodiless.code.length ≠ bodiless.funcs.length :=
  ⟨rfl, by decide⟩

end Module

end Wire

end HostCatch
