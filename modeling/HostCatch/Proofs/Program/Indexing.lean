import HostCatch.Proofs.Program.Growing
import HostCatch.Proofs.Program.Shaping
import Mathlib.Data.List.Induction
import Mathlib.Data.Set.Function

namespace HostCatch

open List

namespace Program

variable {α : Type}

theorem positions_append_singleton (select : α → Bool) (as : List α) (a : α) :
    positions select (as ++ [a]) = positions select as ++ if select a then [as.length] else [] := by
  unfold positions
  rw [zipIdx_append, filterMap_append]
  split <;> simp_all

theorem positions_eq_filter (select : α → Bool) (as : List α) :
    positions select as = (List.range as.length).filter fun i => as[i]?.any select := by
  induction as using List.reverseRecOn with
  | nil => rfl
  | append_singleton as a ih =>
    rw [positions_append_singleton, ih, length_append, length_singleton, range_succ, filter_append]
    congr 1
    · refine filter_congr fun i hi => ?_
      rw [getElem?_append_left (mem_range.mp hi)]
    · simp [filter_singleton]

theorem mem_positions {select : α → Bool} {as : List α} {id : Nat} :
    id ∈ positions select as ↔ ∃ a, as[id]? = some a ∧ select a = true := by
  rw [positions_eq_filter, mem_filter, mem_range, Option.any_eq_true]
  constructor
  · exact fun h => h.2
  · rintro ⟨a, ha, hselect⟩
    exact ⟨lt_of_getElem? ha, a, ha, hselect⟩

theorem positions_nodup (select : α → Bool) (as : List α) : (positions select as).Nodup := by
  rw [positions_eq_filter]
  exact nodup_range.filter _

end Program

namespace Links

open Program

variable {α : Type} {g : α → Option ImportId} {as : List α} {pick : Import → Option Nat}
  {imports : List Import}

theorem picked_nodup (h : Links (as.map g) pick imports) : (imports.filterMap pick).Nodup := by
  refine pairwise_filterMap.mpr (pairwise_iff_getElem.mpr fun i j hi hj hlt => ?_)
  intro id hid id' hid' heq
  subst heq
  have hfirst := (h id i).mpr (by rw [getElem?_eq_getElem hi]; exact hid)
  have hsecond := (h id j).mpr (by rw [getElem?_eq_getElem hj]; exact hid')
  cases hfirst.symm.trans hsecond
  exact absurd hlt (Nat.lt_irrefl _)

/-- The order in which linked entities are written: the imported ones by import, then the others. -/
theorem order_perm (h : Links (as.map g) pick imports) :
    (imports.filterMap pick ++ positions (fun a => (g a).isNone) as).Perm (List.range as.length) := by
  refine (perm_ext_iff_of_nodup ?_ nodup_range).mpr fun id => ?_
  · refine nodup_append.mpr ⟨h.picked_nodup, positions_nodup _ _, ?_⟩
    rintro id hpicked _ hdefined rfl
    obtain ⟨i, hi, hid⟩ := mem_filterMap.mp hpicked
    obtain ⟨entry, hentry⟩ := getElem?_of_mem hi
    obtain ⟨a, ha, hg⟩ := h.entity hentry hid
    obtain ⟨a', ha', hnone⟩ := mem_positions.mp hdefined
    cases ha.symm.trans ha'
    simp [hg] at hnone
  · rw [mem_append, mem_range]
    constructor
    · rintro (hpicked | hdefined)
      · obtain ⟨i, hi, hid⟩ := mem_filterMap.mp hpicked
        obtain ⟨entry, hentry⟩ := getElem?_of_mem hi
        obtain ⟨a, ha, -⟩ := h.entity hentry hid
        exact lt_of_getElem? ha
      · obtain ⟨a, ha, -⟩ := mem_positions.mp hdefined
        exact lt_of_getElem? ha
    · intro hlt
      have ha := getElem?_eq_getElem hlt
      cases hg : g as[id] with
      | none => exact .inr (mem_positions.mpr ⟨_, ha, by rw [hg]; rfl⟩)
      | some entry =>
        obtain ⟨i, hi, hid⟩ := h.entry ha hg
        exact .inl (mem_filterMap.mpr ⟨i, mem_of_getElem? hi, hid⟩)

end Links

/-- An order gives each of `n` entities an index of its own below `n`, and this is what is written
for it as far as indices can be written. -/
structure Numbering.Numbers (order : List Nat) (n : Nat) : Prop where
  bijective : Set.BijOn (order.idxOf ·) (Set.Iio n) (Set.Iio n)
  written : n ≤ 2 ^ 32 → ∀ id < n, ∃ i, Numbering.index order id = .ok i ∧ i.toNat = order.idxOf id

theorem Numbering.Numbers.of_perm {order : List Nat} {n : Nat} (h : order.Perm (List.range n)) :
    Numbering.Numbers order n := by
  have hlength : order.length = n := by
    rw [h.length_eq, length_range]
  have hmem : ∀ {id}, id < n → id ∈ order := fun hid => h.mem_iff.mpr (mem_range.mpr hid)
  have hlt : ∀ {id}, id < n → order.idxOf id < n := by
    intro id hid
    rw [← hlength]
    exact idxOf_lt_length_of_mem (hmem hid)
  have hnodup : order.Nodup := h.nodup_iff.mpr nodup_range
  refine ⟨⟨fun id hid => hlt hid, fun id hid id' hid' heq => ?_, fun k hk => ?_⟩, fun hn id hid => ?_⟩
  · exact (idxOf_inj (hmem hid)).mp heq
  · have hk' : k < order.length := hlength ▸ hk
    refine ⟨order[k], ?_, hnodup.idxOf_getElem k hk'⟩
    exact mem_range.mp (h.mem_iff.mp (getElem_mem hk'))
  · refine ⟨_, if_pos (hlength ▸ hid), ?_⟩
    exact UInt32.toNat_ofNat_of_lt' (Nat.lt_of_lt_of_le (hlt hid) hn)

namespace Wire

/-- Where an entity of a module comes from: the import that provides it, or what defines it. -/
inductive Origin (α : Type) where
  | imported (module name : String)
  | defined (content : α)

namespace Import

def origin {α : Type} (i : Wire.Import) : Origin α :=
  .imported i.module i.name

def func? (i : Wire.Import) : Option (UInt32 × Origin FuncBody) :=
  match i.desc with
  | .func type => some (type, i.origin)
  | _ => none

def table? (i : Wire.Import) : Option (TableType × Origin Unit) :=
  match i.desc with
  | .table (some type) => some (type, i.origin)
  | _ => none

def tag? (i : Wire.Import) : Option (TagType × Origin Unit) :=
  match i.desc with
  | .tag (some type) => some (type, i.origin)
  | _ => none

end Import

namespace Module

/-- The functions of a module by index: those that are imported, then those that are defined. -/
def funcSpace (m : Module) : List (UInt32 × Origin FuncBody) :=
  m.imports.filterMap Import.func? ++ List.zipWith (fun type body => (type, .defined body)) m.funcs m.code

def tableSpace (m : Module) : List (TableType × Origin Unit) :=
  m.imports.filterMap Import.table? ++ m.tables.map fun type => (type, .defined ())

def tagSpace (m : Module) : List (TagType × Origin Unit) :=
  m.imports.filterMap Import.tag? ++ m.tags.map fun type => (type, .defined ())

end Module

end Wire

namespace Program

theorem emitBody_fits (p : Program) (numbering : Numbering) (id : FuncId) (b : Body) :
    Emit.Fits p.types [] (p.emitBody numbering id b) fun _ => True := by
  let w : Emitting := ⟨numbering, p.types, id, b, b.slots⟩
  have hcode : Emit.Fits w.types [] (w.code (b.seqs.length + 1) [b.entry] b.entry) _ :=
    Emitting.code_codes _ _ _
  exact Emit.Fits.lift_bind fun _ _ => hcode.bind fun _ => .liftAbort_bind fun _ _ =>
    .pure fun _ => trivial

theorem emitFunction_collects (p : Program) (numbering : Numbering) (id : FuncId) :
    Emit.Collects p.types (p.emitFunction numbering id) := by
  unfold emitFunction
  dsimp only
  split
  next =>
    intro u a v h
    cases h
  next =>
    refine Emit.Collects.bind ?_ fun _ => .pure _
    exact (p.emitBody_fits numbering id _).collects

theorem emitFunction_grows (p : Program) (numbering : Numbering) (id : FuncId) :
    Emit.Grows (p.emitFunction numbering id) :=
  (p.emitFunction_collects numbering id).grows

/-- Where what is written comes from: the import of the entity, or what it holds itself. -/
inductive Comes {α : Type} (p : Program) (Content : α → Prop) : Option ImportId → Wire.Origin α → Prop
  | imported {entry i} : p.imports[entry]? = some i →
      Comes p Content (some entry) (.imported i.module i.name)
  | defined {content} : Content content → Comes p Content none (.defined content)

/-- At the index that an order gives to an entity, a module has just this entity. -/
def Finds {α β γ : Type} (p : Program) (order : List Nat) (as : List α) (entry : α → Option ImportId)
    (Describes : α → β → Prop) (Content : Nat → α → γ → Prop) (space : List (β × Wire.Origin γ)) :
    Prop :=
  space.length = as.length ∧ ∀ id a, as[id]? = some a →
    ∃ value origin, space[order.idxOf id]? = some (value, origin) ∧ Describes a value ∧
      p.Comes (Content id a) (entry a) origin

theorem importToWire_eq_ok {p : Program} {i : Import} {w : Wire.Import}
    (h : p.importToWire i = .ok w) : ∃ desc, w = ⟨i.module, i.name, desc⟩ ∧
      match i.target with
      | .func id => ∃ f, p.funcs[id]? = some f ∧ desc = .func (UInt32.ofNat f.type)
      | .table id => ∃ t, p.tables[id]? = some t ∧ desc = .table (some (tableToWire t))
      | .tag id => ∃ t, p.tags[id]? = some t ∧ desc = .tag (some (tagToWire t))
      | .carried found => desc = found := by
  obtain ⟨module, name, target⟩ := i
  cases target with
  | func id =>
    simp only [importToWire] at h
    cases hf : p.funcs[id]? with
    | none =>
      rw [hf] at h
      cases h
    | some f =>
      rw [hf] at h
      cases h
      exact ⟨_, rfl, f, hf, rfl⟩
  | table id =>
    simp only [importToWire] at h
    cases ht : p.tables[id]? with
    | none =>
      rw [ht] at h
      cases h
    | some t =>
      rw [ht] at h
      cases h
      exact ⟨_, rfl, t, ht, rfl⟩
  | tag id =>
    simp only [importToWire] at h
    cases ht : p.tags[id]? with
    | none =>
      rw [ht] at h
      cases h
    | some t =>
      rw [ht] at h
      cases h
      exact ⟨_, rfl, t, ht, rfl⟩
  | carried desc =>
    cases h
    exact ⟨_, rfl, rfl⟩

/-- An import and what is written for it name the same entity, or both name none. -/
def Matches {α β γ : Type} (as : List α) (Describes : α → β → Prop) (i : Import)
    (named : Option Nat) (written : Option (β × Wire.Origin γ)) : Prop :=
  named = none ∧ written = none ∨ ∃ id a value, named = some id ∧ as[id]? = some a ∧
    Describes a value ∧ written = some (value, .imported i.module i.name)

section Spaces

variable {α β γ : Type} {p : Program} {as : List α} {g : α → Option ImportId}
  {pick : Import → Option Nat} {Describes : α → β → Prop} {Content : Nat → α → γ → Prop}
  {wires : List Wire.Import} {wirePick : Wire.Import → Option (β × Wire.Origin γ)}
  {defined : List (β × Wire.Origin γ)}

/-- Imports are written one by one, and the others follow: what is written at the index of an entity
is this entity. -/
theorem finds_of_links (hlinks : Links (as.map g) pick p.imports)
    (hwires : Forall₂ (fun i w => p.importToWire i = .ok w) p.imports wires)
    (himported : ∀ i ∈ p.imports, ∀ w, p.importToWire i = .ok w →
      Matches as Describes i (pick i) (wirePick w))
    (hdefined : Forall₂ (fun id e => ∃ a value content, as[id]? = some a ∧ g a = none ∧
      Describes a value ∧ Content id a content ∧ e = (value, .defined content))
      (positions (fun a => (g a).isNone) as) defined) :
    p.Finds (p.imports.filterMap pick ++ positions (fun a => (g a).isNone) as) as g Describes Content
      (wires.filterMap wirePick ++ defined) := by
  have hperm := hlinks.order_perm
  have hall : Forall₂ (fun id e => ∃ a, as[id]? = some a ∧ Describes a e.1 ∧
      p.Comes (Content id a) (g a) e.2)
      (p.imports.filterMap pick ++ positions (fun a => (g a).isNone) as)
      (wires.filterMap wirePick ++ defined) := by
    refine rel_append ?_ ?_
    · refine rel_filterMap ?_ ((forall₂_and_left _ _).mpr ⟨fun i hi => hi, hwires⟩)
      rintro i w ⟨hi, hw⟩
      obtain ⟨hnone, hnone'⟩ | ⟨id, a, value, hid, ha, hvalue, hwire⟩ := himported i hi w hw
      · rw [hnone, hnone']
        exact .none
      · obtain ⟨entry, hentry⟩ := getElem?_of_mem hi
        obtain ⟨a', ha', hlink⟩ := hlinks.entity hentry hid
        cases ha.symm.trans ha'
        rw [hid, hwire]
        exact .some ⟨a, ha, hvalue, hlink ▸ .imported hentry⟩
    · refine hdefined.imp ?_
      rintro id e ⟨a, value, content, ha, hnone, hvalue, hcontent, rfl⟩
      exact ⟨a, ha, hvalue, hnone ▸ .defined hcontent⟩
  constructor
  · rw [← hall.length_eq, hperm.length_eq, length_range]
  · intro id a ha
    have hmem := hperm.mem_iff.mpr (mem_range.mpr (lt_of_getElem? ha))
    obtain ⟨⟨value, origin⟩, he, a', ha', hvalue, hcomes⟩ :=
      forall₂_getElem? hall (getElem?_idxOf hmem)
    cases ha.symm.trans ha'
    exact ⟨value, origin, he, hvalue, hcomes⟩

theorem forall₂_filterMap_getElem? {ids : List Nat} (h : ∀ id ∈ ids, ∃ a, as[id]? = some a) :
    Forall₂ (fun id a => as[id]? = some a) ids (ids.filterMap (as[·]?)) := by
  induction ids with
  | nil => exact .nil
  | cons id ids ih =>
    obtain ⟨a, ha⟩ := h id mem_cons_self
    rw [filterMap_cons_some ha]
    exact .cons ha (ih fun id' hid' => h id' (mem_cons_of_mem _ hid'))

theorem forall₂_described {write : α → β} (h : ∀ a, Describes a (write a)) :
    Forall₂ (fun id e => ∃ a value content, as[id]? = some a ∧ g a = none ∧
      Describes a value ∧ True ∧ e = (value, Wire.Origin.defined (content : Unit)))
      (positions (fun a => (g a).isNone) as)
      ((((positions (fun a => (g a).isNone) as).filterMap (as[·]?)).map write).map
        fun value => (value, .defined ())) := by
  rw [map_map, forall₂_map_right_iff]
  have hmem : ∀ id ∈ positions (fun a => (g a).isNone) as, ∃ a, as[id]? = some a ∧ g a = none := by
    intro id hid
    obtain ⟨a, ha, hnone⟩ := mem_positions.mp hid
    exact ⟨a, ha, Option.isNone_iff_eq_none.mp hnone⟩
  have hread := forall₂_filterMap_getElem? fun id hid => (hmem id hid).imp fun a ha => ha.1
  refine ((forall₂_and_left _ _).mpr ⟨hmem, hread⟩).imp ?_
  rintro id a ⟨⟨a', ha', hnone⟩, ha⟩
  cases ha.symm.trans ha'
  exact ⟨a, write a, (), ha, hnone, h a, trivial, rfl⟩

end Spaces

/-- A function type by its position. -/
def DescribesFunction (f : Function) (type : UInt32) : Prop :=
  type = UInt32.ofNat f.type

def DescribesTable (t : Table) (type : Wire.TableType) : Prop :=
  elemOf type = .ok t.elem ∧ type.limits = t.limits ∧ type.init = t.init

def DescribesTag (t : Tag) (type : Wire.TagType) : Prop :=
  type.attr = t.attr ∧ type.type = UInt32.ofNat t.type

/-- The code of a function in a module with further types: the types of the variables that its body
declares, in runs, and the instructions of its sequences, nested as these are. -/
structure WritesBody (p : Program) (extra : List ValType) (id : FuncId) (b : Body)
    (code : Wire.FuncBody) : Prop where
  vars : ∃ types, List.Forall₂ (fun var type => p.locals[var]? = some type) b.declared types ∧
    code.locals = (runs types).map localEntry
  instrs : ∃ ws, Wire.encodeInstrs (ws ++ [Emitting.close]) = .ok code.code ∧
    Emitting.Codes ⟨p.numbering, p.types, id, b, b.slots⟩ (p.typesWith extra) (b.seqs.length + 1)
      [b.entry] b.entry ws

theorem WritesBody.of_run {p : Program} {extra u v : List ValType} {id : FuncId} {b : Body}
    {code : Wire.FuncBody} (h : (p.emitBody p.numbering id b).run u = .ok (code, v))
    (hv : v <+: extra) : p.WritesBody extra id b code := by
  obtain ⟨types, ws, htypes, hws, hencode, hlocals⟩ := emitBody_eq_ok h
  refine ⟨⟨types, (mapM_eq_ok_iff.mp htypes).imp fun var type htype => ?_, hlocals⟩,
    ws, hencode, Emitting.codes_of_run hws hv⟩
  split at htype
  next found hvar =>
    cases htype
    exact hvar
  next => cases htype

/-- A module holds the functions, tables and tags of a program at their indices. -/
structure LoweredTo (p : Program) (out : Wire.Module) : Prop where
  funcs : ∃ extra, out.types = (p.types ++ extra.map (Signature.mk [] [·])).map Signature.toWire ∧
    p.Finds p.numbering.funcs p.funcs Function.import? DescribesFunction
      (fun id f code => ∃ b, f.kind = .defined b ∧ p.WritesBody extra id b code) out.funcSpace
  tables : p.Finds p.numbering.tables p.tables Table.entry DescribesTable (fun _ _ _ => True)
    out.tableSpace
  tags : p.Finds p.numbering.tags p.tags Tag.entry DescribesTag (fun _ _ _ => True) out.tagSpace

section Lowered

variable {p : Program} {out : Wire.Module} {bodies : List (UInt32 × Wire.FuncBody)}
  {extra : List ValType} {names : List Wire.Custom}

theorem definedFuncs_eq (p : Program) :
    p.definedFuncs = positions (fun f => f.import?.isNone) p.funcs := by
  simp only [definedFuncs, Function.isImported, Option.not_isSome]

theorem numbering_funcs (p : Program) : p.numbering.funcs =
    p.imports.filterMap Import.func? ++ positions (fun f => f.import?.isNone) p.funcs := by
  rw [← definedFuncs_eq]
  rfl

/-- Every function with a body is written with its type and its code. -/
theorem Emits.functions (h : p.Emits out bodies extra names) :
    Forall₂ (fun id body => ∃ f b, p.funcs[id]? = some f ∧ f.kind = .defined b ∧
      f.type < p.types.length ∧ DescribesFunction f body.1 ∧ p.WritesBody extra id b body.2)
      p.definedFuncs bodies := by
  have hrun := (run_mapM_grows (fun id _ => p.emitFunction_grows p.numbering id) h.run).2
  refine ((forall₂_and_left _ _).mpr ⟨fun id hid => hid, hrun⟩).imp ?_
  rintro id body ⟨hid, u, v, hbody, hv⟩
  obtain ⟨f, hf, hnone⟩ := mem_positions.mp hid
  obtain ⟨b, hb⟩ := Function.kind_of_not_isImported (by simpa using hnone)
  obtain ⟨hlt, htype, hemit⟩ := emitFunction_eq_ok hf hb hbody
  exact ⟨f, b, hf, hb, hlt, htype, .of_run hemit hv⟩

theorem Emits.bodies_written (h : p.Emits out bodies extra names) :
    Forall₂ (fun id e => ∃ f type code, p.funcs[id]? = some f ∧ f.import? = none ∧
      DescribesFunction f type ∧ (∃ b, f.kind = .defined b ∧ p.WritesBody extra id b code) ∧
      e = (type, Wire.Origin.defined code))
      (positions (fun f => f.import?.isNone) p.funcs)
      (List.zipWith (fun type body => (type, .defined body)) out.funcs out.code) := by
  have hzip : List.zipWith (fun type body => (type, Wire.Origin.defined body)) out.funcs out.code =
      bodies.map fun body => (body.1, .defined body.2) := by
    rw [h.funcs, h.code, zipWith_map, zipWith_self]
  rw [hzip, forall₂_map_right_iff, ← definedFuncs_eq]
  refine h.functions.imp ?_
  rintro id body ⟨f, b, hf, hb, -, htype, hbody⟩
  exact ⟨f, body.1, body.2, hf, by simp [Function.import?, hb], htype, ⟨b, hb, hbody⟩, rfl⟩

theorem Emits.extra_known (h : p.Emits out bodies extra names) : ∀ v ∈ extra, v.IsKnown := by
  obtain ⟨added, rfl, hadded⟩ :=
    (run_mapM_grows (fun id _ => p.emitFunction_grows p.numbering id) h.run).1
  rintro v hv number rfl
  cases hadded _ hv

/-- An import describes what it provides. -/
theorem importToWire_matches (hothers : p.CarriesOthers) {i : Import} (hi : i ∈ p.imports)
    {w : Wire.Import} (hw : p.importToWire i = .ok w) :
    Matches p.funcs DescribesFunction i i.func? w.func? ∧
      Matches p.tables DescribesTable i i.table? w.table? ∧
      Matches p.tags DescribesTag i i.tag? w.tag? := by
  obtain ⟨desc, rfl, hdesc⟩ := importToWire_eq_ok hw
  have hcarried := hothers i hi
  obtain ⟨module, name, target⟩ := i
  cases target with
  | func id =>
    obtain ⟨f, hf, rfl⟩ := hdesc
    exact ⟨.inr ⟨id, f, _, rfl, hf, rfl, rfl⟩, .inl ⟨rfl, rfl⟩, .inl ⟨rfl, rfl⟩⟩
  | table id =>
    obtain ⟨t, ht, rfl⟩ := hdesc
    exact ⟨.inl ⟨rfl, rfl⟩, .inr ⟨id, t, _, rfl, ht, ⟨elemOf_tableToWire t, rfl, rfl⟩, rfl⟩,
      .inl ⟨rfl, rfl⟩⟩
  | tag id =>
    obtain ⟨t, ht, rfl⟩ := hdesc
    exact ⟨.inl ⟨rfl, rfl⟩, .inl ⟨rfl, rfl⟩, .inr ⟨id, t, _, rfl, ht, ⟨rfl, rfl⟩, rfl⟩⟩
  | carried found =>
    obtain rfl : desc = found := hdesc
    have hkind := hcarried desc rfl
    cases desc with
    | memory | global | other => exact ⟨.inl ⟨rfl, rfl⟩, .inl ⟨rfl, rfl⟩, .inl ⟨rfl, rfl⟩⟩
    | func | table | tag => cases hkind

/-- What is written has the entities of the program at their indices. -/
theorem Emits.loweredTo (h : p.Emits out bodies extra names) (hp : p.Paired)
    (hothers : p.CarriesOthers) : p.LoweredTo out := by
  have hwires := mapM_eq_ok_iff.mp h.imports
  refine ⟨⟨extra, h.types, ?_⟩, ?_, ?_⟩
  · rw [numbering_funcs]
    exact finds_of_links hp.funcs hwires (fun i hi w hw => (importToWire_matches hothers hi hw).1)
      h.bodies_written
  · rw [Wire.Module.tableSpace, h.tables]
    exact finds_of_links hp.tables hwires
      (fun i hi w hw => (importToWire_matches hothers hi hw).2.1)
      (forall₂_described fun t => ⟨elemOf_tableToWire t, rfl, rfl⟩)
  · rw [Wire.Module.tagSpace, h.tags]
    exact finds_of_links hp.tags hwires (fun i hi w hw => (importToWire_matches hothers hi hw).2.2)
      (forall₂_described fun t => ⟨rfl, rfl⟩)

theorem Paired.numbers (hp : p.Paired) : Numbering.Numbers p.numbering.funcs p.funcs.length ∧
    Numbering.Numbers p.numbering.tables p.tables.length ∧
    Numbering.Numbers p.numbering.tags p.tags.length := by
  refine ⟨?_, .of_perm hp.tables.order_perm, .of_perm hp.tags.order_perm⟩
  rw [numbering_funcs]
  exact .of_perm hp.funcs.order_perm

end Lowered

/-- A function that throws. -/
def thrower : Body :=
  { seqs := [⟨.multi 0, [.throw 0]⟩] }

/-- A tag, a function that throws it and a table, each followed by an import of its kind. -/
def interleaved : Program where
  types := [⟨[], []⟩]
  funcs := [⟨[], 0, .defined thrower⟩, ⟨[], 0, .imported 1⟩]
  tables := [⟨⟨true, -17⟩, tableLimits 1 none, [], none⟩,
    ⟨⟨true, -16⟩, tableLimits 0 (some 9), [], some 2⟩]
  tags := [⟨0, 0, none⟩, ⟨0, 0, some 0⟩]
  imports := [⟨"m", "tag", .tag 1⟩, ⟨"m", "func", .func 1⟩, ⟨"m", "table", .table 1⟩]
  exports := [⟨"run", .func 0⟩]

theorem interleaved_reached : ∃ issued, Reaches {} issued interleaved := by
  have hnone : Reaches {} [] {} := .start
  have htype := hnone.add (.addType ⟨[], []⟩ rfl)
  have htag := (htype.add (.addTag 0 rfl)).add (.importTag "m" "tag" 0 rfl)
  have hfunc := (htag.add (.define [] 0 [] thrower rfl rfl)).add (.importFunction "m" "func" 0 rfl)
  have htable := (hfunc.add (.addTable ⟨true, -17⟩ 1 none rfl)).add
    (.importTable "m" "table" ⟨true, -16⟩ 0 (some 9) rfl)
  exact ⟨_, htable.add (.addExport "run" (.func 0) rfl)⟩

end Program

end HostCatch
