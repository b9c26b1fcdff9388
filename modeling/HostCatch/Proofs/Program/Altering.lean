import HostCatch.Proofs.Program.Carrying
import HostCatch.Proofs.Program.Rebuilding

namespace HostCatch

open List

namespace Function

/-- A function that calls others. -/
def redirect (κ : FuncId → FuncId) (f : Function) : Function :=
  { f with kind :=
      match f.kind with
      | .defined b => .defined (b.redirect κ)
      | .imported entry => .imported entry }

theorem redirect_isImported (κ : FuncId → FuncId) (f : Function) :
    (f.redirect κ).isImported = f.isImported := by
  obtain ⟨name, type, kind⟩ := f
  cases kind <;> rfl

theorem import?_redirect (κ : FuncId → FuncId) (f : Function) :
    (f.redirect κ).import? = f.import? := by
  cases h : f.kind <;> simp [redirect, import?, h]

theorem kind_relink {f : Function} {b : Body} (h : f.kind = .defined b) (κ : FuncId → FuncId)
    (τ : TagId → TagId) : (f.relink κ τ).kind = .defined (b.relink κ τ) := by
  simp only [relink, h]

theorem import?_relink (κ : FuncId → FuncId) (τ : TagId → TagId) (f : Function) :
    (f.relink κ τ).import? = f.import? := by
  cases h : f.kind <;> simp [relink, import?, h]

theorem kind_of_not_isImported {f : Function} (h : f.isImported = false) :
    ∃ b, f.kind = .defined b := by
  obtain ⟨name, type, kind⟩ := f
  cases kind with
  | imported entry => cases h
  | defined b => exact ⟨b, rfl⟩

/-- A function before its body is read. -/
def bare (f : Function) : Function :=
  { f with kind := .defined {} }

theorem relink_of_bare {κ : FuncId → FuncId} {τ : TagId → TagId} {f : Function}
    (h : ∀ b, f.kind = .defined b → b = {}) : f.relink κ τ = f := by
  obtain ⟨name, type, kind⟩ := f
  cases kind with
  | imported entry => rfl
  | defined b =>
    cases h b rfl
    rfl

end Function

/-- A tag that is imported behind all other imports. -/
structure TagImport where
  module : String
  name : String
  type : TypeId

/-- The place of a tag once `n` further tags are imported, where `k` were before. -/
def shiftTag (k n tag : Nat) : Nat :=
  if tag < k then tag else tag + n

theorem shiftTag_lt {k n size tag : Nat} (h : tag < size) : shiftTag k n tag < size + n := by
  unfold shiftTag
  split <;> omega

theorem shiftTag_zero (k : Nat) : shiftTag k 0 = id := by
  funext tag
  simp [shiftTag]

theorem shiftTag_injective (k n : Nat) : Function.Injective (shiftTag k n) := by
  intro a b h
  unfold shiftTag at h
  split at h <;> split at h <;> omega

namespace Program

def withTag (p : Program) : Option TagImport → Program
  | none => p
  | some t => (p.importTag t.module t.name t.type).2

theorem withTag_eq (p : Program) (new : Option TagImport) : p.withTag new = { p with
    tags := p.tags ++ (new.map fun t => ⟨t.type, 0, some p.imports.length⟩).toList
    imports := p.imports ++ (new.map fun t => ⟨t.module, t.name, .tag p.tags.length⟩).toList } := by
  cases new <;> simp [withTag, importTag]

/-- A program with further types, variables and functions, and perhaps one more imported tag, in
which functions call others. -/
structure Altered (p p' : Program) (κ : FuncId → FuncId → FuncId) (new : Option TagImport)
    (types : List Signature) (more : List Function) : Prop where
  rest : p' = { p.withTag new with
    types := p.types ++ types
    locals := p'.locals
    funcs := p.funcs.mapIdx (fun id f => f.redirect (κ id)) ++ more }
  locals : p.locals <+: p'.locals
  callees : ∀ id func, func < p.funcs.length → κ id func < p.funcs.length + more.length
  known : ∀ t ∈ types, t.IsKnown
  defined : ∀ f ∈ more, f.isImported = false
  newType : ∀ t ∈ new, t.type < p.types.length + types.length

theorem mapIdx_fixed {α : Type} {g : α → α} (h : ∀ a, g a = a) (as : List α) :
    as.mapIdx (fun _ a => g a) = as :=
  ext_getElem? fun k => by simp [h]

theorem mapIdx_redirect_id : ∀ fs : List Function, fs.mapIdx (fun _ f => f.redirect id) = fs := by
  refine mapIdx_fixed ?_
  rintro ⟨name, type, kind⟩
  cases kind <;> simp [Function.redirect, Body.redirect, Seq.redirect_id]

theorem Altered.refl (p : Program) : p.Altered p (fun _ => id) none [] [] where
  rest := by simp [withTag, mapIdx_redirect_id]
  locals := prefix_rfl
  callees := fun _ _ h => h
  known := nofun
  defined := nofun
  newType := nofun

theorem positions_concat {α : Type} (select : α → Bool) (as : List α) (a : α) (h : select a = false) :
    positions select (as ++ [a]) = positions select as := by
  simp [positions, zipIdx_append, h]

/-- The order in which tags are written: `k` of `size` tags are imported, and one that is new stands
behind those. -/
def tagOrder (k size : Nat) : Option TagImport → List Nat
  | none => List.range size
  | some _ => List.range k ++ [size] ++ List.range' k (size - k)

theorem tagOrder_getElem? {k size tag : Nat} (hk : k ≤ size) (h : tag < size) (t : TagImport) :
    (tagOrder k size (some t))[shiftTag k 1 tag]? = some tag := by
  rw [tagOrder]
  unfold shiftTag
  split
  next hlt =>
    rw [append_assoc, getElem?_append_left (by simpa using hlt), getElem?_range hlt]
  next hge =>
    have hback : tag + 1 - (k + 1) = tag - k := by omega
    rw [getElem?_append_right (by simp; omega), length_append, length_range,
      length_singleton, hback, getElem?_range' (by omega), Nat.one_mul,
      Nat.add_sub_cancel' (Nat.le_of_not_lt hge)]

theorem tagOrder_length {k size : Nat} (hk : k ≤ size) (new : Option TagImport) :
    (tagOrder k size new).length = size + new.toList.length := by
  cases new with
  | none => simp [tagOrder]
  | some t =>
    simp only [tagOrder, length_append, length_range, length_singleton,
      length_range', Option.toList_some]
    omega

theorem tagOrder_nodup {k size : Nat} (hk : k ≤ size) (t : TagImport) :
    (tagOrder k size (some t)).Nodup := by
  refine nodup_append.mpr ⟨nodup_append.mpr ⟨nodup_range, nodup_singleton _, ?_⟩, nodup_range', ?_⟩
  · intro a ha b hb
    rw [mem_range] at ha
    rw [mem_singleton] at hb
    omega
  · intro a ha b hb
    rw [mem_append, mem_range, mem_singleton] at ha
    rw [mem_range'_1] at hb
    omega

namespace Altered

variable {p p' : Program} {κ : FuncId → FuncId → FuncId} {new : Option TagImport}
variable {types : List Signature} {more : List Function} (h : p.Altered p' κ new types more)

include h

theorem types_eq : p'.types = p.types ++ types := by
  rw [h.rest]

theorem funcs_eq : p'.funcs = p.funcs.mapIdx (fun id f => f.redirect (κ id)) ++ more := by
  rw [h.rest]

theorem funcs_kept {id : FuncId} {f : Function} (hf : p.funcs[id]? = some f) :
    p'.funcs[id]? = some (f.redirect (κ id)) := by
  rw [h.funcs_eq, getElem?_append_left (by simpa using lt_of_getElem? hf), getElem?_mapIdx, hf]
  rfl

theorem funcs_added (n : Nat) : p'.funcs[p.funcs.length + n]? = more[n]? := by
  rw [h.funcs_eq, getElem?_append_right (by simp), length_mapIdx, Nat.add_sub_cancel_left]

theorem funcs_length : p'.funcs.length = p.funcs.length + more.length := by
  rw [h.funcs_eq, length_append, length_mapIdx]

theorem imports_func? :
    p'.imports.filterMap Import.func? = p.imports.filterMap Import.func? := by
  rw [h.rest]
  cases new <;> simp [withTag, importTag, Import.func?]

theorem inOrder_funcs (hp : p.Ordered) :
    InOrder (p'.funcs.map Function.isImported) (p.imports.filterMap Import.func?) := by
  have hmore : more.map Function.isImported = List.replicate more.length false :=
    eq_replicate_iff.mpr ⟨by simp, by simpa using h.defined⟩
  have himported : p'.funcs.map Function.isImported =
      p.funcs.map Function.isImported ++ List.replicate more.length false := by
    rw [h.funcs_eq, map_append, hmore]
    refine congrArg (· ++ _) (ext_getElem? fun k => ?_)
    simp [Function.comp_def, Function.redirect_isImported]
  rw [himported]
  exact hp.funcs.append _

theorem numbering_funcs (hp : p.Ordered) : p'.numbering.funcs = List.range p'.funcs.length := by
  rw [Program.numbering, h.imports_func?]
  exact order_of_inOrder (h.inOrder_funcs hp)

theorem imports_eq : p'.imports = p.imports ++
    (new.map fun t => ⟨t.module, t.name, .tag p.tags.length⟩).toList := by
  rw [h.rest, withTag_eq]

theorem tags_eq : p'.tags = p.tags ++
    (new.map fun t => ⟨t.type, 0, some p.imports.length⟩).toList := by
  rw [h.rest, withTag_eq]

theorem tags_length : p'.tags.length = p.tags.length + new.toList.length := by
  rw [h.tags_eq]
  cases new <;> simp

theorem carried : p' = { p with
    types := p'.types, funcs := p'.funcs, tags := p'.tags, imports := p'.imports,
    locals := p'.locals } := by
  rw [h.rest, withTag_eq]

theorem tables_eq : p'.tables = p.tables := by
  rw [h.carried]

theorem numbering_tables (hp : p.Ordered) :
    p'.numbering.tables = List.range p.tables.length := by
  have himports : p'.imports.filterMap Import.table? = p.imports.filterMap Import.table? := by
    rw [h.rest]
    cases new <;> simp [withTag, importTag, Import.table?]
  have horder := order_of_inOrder hp.tables
  simp only [Option.not_isSome] at horder
  rw [Program.numbering, definedTables, himports, h.tables_eq, horder]

theorem numbering_tags (hp : p.Ordered) : p'.numbering.tags =
    tagOrder (p.imports.filterMap Import.tag?).length p.tags.length new := by
  cases new with
  | none =>
    have horder := order_of_inOrder hp.tags
    simp only [Option.not_isSome] at horder
    rw [tagOrder, ← horder, Program.numbering, definedTags, h.rest]
    rfl
  | some t =>
    have hdefined := positions_of_inOrder hp.tags
    simp only [Option.not_isSome] at hdefined
    rw [tagOrder, ← hp.tags.1, ← hdefined, Program.numbering, definedTags, h.rest]
    simp [withTag, importTag, Import.tag?, positions_concat]

/-- Imported tags keep their place, and the others move behind one that is new. -/
theorem numbering_tag (hp : p.Ordered) {tag : Nat} (htag : tag < p.tags.length) :
    p'.numbering.tag tag = .ok (UInt32.ofNat
      (shiftTag (p.imports.filterMap Import.tag?).length new.toList.length tag)) := by
  have hle : (p.imports.filterMap Import.tag?).length ≤ p.tags.length := by
    simpa using hp.tags.length_le
  rw [Numbering.tag, Numbering.index, h.numbering_tags hp, tagOrder_length hle,
    if_pos (Nat.lt_add_right _ htag)]
  cases new with
  | none =>
    rw [tagOrder, Numbering.indexIn_range htag]
    simp [shiftTag_zero]
  | some t =>
    rw [Numbering.indexIn_of_getElem? (tagOrder_nodup hle t) (tagOrder_getElem? hle htag t)]
    rfl

end Altered

section Emitted

variable {m out : Wire.Module} {p p' q s : Program} {tables : List Table} {exports : List Export}
variable {κ : FuncId → FuncId → FuncId} {new : Option TagImport} {types : List Signature}
variable {more : List Function} {bodies : List (UInt32 × Wire.FuncBody)} {extra : List ValType}
variable {names : List Wire.Custom}

/-- How tags are renumbered when one more may be imported. -/
def retagging (q : Program) (new : Option TagImport) : TagId → TagId :=
  shiftTag q.tags.length new.toList.length

theorem ReadFrom.importedTags (hr : ReadFrom m p q s tables exports) :
    (p.imports.filterMap Import.tag?).length = q.tags.length := by
  obtain ⟨types, -, himports⟩ := hr.assembles.imports
  have hall := himports.takes_allImported
  rw [hr.imports, hall.tags.length_of_all hall.tagsImported, length_map]

theorem ReadFrom.importedTables (hr : ReadFrom m p q s tables exports) :
    (p.imports.filterMap Import.table?).length = q.tables.length := by
  obtain ⟨types, -, himports⟩ := hr.assembles.imports
  have hall := himports.takes_allImported
  rw [hr.imports, hall.tables.length_of_all hall.tablesImported, length_map]

theorem ReadFrom.funcs_getElem? (hr : ReadFrom m p q s tables exports) {i : Nat} {f : Function}
    (hf : p.funcs[q.funcs.length + i]? = some f) : m.funcs[i]? = some (UInt32.ofNat f.type) := by
  have htypes := congrArg (·[q.funcs.length + i]?) hr.types_eq
  simp only [getElem?_map, hf, assembled, getElem?_append_right (Nat.le_add_right _ _),
    Nat.add_sub_cancel_left, Option.map_some, Option.map_map] at htypes
  obtain ⟨t, ht, hft⟩ := Option.map_eq_some_iff.mp htypes.symm
  have hft : t.toNat = f.type := hft
  rw [ht, ← hft, UInt32.ofNat_toNat]

/-- A function that was read is written as its code, with new numbers. -/
theorem Altered.emitFunction (ha : p.Altered p' κ new types more)
    (hr : ReadFrom m p q s tables exports)
    (hlocals : ∀ f ∈ p.funcs, ∀ b, f.kind = .defined b → b.locals.length < 2 ^ 32) {i : Nat}
    {code : Wire.FuncBody} (hcode : m.code[i]? = some code) {u v : List ValType}
    {out : UInt32 × Wire.FuncBody}
    (hout : (p'.emitFunction p'.numbering (q.funcs.length + i)).run u = .ok (out, v)) :
    v = u ∧ m.funcs[i]? = some out.1 ∧
      Recoded (.ofMaps (κ (q.funcs.length + i)) (q.retagging new)) code out.2 := by
  obtain ⟨start, declared, b, f, hf, hkind, hread, hvars⟩ := hr.body hcode
  have hf' := ha.funcs_kept hf
  have hkind' : (f.redirect (κ (q.funcs.length + i))).kind =
      .defined (b.redirect (κ (q.funcs.length + i))) := by
    simp [Function.redirect, hkind]
  obtain ⟨-, htype, hemit⟩ := emitFunction_eq_ok hf' hkind' hout
  have hnodup : (b.params ++ b.locals).Nodup := by
    rw [hread.vars]
    exact nodup_range'
  have hfollows : Emitting.Follows ⟨p'.numbering, p'.types, q.funcs.length + i,
      b.redirect (κ (q.funcs.length + i)), (b.redirect (κ (q.funcs.length + i))).slots⟩
      (p.scope (q.funcs.length + i) (b.params ++ b.locals)) (κ (q.funcs.length + i))
      (.ofMaps (κ (q.funcs.length + i)) (q.retagging new)) := by
    refine Emitting.follows_of_range (ha.numbering_funcs hr.ordered) ?_ ?_ (fun _ _ => rfl)
      (fun _ => rfl) (ha.numbering_tables hr.ordered) (fun _ => rfl) ?_ (Body.slots_eq hnodup) hnodup
    · rw [ha.funcs_length]
      exact Nat.le_add_right _ _
    · rw [ha.funcs_length]
      exact fun func hfunc => ha.callees _ func hfunc
    · intro tag htag
      rw [ha.numbering_tag hr.ordered htag, hr.importedTags]
      rfl
  obtain ⟨rfl, hrecoded⟩ := hread.recoded
    (fun j v hv => getElem?_of_isPrefix ha.locals (hvars j v hv)) rfl hfollows
    (hlocals f (mem_of_getElem? hf) b hkind) hemit
  refine ⟨rfl, ?_, hrecoded⟩
  rw [hr.funcs_getElem? hf]
  exact congrArg some htype.symm

/-- What is written for the functions with bodies: `old` for those that were read, and `added` for
those behind them. -/
structure Rewrites (m : Wire.Module) (p p' q : Program) (κ : FuncId → FuncId → FuncId)
    (new : Option TagImport) (more : List Function) (extra : List ValType)
    (old added : List (UInt32 × Wire.FuncBody)) : Prop where
  length : old.length = m.code.length
  types : old.map Prod.fst = m.funcs
  recoded : ∀ i code body, m.code[i]? = some code → old[i]? = some body →
    Recoded (.ofMaps (κ (q.funcs.length + i)) (q.retagging new)) code body.2
  more : ((List.range' p.funcs.length more.length).mapM (p'.emitFunction p'.numbering)).run [] =
    .ok (added, extra)

section Changed

variable (ha : p.Altered p' κ new types more)

include ha

/-- All functions are written so, and those that were added behind them. -/
theorem Altered.rewrites (hr : ReadFrom m p q s tables exports)
    (hlocals : ∀ f ∈ p.funcs, ∀ b, f.kind = .defined b → b.locals.length < 2 ^ 32)
    (he : p'.Emits out bodies extra names) :
    ∃ old added, bodies = old ++ added ∧ Rewrites m p p' q κ new more extra old added := by
  have hdefined : p'.definedFuncs = List.range' q.funcs.length m.code.length ++
      List.range' p.funcs.length more.length := by
    have hall := positions_of_inOrder (ha.inOrder_funcs hr.ordered)
    have hlength : p'.funcs.length - q.funcs.length = m.code.length + more.length := by
      rw [ha.funcs_length, hr.length]
      omega
    rw [hr.imported, hlength, ← range'_append, Nat.one_mul, ← hr.length] at hall
    exact hall
  have hrun := he.run
  rw [hdefined] at hrun
  obtain ⟨old, added, u, hold, hadded, rfl⟩ := run_mapM_append_eq_ok hrun
  have hcode : ∀ {func : Nat}, func ∈ List.range' q.funcs.length m.code.length →
      ∃ i code, func = q.funcs.length + i ∧ m.code[i]? = some code := by
    intro func hfunc
    obtain ⟨i, hi, rfl⟩ := mem_range'.mp hfunc
    exact ⟨i, m.code[i], by rw [Nat.one_mul], getElem?_eq_getElem hi⟩
  have hkept : u = [] := by
    refine run_mapM_state (fun func hfunc u body v hbody => ?_) hold
    obtain ⟨i, code, rfl, hi⟩ := hcode hfunc
    exact (ha.emitFunction hr hlocals hi hbody).1
  rw [hkept] at hadded
  have hall := run_mapM_eq_ok hold
  have hlength : old.length = m.code.length := by
    simpa using hall.length_eq.symm
  have hemit : ∀ i body, old[i]? = some body →
      ∃ u v, (p'.emitFunction p'.numbering (q.funcs.length + i)).run u = .ok (body, v) := by
    intro i body hbody
    obtain ⟨id, hid, hemit⟩ := forall₂_getElem? hall.flip hbody
    obtain ⟨hlt, hget⟩ := List.getElem?_eq_some_iff.mp hid
    rw [List.getElem_range', Nat.one_mul] at hget
    exact hget ▸ hemit
  refine ⟨old, added, rfl, hlength, ?_, fun i code body hi hbody => ?_, hadded⟩
  · refine ext_getElem? fun i => ?_
    rw [getElem?_map]
    cases hbody : old[i]? with
    | none =>
      rw [List.getElem?_eq_none_iff, hlength, ← hr.assembles.bodies] at hbody
      rw [Option.map_none, List.getElem?_eq_none hbody]
    | some body =>
      have hlt := lt_of_getElem? hbody
      obtain ⟨u, v, hrun⟩ := hemit i body hbody
      obtain ⟨-, htype, -⟩ := ha.emitFunction hr hlocals (getElem?_eq_getElem (hlength ▸ hlt)) hrun
      rw [htype, Option.map_some]
  · obtain ⟨u, v, hrun⟩ := hemit i body hbody
    exact (ha.emitFunction hr hlocals hi hrun).2.2

theorem Altered.definedTables (hr : ReadFrom m p q s tables exports) :
    p'.definedTables.filterMap (p'.tables[·]?) = tables := by
  have htables : p.tables = q.tables ++ tables := by
    rw [hr.parts]
    rfl
  have hdefined := positions_of_inOrder hr.ordered.tables
  simp only [Option.not_isSome] at hdefined
  have hlength : p.tables.length - q.tables.length = tables.length := by
    rw [htables, length_append, Nat.add_sub_cancel_left]
  rw [hr.importedTables, hlength] at hdefined
  rw [Program.definedTables, ha.tables_eq, hdefined, filterMap_range' _ (by simp [htables]), htables,
    drop_left, take_length]

theorem Altered.definedTags (hr : ReadFrom m p q s tables exports) :
    (p'.definedTags.filterMap (p'.tags[·]?)).map tagToWire = m.tags := by
  have htags : p.tags = q.tags ++ m.tags.map tagged := by
    rw [hr.parts]
    rfl
  have hdefined := positions_of_inOrder hr.ordered.tags
  simp only [Option.not_isSome] at hdefined
  have hlength : p.tags.length - q.tags.length = m.tags.length := by
    rw [htags, length_append, length_map, Nat.add_sub_cancel_left]
  rw [hr.importedTags, hlength] at hdefined
  have hpositions : p'.definedTags = List.range' q.tags.length m.tags.length := by
    rw [Program.definedTags, ha.tags_eq, ← hdefined]
    cases new with
    | none => simp
    | some t => exact positions_concat _ _ _ rfl
  have hback : tagToWire ∘ tagged = id := by
    funext t
    simp [tagToWire, tagged]
  rw [hpositions, filterMap_range' _ (by simp [ha.tags_eq, htags]), ha.tags_eq, htags,
    append_assoc, drop_left, take_left' (length_map _), map_map, hback,
    map_id]

theorem Altered.retains (hr : ReadFrom m p q s tables exports) : Retains q p' where
  funcs := by
    intro id f hf
    have htypes := congrArg (·[id]?) hr.types_eq
    simp only [getElem?_map, assembled,
      getElem?_append_left (lt_of_getElem? hf), hf, Option.map_some] at htypes
    obtain ⟨g, hg, htype⟩ := Option.map_eq_some_iff.mp htypes
    exact ⟨g.redirect (κ id), ha.funcs_kept hg, htype⟩
  tables := by
    intro id t ht
    have htables : p.tables = q.tables ++ tables := by
      rw [hr.parts]
      rfl
    rw [ha.tables_eq, htables]
    exact getElem?_append_some _ ht
  tags := by
    intro id t ht
    have htags : p.tags = q.tags ++ m.tags.map tagged := by
      rw [hr.parts]
      rfl
    rw [ha.tags_eq, htags, append_assoc]
    exact getElem?_append_some _ ht

/-- The imports that are written can be read in place of those that were read, and of the tag that
is new. -/
theorem Altered.imports (hr : ReadFrom m p q s tables exports) (hm : m.Proper)
    {found : List Wire.Import} (hfound : p'.importsToWire = .ok found)
    (hsize : p'.types.length ≤ 2 ^ 32) (further : List Signature) :
    (∀ e ∈ found, e.desc.Proper) ∧
      Folds Takes { types := p'.types ++ further } found { q.withTag new with
        types := p'.types ++ further } := by
  rw [Program.importsToWire, ha.imports_eq, hr.imports, mapM_append] at hfound
  obtain ⟨old, hold, hfound⟩ := of_bind hfound
  obtain ⟨last, hlast, hfound⟩ := of_bind hfound
  cases hfound
  obtain ⟨hproper, hfolds⟩ := hr.signatures.2.takes_written hm.imports (ha.retains hr) rfl
    (mapM_eq_ok_iff.mp hold) (types ++ further)
  have htypes : q.types = p.types := by
    rw [hr.parts]
    rfl
  rw [htypes, ← append_assoc, ← ha.types_eq] at hfolds
  cases new with
  | none =>
    simp only [Option.map_none, Option.toList_none, mapM_nil, pure_eq_ok_iff] at hlast
    rw [← hlast, append_nil]
    exact ⟨hproper, hfolds⟩
  | some t =>
    have htag : p'.tags[p.tags.length]? = some ⟨t.type, 0, some p.imports.length⟩ := by
      rw [ha.tags_eq]
      simp
    have hnumber : (UInt32.ofNat t.type).toNat = t.type := by
      have := ha.newType t rfl
      rw [← length_append, ← ha.types_eq] at this
      exact Reader.toNat_ofNat_size (Nat.lt_of_lt_of_le this hsize)
    have hwritten : p'.importToWire ⟨t.module, t.name, .tag p.tags.length⟩ =
        .ok ⟨t.module, t.name, .tag (some ⟨0, UInt32.ofNat t.type⟩)⟩ := by
      simp [importToWire, htag, tagToWire]
    simp only [Option.map_some, Option.toList_some, mapM_cons, hwritten, mapM_nil] at hlast
    cases hlast
    refine ⟨fun e he => ?_, hfolds.append (.cons ?_ .nil)⟩
    · rcases mem_append.mp he with he | he
      · exact hproper e he
      · rw [mem_singleton.mp he]
        trivial
    · have htakes : Takes { q with types := p'.types ++ further }
          ⟨t.module, t.name, .tag (some ⟨0, UInt32.ofNat t.type⟩)⟩ _ := .tag
      rw [hnumber] at htakes
      exact htakes

theorem Altered.added {old added : List (UInt32 × Wire.FuncBody)}
    (hw : Rewrites m p p' q κ new more extra old added) :
    Forall₂ (fun f body => f.type < p'.types.length ∧ body.1 = UInt32.ofNat f.type ∧
      ∃ id b u v, p'.funcs[id]? = some f ∧ f.kind = .defined b ∧
        (p'.emitBody p'.numbering id b).run u = .ok (body.2, v)) more added := by
  have hall := run_mapM_eq_ok hw.more
  refine forall₂_iff_get.mpr ⟨by simpa using hall.length_eq, fun j hj hj' => ?_⟩
  obtain ⟨u, v, hrun⟩ := (forall₂_iff_get.mp hall).2 j (by simpa using hj) hj'
  have hf : p'.funcs[p.funcs.length + j]? = some (more.get ⟨j, hj⟩) :=
    (ha.funcs_added j).trans (getElem?_eq_getElem hj)
  obtain ⟨b, hkind⟩ := Function.kind_of_not_isImported (ha.defined _ (get_mem more ⟨j, hj⟩))
  simp only [get_eq_getElem, getElem_range', Nat.one_mul] at hrun
  obtain ⟨hlt, htype, hemit⟩ := emitFunction_eq_ok hf hkind hrun
  exact ⟨hlt, htype, _, b, u, v, hf, hkind, hemit⟩

end Changed

end Emitted

end Program

end HostCatch
