import HostCatch.Proofs.Program.Legible
import HostCatch.Proofs.Program.Restoring
import HostCatch.Proofs.Program.RoundTrip
import HostCatch.Proofs.Wire.Structure

namespace HostCatch

open List

namespace Wire

/-- The numbers of limits can be told by the bytes they are written in. -/
def Limits.Fits (l : Limits) : Prop :=
  l.memory64 = true ∨ l.min.toNat < 2 ^ 32 ∧ ∀ max ∈ l.max, max.toNat < 2 ^ 32

theorem Limits.fits_iff {l : Limits} :
    l.Fits ↔ l.stored.min = l.min ∧ l.stored.max = l.max := by
  have hnarrow : ∀ n : UInt64, n.toUInt32.toUInt64 = n ↔ n.toNat < 2 ^ 32 := by
    intro n
    rw [← UInt64.toNat_inj, UInt32.toNat_toUInt64, UInt64.toNat_toUInt32]
    exact Nat.mod_eq_iff_lt (by decide)
  obtain ⟨min, max, shared, memory64⟩ := l
  cases memory64 <;> cases max <;>
    simp only [Fits, Limits.stored, Limits.held, Bool.false_eq_true, ↓reduceIte, Option.map_none,
      Option.map_some, Option.some.injEq, Option.mem_def, hnarrow, reduceCtorEq, false_or, true_or,
      and_self, and_true, forall_eq', IsEmpty.forall_iff, implies_true]

theorem Import.func?_stored (i : Wire.Import) : i.stored.func? = i.func? := by
  obtain ⟨module, name, desc⟩ := i
  cases desc <;> rfl

theorem Import.tag?_stored (i : Wire.Import) : i.stored.tag? = i.tag? := by
  obtain ⟨module, name, desc⟩ := i
  cases desc <;> rfl

namespace Module

variable {m n : Module} {w : Bytes}

theorem funcSpace_stored (m : Module) : m.stored.funcSpace = m.funcSpace := by
  simp only [funcSpace, stored, filterMap_map, Function.comp_def, Import.func?_stored]

theorem tagSpace_stored (m : Module) : m.stored.tagSpace = m.tagSpace := by
  simp only [tagSpace, stored, filterMap_map, Function.comp_def, Import.tag?_stored]

theorem forall_tableSpace {P : TableType → Prop} : (∀ e ∈ m.tableSpace, P e.1) ↔
    (∀ i ∈ m.imports, ∀ t, i.desc = .table (some t) → P t) ∧ ∀ t ∈ m.tables, P t := by
  have himports : (∀ e ∈ m.imports.filterMap Wire.Import.table?, P e.1) ↔
      ∀ i ∈ m.imports, ∀ t, i.desc = .table (some t) → P t := by
    constructor
    · intro h i hi t hdesc
      refine h (t, i.origin) (mem_filterMap.mpr ⟨i, hi, ?_⟩)
      rw [Import.table?, hdesc]
    · intro h e he
      obtain ⟨i, hi, hpick⟩ := mem_filterMap.mp he
      unfold Import.table? at hpick
      split at hpick
      next t hdesc =>
        cases hpick
        exact h i hi t hdesc
      next => cases hpick
  rw [tableSpace, forall_mem_append, himports, forall_mem_map]

theorem flatTypes_funcs (h : m.typeDefs = m.types.map fun t => .func (some t)) :
    m.flatTypes = m.types.map some := by
  unfold flatTypes
  split
  next => rfl
  next =>
    rw [h, flatMap_map]
    exact map_eq_flatMap.symm

theorem code_length_lt (h : m.typeDefs = m.types.map fun t => .func (some t)) (hw : m.encode = .ok w)
    (hlength : w.length < 2 ^ 32) : ∀ b ∈ m.code, b.code.length < 2 ^ 32 := by
  intro b hb
  have hbytes := congrArg List.length (Module.encode_eq_ok h hw)
  simp only [length_append] at hbytes
  have hfits := (Module.fits_of_length (m := m) (by omega)).code
  have hle := Reader.length_le_of_mem funcBody hb
  simp only [list, length_append] at hfits
  have hcode : b.code.length ≤ (funcBody b).length := by
    simp only [funcBody, length_append]
    omega
  omega

/-- Bytes that were written for a module are read again exactly if the limits of its tables, as they
are written, are in order. -/
theorem Sketched.decode_iff (h : m.Sketched) (hw : m.encode = .ok w) (hlength : w.length < 2 ^ 32) :
    (∃ n, Module.decode w = .ok n) ↔ ∀ e ∈ m.tableSpace, e.1.limits.stored.Proper := by
  rw [forall_tableSpace (P := fun t => t.limits.stored.Proper)]
  constructor
  · rintro ⟨n, hn⟩
    have hproper := Module.decode_proper hn
    rw [Module.decode_stored h hw hlength hn] at hproper
    refine ⟨fun i hi t hdesc => ?_, fun t ht => ?_⟩
    · have hi' := hproper.imports i.stored (mem_map_of_mem hi)
      rw [Import.stored, hdesc] at hi'
      exact TableType.Proper.limits hi'
    · exact (hproper.tables t.stored (mem_map_of_mem ht)).limits
  · rintro ⟨himports, htables⟩
    have hfull : ∀ {t : TableType}, t.Sketched → t.limits.stored.Proper → t.stored.Proper :=
      fun ht hlimits => ⟨ht.coded, ht.unmarked, hlimits, ht.init⟩
    have hcoded : m.stored.Coded := by
      refine ⟨⟨forall_mem_map.mpr fun i hi => ?_, forall_mem_map.mpr fun t ht => ?_,
        h.memories, h.globals, h.exports, forall_mem_map.mpr h.elements, h.data⟩,
        h.typeDefs, h.types, h.code⟩
      · obtain ⟨t, hdesc, ht⟩ | ⟨hsame, hproper⟩ := (h.imports i hi).cases
        · rw [Import.stored, hdesc]
          exact hfull ht (himports i hi t hdesc)
        · rw [Import.stored, hsame]
          exact hproper
      · exact hfull (h.tables t ht) (htables t ht)
    exact ⟨_, Module.decode_encode hcoded (Module.encode_stored hw) hlength⟩

end Module

/-- An import can be read where there are so many types. -/
def ImportDesc.Takeable (types : Nat) : ImportDesc → Prop
  | func type => type.toNat < types
  | table t => ∃ type elem, t = some type ∧ Program.elemOf type = .ok elem
  | tag t => ∃ type, t = some type
  | _ => True

end Wire

namespace Program

open Wire

section Accept

variable {p q u v : Program} {es : List Wire.Import}

theorem takes_exists {e : Wire.Import} (h : e.desc.Takeable u.types.length) : ∃ v, Takes u e v := by
  obtain ⟨module, name, desc⟩ := e
  cases desc with
  | func type => exact ⟨_, .func h⟩
  | table t =>
    obtain ⟨type, elem, rfl, helem⟩ := h
    exact ⟨_, .table helem⟩
  | tag t =>
    obtain ⟨type, rfl⟩ := h
    exact ⟨_, .tag⟩
  | memory => exact ⟨_, .memory⟩
  | global => exact ⟨_, .global⟩
  | other => exact ⟨_, .other⟩

theorem Takes.types_eq {e : Wire.Import} (h : Takes u e v) : v.types = u.types := by
  cases h <;> rfl

theorem folds_takes_exists (h : ∀ e ∈ es, e.desc.Takeable u.types.length) :
    ∃ v, Folds Takes u es v := by
  induction es generalizing u with
  | nil => exact ⟨u, .nil⟩
  | cons e es ih =>
    obtain ⟨he, hes⟩ := forall_mem_cons.mp h
    obtain ⟨v, hv⟩ := takes_exists he
    obtain ⟨w, hw⟩ := ih (hv.types_eq.symm ▸ hes)
    exact ⟨w, .cons hv hw⟩

theorem Renamed.readsBody_iff (h : Renamed p q) {func : FuncId} {start : Nat} {code : Wire.FuncBody}
    {declared : List ValType} {b : Body} :
    q.ReadsBody func start code declared b ↔ p.ReadsBody func start code declared b := by
  have hfuncs : q.funcs.map Function.type = p.funcs.map Function.type := by
    have hunnamed : Function.type = Function.type ∘ Function.unnamed := rfl
    rw [hunnamed, ← map_map, ← map_map, h.funcs]
  have htypes : q.types = p.types := by rw [h.rest]
  have htables : q.tables.length = p.tables.length := by rw [h.rest]
  have htags : q.tags.length = p.tags.length := by rw [h.rest]
  exact ⟨fun hread => hread.transfer htypes.symm hfuncs.symm htables.symm htags.symm,
    fun hread => hread.transfer htypes hfuncs htables htags⟩

theorem takeBodies_exists {first : Nat} {codes : List Wire.FuncBody}
    (h : ∀ i code, codes[i]? = some code → ∀ start, ∃ declared b,
      p.ReadsBody (first + i) start code declared b) :
    ∃ q, foldNumbered (fun p i code => p.takeBody (first + i) code) p codes = .ok q ∧ Bodied p q := by
  induction codes using List.reverseRecOn with
  | nil => exact ⟨p, rfl, ⟨rfl, rfl⟩⟩
  | append_singleton codes code ih =>
    obtain ⟨q, hq, hbodied⟩ := ih fun i found hfound =>
      h i found (by rw [getElem?_append_left (lt_of_getElem? hfound), hfound])
    obtain ⟨declared, b, hread⟩ := h codes.length code getElem?_concat_length q.locals.length
    have hbody : q.takeBody (first + codes.length) code = .ok
        ({ q with locals := q.locals ++ q.params (q.typeOf (first + codes.length)) ++ declared }.setBody
          (first + codes.length) b) :=
      takeBody_eq_ok_iff.mpr ⟨declared, b, hread.congr hbodied, rfl⟩
    rw [foldNumbered_append]
    exact ⟨_, bind_eq_ok_iff.mpr ⟨q, hq, bind_eq_ok_iff.mpr ⟨_, hbody, rfl⟩⟩, hbodied.setBody _ _ b⟩

/-- A module can be read if its bodies can. -/
theorem ofModule_exists {m : Wire.Module} {tables : List Table} {exports : List Export}
    (h : Assembles m q tables exports) (hbodies : ∀ i code, m.code[i]? = some code → ∀ start,
      ∃ declared b, (q.assembled m tables exports).ReadsBody (q.funcs.length + i) start code
        declared b) : ∃ p, ofModule m = .ok p := by
  set s := m.customs.foldl takeCustom (q.assembled m tables exports) with hs
  have hrenamed : Renamed (q.assembled m tables exports) s := foldl_renamed takeCustom_renamed _ _
  have hlength : s.funcs.length - m.code.length = q.funcs.length := by
    rw [hrenamed.length, ← h.bodies]
    simp [assembled]
  have hall : ∀ i code, m.code[i]? = some code → ∀ start, ∃ declared b,
      s.ReadsBody (q.funcs.length + i) start code declared b := by
    intro i code hcode start
    obtain ⟨declared, b, hread⟩ := hbodies i code hcode start
    exact ⟨declared, b, hrenamed.readsBody_iff.mpr hread⟩
  obtain ⟨p, hp, -⟩ := takeBodies_exists hall
  refine ⟨p, bind_eq_ok_iff.mpr ⟨s, skeleton_eq_ok_iff.mpr ⟨q, tables, exports, h, hs⟩, ?_⟩⟩
  rw [hlength]
  exact hp

end Accept

section Mirror

variable {p q u v : Program} {es : List Wire.Import} {funcs : List (UInt32 × Origin FuncBody)}
  {tables : List (TableType × Origin Unit)} {tags : List (TagType × Origin Unit)}

/-- A program has functions, tables and tags as they are written, in this order. -/
structure Mirrors (p : Program) (funcs : List (UInt32 × Origin FuncBody))
    (tables : List (TableType × Origin Unit)) (tags : List (TagType × Origin Unit)) : Prop where
  funcs : List.Forall₂ (fun (f : Function) e => f.type = e.1.toNat) p.funcs funcs
  tables : List.Forall₂ (fun (t : Table) e => t.limits = e.1.limits) p.tables tables
  tags : p.tags.length = tags.length

theorem Takes.mirrors {e : Wire.Import} (h : Takes u e v) (hu : u.Mirrors funcs tables tags) :
    v.Mirrors (funcs ++ [e].filterMap Wire.Import.func?) (tables ++ [e].filterMap Wire.Import.table?)
      (tags ++ [e].filterMap Wire.Import.tag?) := by
  obtain ⟨hfuncs, htables, htags⟩ := hu
  have hfuncs' : Forall₂ (fun (f : Function) e => f.type = e.1.toNat) u.funcs (funcs ++ []) := by
    rwa [append_nil]
  have htables' : Forall₂ (fun (t : Table) e => t.limits = e.1.limits) u.tables
      (tables ++ []) := by
    rwa [append_nil]
  have htags' : u.tags.length = (tags ++ []).length := by
    rwa [append_nil]
  cases h with
  | func => exact ⟨rel_append hfuncs (.cons rfl .nil), htables', htags'⟩
  | table => exact ⟨hfuncs', rel_append htables (.cons rfl .nil), htags'⟩
  | @tag _ _ t =>
    refine ⟨hfuncs', htables', ?_⟩
    rw [length_append, length_append, htags]
    rfl
  | memory | global | other => exact ⟨hfuncs', htables', htags'⟩

theorem Folds.takes_mirrors (h : Folds Takes u es v) (hu : u.Mirrors funcs tables tags) :
    v.Mirrors (funcs ++ es.filterMap Wire.Import.func?) (tables ++ es.filterMap Wire.Import.table?)
      (tags ++ es.filterMap Wire.Import.tag?) := by
  induction h generalizing funcs tables tags with
  | nil => simpa using hu
  | @cons _ e _ es _ htakes _ ih =>
    have hrest := ih (htakes.mirrors hu)
    simp only [append_assoc, ← filterMap_append, singleton_append] at hrest
    exact hrest

theorem forall₂_zipWith {α β γ : Type} {R : α → γ → Prop} {g : α → β → γ} {as : List α} {bs : List β}
    (hlength : as.length = bs.length) (h : ∀ a b, R a (g a b)) :
    Forall₂ R as (List.zipWith g as bs) := by
  induction as generalizing bs with
  | nil => exact .nil
  | cons a as ih =>
    cases bs with
    | nil => cases hlength
    | cons b bs => exact .cons (h a b) (ih (Nat.succ.inj hlength))

/-- What is read has the entities of the module, in order. -/
theorem assembled_mirrors {m : Wire.Module} {types : List Signature} {found : List Table}
    {exports : List Export} (himports : Folds Takes { types } m.imports q)
    (hbodies : m.funcs.length = m.code.length) (htabled : Forall₂ Tabled m.tables found) :
    (q.assembled m found exports).Mirrors m.funcSpace m.tableSpace m.tagSpace := by
  have hnone : Mirrors { types } [] [] [] := ⟨.nil, .nil, rfl⟩
  obtain ⟨hfuncs, htables, htags⟩ := himports.takes_mirrors hnone
  refine ⟨rel_append hfuncs ?_, rel_append htables ?_, ?_⟩
  · rw [forall₂_map_left_iff]
    exact forall₂_zipWith hbodies fun _ _ => rfl
  · rw [forall₂_map_right_iff]
    refine htabled.flip.imp ?_
    rintro t type ⟨elem, -, rfl⟩
    rfl
  · simp only [assembled, Module.tagSpace, length_append, length_map, htags, nil_append]

end Mirror

theorem ofWire_toExt_known {vs found : List ValType}
    (h : ValType.ofWire (vs.map ValType.code) (vs.map ValType.toExt) = .ok found) :
    ∀ v ∈ vs, v.IsKnown := by
  unfold ValType.ofWire at h
  split at h
  next hnil =>
    rw [map_eq_nil_iff.mp hnil]
    exact fun v hv => absurd hv not_mem_nil
  next =>
    have hall := forall₂_map_left_iff.mp (mapM_eq_ok_iff.mp h)
    rintro v hv number rfl
    obtain ⟨_, -, hread⟩ := forall₂_mem_left hall hv
    cases hread

theorem mapNumbered_signatureOf_iff {types found : List Signature} :
    mapNumbered signatureOf ((types.map Signature.toWire).map FuncType.full) = .ok found ↔
      (∀ t ∈ types, t.IsKnown) ∧ found = types := by
  constructor
  · intro h
    have hknown : ∀ t ∈ types, t.IsKnown := by
      intro t ht
      have hmem : t.toWire.full ∈ (types.map Signature.toWire).map FuncType.full :=
        mem_map_of_mem (mem_map_of_mem ht)
      obtain ⟨i, hi⟩ := getElem?_of_mem hmem
      have hpair : (t.toWire.full, i) ∈ ((types.map Signature.toWire).map FuncType.full).zipIdx :=
        mem_zipIdx_iff_getElem?.mpr hi
      obtain ⟨s, -, hs⟩ := forall₂_mem_left (mapM_eq_ok_iff.mp h) hpair
      obtain ⟨params, hparams, hs⟩ := of_bind hs
      obtain ⟨results, hresults, -⟩ := of_bind hs
      rw [Signature.toWire_full] at hparams hresults
      exact forall_mem_append.mpr ⟨ofWire_toExt_known (wrapping_eq_ok_iff.mp hparams),
        ofWire_toExt_known (wrapping_eq_ok_iff.mp hresults)⟩
    exact ⟨hknown, Except.ok.inj (h.symm.trans (mapNumbered_signatureOf hknown))⟩
  · rintro ⟨hknown, rfl⟩
    exact mapNumbered_signatureOf hknown

section Reopen

variable {p q : Program} {out : Wire.Module} {bodies : List (UInt32 × Wire.FuncBody)}
  {extra : List ValType} {names : List Wire.Custom} {tables : List Table} {exports : List Export}

theorem Emits.bodies_length (he : p.Emits out bodies extra names) :
    out.funcs.length = out.code.length := by
  rw [he.funcs, he.code, length_map, length_map]

/-- What is read of a module that was written, but for its exports and bodies, has room for these. -/
theorem assembled_receives (he : p.Emits out bodies extra names) (hlowered : p.LoweredTo out)
    (himports : Folds Takes { types := p.typesWith extra } out.stored.imports q)
    (htabled : Forall₂ Tabled out.stored.tables tables) (exports : List Export) :
    Receives p (q.assembled out.stored.reread tables exports) extra ∧
      (q.assembled out.stored.reread tables exports).Mirrors out.funcSpace out.stored.tableSpace
        out.tagSpace := by
  have hmirrors : (q.assembled out.stored.reread tables exports).Mirrors
      out.stored.reread.funcSpace out.stored.tableSpace out.stored.reread.tagSpace :=
    assembled_mirrors himports he.bodies_length htabled
  rw [show out.stored.reread.funcSpace = out.funcSpace from out.funcSpace_stored,
    show out.stored.reread.tagSpace = out.tagSpace from out.tagSpace_stored] at hmirrors
  refine ⟨⟨?_, ?_, ?_, ?_⟩, hmirrors⟩
  · rw [assembled, himports.takes_rest]
  · obtain ⟨_, -, hlength, -⟩ := hlowered.funcs
    exact hmirrors.funcs.length_eq.trans hlength
  · have hlength := (Finds.stored hlowered.tables).1
    exact hmirrors.tables.length_eq.trans hlength
  · exact hmirrors.tags.trans hlowered.tags.1

theorem Emits.types_reread (he : p.Emits out bodies extra names) {types : List Signature} :
    mapNumbered signatureOf out.stored.reread.types = .ok types ↔
      (∀ t ∈ p.types, t.IsKnown) ∧ types = p.typesWith extra := by
  have hwritten : out.stored.reread.types =
      ((p.typesWith extra).map Signature.toWire).map FuncType.full :=
    congrArg (List.map FuncType.full) he.types
  have hextra : ∀ t ∈ extra.map (Signature.mk [] [·]), t.IsKnown := by
    refine forall_mem_map.mpr fun v hv => ?_
    exact forall_mem_singleton.mpr (he.extra_known v hv)
  rw [hwritten, mapNumbered_signatureOf_iff, typesWith, forall_mem_append, and_iff_left hextra]

theorem Assembles.receives (h : Assembles out.stored.reread q tables exports)
    (he : p.Emits out bodies extra names) (hlowered : p.LoweredTo out) :
    (∀ t ∈ p.types, t.IsKnown) ∧ Receives p (q.assembled out.stored.reread tables exports) extra ∧
      (q.assembled out.stored.reread tables exports).Mirrors out.funcSpace out.stored.tableSpace
        out.tagSpace := by
  obtain ⟨types, htypes, himports⟩ := h.imports
  obtain ⟨hknown, rfl⟩ := he.types_reread.mp htypes
  exact ⟨hknown, assembled_receives he hlowered himports h.tabled exports⟩

theorem importToWire_takeable (hothers : p.CarriesOthers) {i : Import} (hi : i ∈ p.imports)
    {w : Wire.Import} (hw : p.importToWire i = .ok w) {n : Nat}
    (htype : ∀ type, w.desc = .func type → type.toNat < n) : w.stored.desc.Takeable n := by
  obtain ⟨desc, rfl, hdesc⟩ := importToWire_eq_ok hw
  have hcarried := hothers i hi
  obtain ⟨module, name, target⟩ := i
  cases target with
  | func id =>
    obtain ⟨f, -, rfl⟩ := hdesc
    exact htype _ rfl
  | table id =>
    obtain ⟨t, -, rfl⟩ := hdesc
    exact ⟨_, t.elem, rfl, elemOf_tableToWire t⟩
  | tag id =>
    obtain ⟨t, -, rfl⟩ := hdesc
    exact ⟨_, rfl⟩
  | carried found =>
    obtain rfl : desc = found := hdesc
    have hkind := hcarried desc rfl
    cases desc with
    | memory | global | other => trivial
    | func | table | tag => cases hkind

theorem exportToWire_exported {r : Program} (hp : p.Paired) (hcount : ∀ space, p.count space ≤ 2 ^ 32)
    (hreceives : Receives p r extra) {x : Export} (hx : x.target.Proper) {e : Wire.Export}
    (h : exportToWire p.numbering x = .ok e) : ∃ y, Exported r e y := by
  obtain ⟨name, target⟩ := x
  cases target with
  | func id =>
    obtain ⟨k, hk, h⟩ := of_bind h
    cases h
    refine ⟨_, .func rfl ?_⟩
    exact (index_toNat_lt (hp.order_perm .func) (hcount .func) hk).trans_eq hreceives.funcs.symm
  | table id =>
    obtain ⟨k, hk, h⟩ := of_bind h
    cases h
    refine ⟨_, .table rfl ?_⟩
    exact (index_toNat_lt (hp.order_perm .table) (hcount .table) hk).trans_eq hreceives.tables.symm
  | tag id =>
    obtain ⟨k, hk, h⟩ := of_bind h
    cases h
    refine ⟨_, .tag rfl ?_⟩
    exact (index_toNat_lt (hp.order_perm .tag) (hcount .tag) hk).trans_eq hreceives.tags.symm
  | other kind index =>
    obtain ⟨hfunc, htable, htag, -⟩ := hx
    cases h
    exact ⟨_, .other hfunc htable htag⟩

/-- A module that was written and passes is read but for its bodies, if its types are known. -/
theorem Emits.assembles (he : p.Emits out bodies extra names) (hp : p.Paired)
    (hothers : p.CarriesOthers) (hcount : ∀ space, p.count space ≤ 2 ^ 32)
    (hexports : ∀ x ∈ p.exports, x.target.Proper) (hvalid : out.validate = .ok ())
    (hknown : ∀ t ∈ p.types, t.IsKnown) :
    ∃ q tables exports, Assembles out.stored.reread q tables exports := by
  obtain ⟨hfuncs, himports, htags⟩ := Module.typeViolation_eq_none_iff.mp
    (Module.violation?_eq_ok_none_iff.mp (Module.validate_eq_ok.mp hvalid)).2.1
  have hsize : out.sizes.types = (p.typesWith extra).length := by
    rw [Module.sizes, Module.flatTypes_funcs he.typeDefs, he.types, length_map, length_map]
    rfl
  rw [hsize] at hfuncs himports htags
  obtain ⟨q, hq⟩ : ∃ q, Folds Takes { types := p.typesWith extra } out.stored.imports q := by
    refine folds_takes_exists (forall_mem_map.mpr fun w hw => ?_)
    obtain ⟨i, hi, hwritten⟩ := forall₂_mem_right (mapM_eq_ok_iff.mp he.imports) hw
    exact importToWire_takeable hothers hi hwritten (himports w hw).1
  have htypes : q.types = p.typesWith extra := by
    rw [hq.takes_rest]
  obtain ⟨tables, htables⟩ : ∃ tables, Forall₂ Tabled out.stored.tables tables := by
    refine exists_forall₂ (forall_mem_map.mpr ?_)
    rw [he.tables]
    exact forall_mem_map.mpr fun t _ => ⟨_, t.elem, elemOf_tableToWire t, rfl⟩
  obtain ⟨hreceives, -⟩ := assembled_receives he (he.loweredTo hp hothers) hq htables []
  obtain ⟨exports, hexported⟩ : ∃ exports, Forall₂
      (Exported (q.assembled out.stored.reread tables [])) out.exports exports := by
    refine exists_forall₂ fun e hmem => ?_
    obtain ⟨x, hx, hwritten⟩ := forall₂_mem_right (mapM_eq_ok_iff.mp he.exports) hmem
    exact exportToWire_exported hp hcount hreceives (hexports x hx) hwritten
  refine ⟨q, tables, exports, rfl, ⟨_, he.types_reread.mpr ⟨hknown, rfl⟩, hq⟩, he.bodies_length, ?_,
    htables, ?_, hexported⟩
  · rw [htypes]
    exact hfuncs
  · rw [htypes]
    exact htags

theorem Emits.types_length (he : p.Emits out bodies extra names) :
    out.types.length = (p.typesWith extra).length := by
  rw [he.types, length_map]
  rfl

/-- A written body can be read exactly if it is readable. -/
theorem Emits.readsBody_iff (he : p.Emits out bodies extra names) (hp : p.Paired)
    (hcount : ∀ space, p.count space ≤ 2 ^ 32) (hrest : p.Restorable)
    (hsized : ∀ f ∈ p.funcs, ∀ b, f.kind = .defined b → b.Sized) (hsize : out.types.length < 2 ^ 31)
    (hlength : ∀ b ∈ out.code, b.code.length < 2 ^ 32)
    (hreceives : Receives p (q.assembled out.stored.reread tables exports) extra) {i : Nat}
    {id : FuncId} (hid : p.definedFuncs[i]? = some id) : ∃ f b code, p.funcs[id]? = some f ∧
      f.kind = .defined b ∧ out.code[i]? = some code ∧ ∀ start,
        ((∃ declared b', (q.assembled out.stored.reread tables exports).ReadsBody
          (q.funcs.length + i) start code declared b') ↔ p.Legible out.types.length f.type b) := by
  obtain ⟨body, hbody, f, b, hf, hb, htype, hdescribes, hwrites⟩ :=
    forall₂_getElem? he.functions hid
  have hcode : out.code[i]? = some body.2 := by
    rw [he.code, getElem?_map, hbody]
    rfl
  have hfunc : out.funcs[i]? = some body.1 := by
    rw [he.funcs, getElem?_map, hbody]
    rfl
  have hmem := mem_of_getElem? hf
  have htypes : (q.assembled out.stored.reread tables exports).types.length = out.types.length := by
    rw [hreceives.types, he.types_length]
  have hle : p.types.length ≤ out.types.length := by
    rw [he.types_length, typesWith, length_append]
    exact Nat.le_add_right _ _
  have htypeOf : (q.assembled out.stored.reread tables exports).typeOf (q.funcs.length + i) =
      f.type := by
    have hget : (q.assembled out.stored.reread tables exports).funcs[q.funcs.length + i]? =
        some (declared body.1) := by
      change (q.funcs ++ out.funcs.map declared)[q.funcs.length + i]? = _
      rw [getElem?_append_right (Nat.le_add_right _ _), Nat.add_sub_cancel_left,
        getElem?_map, hfunc]
      rfl
    rw [typeOf, hget]
    change body.1.toNat = f.type
    rw [hdescribes]
    exact Reader.toNat_ofNat_size (by omega)
  refine ⟨f, b, body.2, hf, hb, hcode, fun start => ?_⟩
  have hiff := hreceives.readsBody_iff hp hcount (htypes ▸ hsize) (hsized f hmem b hb)
    (hrest.code f hmem b hb) hwrites (hlength _ (mem_of_getElem? hcode))
    (q.funcs.length + i) (htypeOf ▸ htype) start
  rwa [htypes, htypeOf] at hiff

/-- What is written for a program can be read where there are so many types: the limits of its tables
are in order as they are written, its value types are known and its bodies are legible. -/
structure Rereadable (p : Program) (types : Nat) : Prop where
  limits : ∀ t ∈ p.tables, ∀ max ∈ t.limits.stored.max, t.limits.stored.min ≤ max
  signatures : ∀ t ∈ p.types, t.IsKnown
  bodies : ∀ f ∈ p.funcs, ∀ b, f.kind = .defined b → p.Legible types f.type b

theorem stored_proper_iff {l : Limits} :
    l.stored.Proper ↔ ∀ max ∈ l.stored.max, l.stored.min ≤ max := by
  have hstored : l.stored.stored = l.stored := by
    obtain ⟨min, max, shared, memory64⟩ := l
    cases memory64 <;> cases max <;>
      simp only [Limits.stored, Limits.held, Bool.false_eq_true, ↓reduceIte, Option.map_none,
        Option.map_some, UInt32.toUInt32_toUInt64]
  constructor
  · exact fun h max hmax => UInt64.not_lt.mp (h.ordered max hmax)
  · exact fun h => ⟨hstored, fun max hmax => UInt64.not_lt.mpr (h max hmax)⟩

section Written

variable (he : p.Emits out bodies extra names) (hp : p.Paired) (hothers : p.CarriesOthers)
  (hrest : p.Restorable) (hfollow : p.FollowsConstants) {bytes : Bytes}
  (hbytes : out.encode = .ok bytes) (hlength : bytes.length < 2 ^ 32)

include he hp hothers hbytes hlength

theorem Emits.count_le (space : Space) : p.count space ≤ 2 ^ 32 :=
  Nat.le_trans ((he.loweredTo hp hothers).count_le (Module.within_encode he.typeDefs hbytes) space)
    (Nat.le_of_lt hlength)

include hrest hfollow

/-- The bytes can be read exactly if the limits of tables are in order. -/
theorem Emits.decode_iff : (∃ n, Module.decode bytes = .ok n) ↔
    ∀ t ∈ p.tables, ∀ max ∈ t.limits.stored.max, t.limits.stored.min ≤ max := by
  have htables := (he.loweredTo hp hothers).tables
  have hperm := hp.order_perm .table
  rw [(hrest.sketched hfollow he).decode_iff hbytes hlength]
  constructor
  · intro h t ht
    obtain ⟨id, hid⟩ := getElem?_of_mem ht
    obtain ⟨type, origin, hget, ⟨-, hlimits, -⟩, -⟩ := htables.2 id t hid
    have hproper := h _ (mem_of_getElem? hget)
    rw [hlimits] at hproper
    exact stored_proper_iff.mp hproper
  · intro h e hmem
    obtain ⟨k, hk⟩ := getElem?_of_mem hmem
    -- the entry at an index is that of the table which has this index
    have hlt : k < p.numbering.tables.length := by
      have hlength := lt_of_getElem? hk
      rw [htables.1] at hlength
      rwa [hp.tables_length]
    have hid : p.numbering.tables[k] < p.tables.length :=
      mem_range.mp (hperm.mem_iff.mp (getElem_mem hlt))
    obtain ⟨type, origin, hget, ⟨-, hlimits, -⟩, -⟩ :=
      htables.2 _ _ (getElem?_eq_getElem hid)
    have hnodup : p.numbering.tables.Nodup := hperm.nodup_iff.mpr nodup_range
    rw [hnodup.idxOf_getElem k hlt, hk] at hget
    cases hget
    rw [hlimits]
    exact stored_proper_iff.mpr (h _ (getElem_mem hid))

/-- What is written for a program is read again exactly if it can be. -/
theorem Emits.parse_iff (hvalid : out.validate = .ok ())
    (hsized : ∀ f ∈ p.funcs, ∀ b, f.kind = .defined b → b.Sized) :
    (∃ q, parse bytes = .ok q) ↔ p.Rereadable out.types.length := by
  have hlowered := he.loweredTo hp hothers
  have hcount := he.count_le hp hothers hbytes hlength
  have hwithin := Module.within_encode he.typeDefs hbytes
  have hsize : out.types.length < 2 ^ 31 := by
    have htypes := hwithin.types
    omega
  have hcodes := Module.code_length_lt he.typeDefs hbytes hlength
  have hsketched := hrest.sketched hfollow he
  constructor
  · rintro ⟨q, hq⟩
    obtain ⟨n, hn, hof⟩ := parse_eq_ok_iff.mp hq
    have hlimits := (he.decode_iff hp hothers hrest hfollow hbytes hlength).mp ⟨n, hn⟩
    obtain rfl := Module.decode_stored hsketched hbytes hlength hn
    obtain ⟨first, s, tables, exports, hread⟩ := ofModule_eq_ok hof
    obtain ⟨hknown, hreceives, -⟩ := hread.assembles.receives he hlowered
    refine ⟨hlimits, hknown, fun f hf b hb => ?_⟩
    obtain ⟨id, hid⟩ := getElem?_of_mem hf
    have hdefined : id ∈ p.definedFuncs := by
      rw [definedFuncs_eq]
      exact mem_positions.mpr ⟨f, hid, by simp [Function.import?, hb]⟩
    obtain ⟨i, hi⟩ := getElem?_of_mem hdefined
    obtain ⟨f', b', code, hf', hb', hcode, hiff⟩ :=
      he.readsBody_iff hp hcount hrest hsized hsize hcodes hreceives hi
    cases hid.symm.trans hf'
    cases hb.symm.trans hb'
    obtain ⟨start, declared, found, -, -, -, hbody, -⟩ :=
      hread.bodies.bodies i code (lt_of_getElem? hcode) hcode
    exact (hiff start).mp ⟨declared, found, hread.renamed.readsBody_iff.mp hbody⟩
  · intro h
    obtain ⟨n, hn⟩ := (he.decode_iff hp hothers hrest hfollow hbytes hlength).mpr h.limits
    obtain rfl := Module.decode_stored hsketched hbytes hlength hn
    obtain ⟨first, tables, exports, hassembles⟩ :=
      he.assembles hp hothers hcount hrest.exports hvalid h.signatures
    obtain ⟨-, hreceives, -⟩ := hassembles.receives he hlowered
    have hbodies : ∀ i code, out.code[i]? = some code → ∀ start, ∃ declared b,
        (first.assembled out.stored.reread tables exports).ReadsBody (first.funcs.length + i) start
          code declared b := by
      intro i code hcode start
      have hlt : i < p.definedFuncs.length := by
        have hi := lt_of_getElem? hcode
        rwa [he.code, length_map, ← he.functions.length_eq] at hi
      obtain ⟨f, b, code', hf, hb, hcode', hiff⟩ := he.readsBody_iff hp hcount hrest hsized hsize
        hcodes hreceives (getElem?_eq_getElem hlt)
      cases hcode.symm.trans hcode'
      exact (hiff start).mpr (h.bodies f (mem_of_getElem? hf) b hb)
    obtain ⟨q, hq⟩ := ofModule_exists hassembles hbodies
    exact ⟨q, parse_eq_ok_iff.mpr ⟨_, hn, hq⟩⟩

/-- Each table is read with the limits that the bytes of its own stand for. -/
theorem Emits.parse_tables (hq : parse bytes = .ok q) : q.tables.length = p.tables.length ∧
    ∀ id t, p.tables[id]? = some t → ∃ u, q.tables[p.numbering.tables.idxOf id]? = some u ∧
      u.limits = t.limits.stored := by
  have hlowered := he.loweredTo hp hothers
  obtain ⟨n, hn, hof⟩ := parse_eq_ok_iff.mp hq
  obtain rfl := Module.decode_stored (hrest.sketched hfollow he) hbytes hlength hn
  obtain ⟨first, s, tables, exports, hread⟩ := ofModule_eq_ok hof
  obtain ⟨-, hreceives, hmirrors⟩ := hread.assembles.receives he hlowered
  have htables : q.tables = (first.assembled out.stored.reread tables exports).tables := by
    rw [hread.parts]
  rw [htables]
  refine ⟨hreceives.tables, fun id t ht => ?_⟩
  obtain ⟨type, origin, hget, ⟨-, hlimits, -⟩, -⟩ := (Finds.stored hlowered.tables).2 id t ht
  obtain ⟨u, hu, hsame⟩ := forall₂_getElem? hmirrors.tables.flip hget
  exact ⟨u, hu, hsame.trans hlimits⟩

end Written

/-- Each table of a program is a table of the other, with the same least and greatest size, and there
are no others. -/
def KeepsLimits (p q : Program) : Prop :=
  q.tables.length = p.tables.length ∧
    ∀ id t, p.tables[id]? = some t → ∃ u, q.tables[p.numbering.tables.idxOf id]? = some u ∧
      u.limits.min = t.limits.min ∧ u.limits.max = t.limits.max

end Reopen

/-- What was written for a program that was read or made from nothing is read again exactly if its
tables are in order as they are written, its value types are known and its bodies are legible. Tables
that are read again are as large as they were exactly if their sizes fit into 32 bits where they are
written in so many. -/
theorem emit_reopens_iff {start p : Program} {issued : List Binding}
    (hstart : start = {} ∨ ∃ data, parse data = .ok start) (hreach : Reaches start issued p)
    (hissued : ∀ b ∈ issued, b.Modelled) (hfollow : p.FollowsConstants)
    (hsized : ∀ f ∈ p.funcs, ∀ b, f.kind = .defined b → b.Sized) {out : Wire.Module} {bytes : Bytes}
    (hout : p.toModule = .ok out) (hbytes : p.emit = .ok bytes) (hlength : bytes.length < 2 ^ 32) :
    ((∃ q, parse bytes = .ok q) ↔ p.Rereadable out.types.length) ∧
      ∀ q, parse bytes = .ok q → (p.KeepsLimits q ↔ ∀ t ∈ p.tables, t.limits.Fits) := by
  obtain ⟨out', hout', hvalid, hencode⟩ := emit_eq_ok_iff.mp hbytes
  cases hout.symm.trans hout'
  obtain ⟨bodies, extra, names, he⟩ := toModule_eq_ok_iff.mp hout
  have hbegins : start.IsStart ∧ start.Restorable := by
    rcases hstart with rfl | ⟨data, hdata⟩
    · exact ⟨.inl rfl, restorable_empty⟩
    · obtain ⟨m, -, hm⟩ := parse_eq_ok_iff.mp hdata
      exact ⟨.inr ⟨m, hm⟩, restorable_of_parse hdata⟩
  obtain ⟨hisStart, hrestorable⟩ := hbegins
  have hpaired := hreach.paired hisStart.paired
  have hothers := hreach.carriesOthers hisStart.carriesOthers
  have hrest := hreach.restorable hissued hrestorable
  refine ⟨he.parse_iff hpaired hothers hrest hfollow hencode hlength hvalid hsized, fun q hq => ?_⟩
  obtain ⟨hcount, htables⟩ := he.parse_tables hpaired hothers hrest hfollow hencode hlength hq
  constructor
  · rintro ⟨-, hkeeps⟩ t ht
    obtain ⟨id, hid⟩ := getElem?_of_mem ht
    obtain ⟨u, hu, hmin, hmax⟩ := hkeeps id t hid
    obtain ⟨u', hu', hlimits⟩ := htables id t hid
    cases hu.symm.trans hu'
    rw [hlimits] at hmin hmax
    exact Limits.fits_iff.mpr ⟨hmin, hmax⟩
  · intro h
    refine ⟨hcount, fun id t ht => ?_⟩
    obtain ⟨u, hu, hlimits⟩ := htables id t ht
    obtain ⟨hmin, hmax⟩ := Limits.fits_iff.mp (h t (mem_of_getElem? ht))
    exact ⟨u, hu, hlimits ▸ hmin, hlimits ▸ hmax⟩

theorem interleaved_rereadable : interleaved.Rereadable 1 where
  limits := by simp [interleaved, tableLimits, Limits.stored, Limits.held]
  signatures := by simp [interleaved, Signature.IsKnown]
  bodies := by
    have hthrower : interleaved.Legible 1 0 thrower := by
      refine ⟨fun var hvar => absurd hvar not_mem_nil, ?_⟩
      refine (Body.readableFrom_iff rfl).mpr (forall_mem_singleton.mpr ⟨trivial, ?_⟩)
      exact fun child hchild => absurd hchild not_mem_nil
    intro f hf b hb
    rcases mem_pair.mp hf with rfl | rfl
    · cases hb
      exact hthrower
    · cases hb

theorem interleaved_reopens : ∃ bytes q, interleaved.emit = .ok bytes ∧ parse bytes = .ok q ∧
    interleaved.KeepsLimits q := by
  obtain ⟨issued, hreached⟩ := interleaved_reached
  have hbodies : ∀ f ∈ interleaved.funcs, ∀ b, f.kind = .defined b → b = thrower := by
    intro f hf b hb
    rcases mem_pair.mp hf with rfl | rfl
    · cases hb
      rfl
    · cases hb
  have hmodelled : ∀ b ∈ issued, b.Modelled := by
    intro b hb
    have hholds := hreached.holds_iff.mpr (.inr hb)
    cases b with
    | func id f =>
      intro b hb
      obtain rfl := hbodies f (mem_of_getElem? hholds) b hb
      simp [thrower, Instr.Clean]
    | exported id x =>
      obtain rfl := mem_singleton.mp (mem_of_getElem? hholds)
      trivial
    | _ => trivial
  have hsized : ∀ f ∈ interleaved.funcs, ∀ b, f.kind = .defined b → b.Sized := by
    intro f hf b hb
    obtain rfl := hbodies f hf b hb
    constructor <;> simp [thrower, Body.slots, Instr.calledType?]
  have hrun : (interleaved.emit.toOption.any fun bytes => bytes.length < 2 ^ 32) = true := by
    decide +kernel
  obtain ⟨bytes, hbytes, hlength⟩ := any_toOption_iff.mp hrun
  have hwritten : (interleaved.toModule.toOption.any fun out => out.types.length = 1) = true := by
    decide +kernel
  obtain ⟨out, hout, htypes⟩ := any_toOption_iff.mp hwritten
  obtain ⟨hiff, hkeeps⟩ := emit_reopens_iff (.inl rfl) hreached hmodelled
    (fun _ => ⟨fun g hg => absurd hg not_mem_nil, fun e he => absurd he not_mem_nil⟩) hsized
    hout hbytes (of_decide_eq_true hlength)
  obtain ⟨q, hq⟩ := hiff.mpr (of_decide_eq_true htypes ▸ interleaved_rereadable)
  refine ⟨bytes, q, hbytes, hq, (hkeeps q hq).mpr ?_⟩
  simp [interleaved, tableLimits, Limits.Fits]

/-- A table whose least size is above its greatest. -/
def disordered : Program :=
  (addTable {} ⟨true, -16⟩ 5 (some 3)).2

/-- A table of more elements than 32 bits can count. -/
def oversized : Program :=
  (addTable {} ⟨true, -16⟩ 0x100000001 none).2

/-- Both are written: one cannot be read again, and the other is read with a smaller table. -/
theorem limits_lost :
    (∃ issued bytes, Reaches {} issued disordered ∧ disordered.emit = .ok bytes ∧
      ¬ ∃ q, parse bytes = .ok q) ∧
    ∃ issued bytes q, Reaches {} issued oversized ∧ oversized.emit = .ok bytes ∧
      parse bytes = .ok q ∧ q.tables.map (·.limits.min) = [1] := by
  have hdisordered : (disordered.emit.toOption.any fun bytes => !(parse bytes).isOk) = true := by
    decide +kernel
  have hoversized : (oversized.emit.toOption.any fun bytes =>
      (parse bytes).toOption.any fun q => q.tables.map (·.limits.min) = [1]) = true := by
    decide +kernel
  constructor
  · obtain ⟨bytes, hbytes, hrefused⟩ := any_toOption_iff.mp hdisordered
    refine ⟨_, bytes, .add .start (.addTable ⟨true, -16⟩ 5 (some 3) rfl), hbytes, ?_⟩
    rintro ⟨q, hq⟩
    rw [hq] at hrefused
    cases hrefused
  · obtain ⟨bytes, hbytes, hread⟩ := any_toOption_iff.mp hoversized
    obtain ⟨q, hq, hmin⟩ := any_toOption_iff.mp hread
    exact ⟨_, bytes, q, .add .start (.addTable ⟨true, -16⟩ 0x100000001 none rfl), hbytes, hq,
      of_decide_eq_true hmin⟩

end Program

end HostCatch
