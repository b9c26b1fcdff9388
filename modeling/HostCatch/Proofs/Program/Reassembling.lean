import HostCatch.Proofs.Program.Altering
import HostCatch.Proofs.Program.Naming

namespace HostCatch

open List

namespace Program

variable {m out : Wire.Module} {p p' q s : Program} {tables : List Table} {exports : List Export}
variable {κ : FuncId → FuncId → FuncId} {new : Option TagImport} {types : List Signature}
variable {more : List Function} {extra : List ValType} {names : List Wire.Custom}
variable (ha : p.Altered p' κ new types more) (hr : ReadFrom m p q s tables exports) (hm : m.Proper)
variable {old added : List (UInt32 × Wire.FuncBody)} (he : p'.Emits out (old ++ added) extra names)
variable (hw : Rewrites m p p' q κ new more extra old added)

/-- The types that are written. -/
def typesWith (p : Program) (extra : List ValType) : List Signature :=
  p.types ++ extra.map (Signature.mk [] [·])

include ha hr he in
theorem Altered.carries : out.globals = m.globals ∧ out.elements = m.elements ∧
    out.memories = m.memories ∧ out.data = m.data ∧ out.dataCount = m.dataCount ∧
    out.start = m.start ∧ out.tables = tables.map tableToWire ∧ out.tags = m.tags := by
  have hfuncs := ha.numbering_funcs hr.ordered
  have hglobals := emitGlobals_unmoved hfuncs he.globals
  have helements := emitElements_unmoved hfuncs (ha.numbering_tables hr.ordered) he.elements
  have hstart : p'.start = m.start.map UInt32.toNat := by
    rw [ha.carried, hr.parts]
    rfl
  refine ⟨?_, ?_, ?_, ?_, ?_, startIndex_unmoved hfuncs hstart he.start, ?_, ?_⟩
  · rw [hglobals, ha.carried, hr.parts]
    rfl
  · rw [helements, ha.carried, hr.parts]
    rfl
  · rw [he.memories, ha.carried, hr.parts]
    rfl
  · rw [he.data, ha.carried, hr.parts]
    rfl
  · rw [he.dataCount, ha.carried, hr.parts]
    rfl
  · rw [he.tables, ha.definedTables hr]
  · rw [he.tags, ha.definedTags hr]

/-- What is read of an altered program but for its functions: tags have moved. -/
def reassembled (q p' : Program) (new : Option TagImport) (extra : List ValType) (out : Wire.Module)
    (tables : List Table) (exports : List Export) : Program :=
  { q.withTag new with types := p'.typesWith extra }.assembled out.reread tables
    (exports.map (Export.retag (q.retagging new)))

include ha hr he in
/-- Nothing but functions, types, tags and what names them differs from what was read. -/
theorem Altered.reassembled_eq : q.reassembled p' new extra out tables exports = { p with
    types := p'.typesWith extra
    funcs := q.funcs ++ out.funcs.map declared
    tags := q.tags ++ (new.map fun t => ⟨t.type, 0, some p.imports.length⟩).toList ++
      m.tags.map tagged
    imports := p.imports ++ (new.map fun t => ⟨t.module, t.name, .tag q.tags.length⟩).toList
    exports := p.exports.map (Export.retag (q.retagging new))
    locals := []
    customs := []
    names := [] } := by
  obtain ⟨hglobals, helements, hmemories, hdata, hdataCount, hstart, -, htags⟩ := ha.carries hr he
  obtain ⟨start, -, himports⟩ := hr.assembles.imports
  have hq := himports.takes_rest
  simp only [reassembled, assembled, withTag_eq, Wire.Module.reread, hglobals, helements, hmemories,
    hdata, hdataCount, hstart, htags]
  rw [hr.parts, hq]
  simp [assembled]

include ha hr he hw in
theorem Altered.reassembled_length :
    (q.reassembled p' new extra out tables exports).funcs.length = p'.funcs.length ∧
      (q.reassembled p' new extra out tables exports).tables.length = p.tables.length ∧
      (q.reassembled p' new extra out tables exports).tags.length = p'.tags.length := by
  have hadded := (ha.added hw).length_eq
  have hold := hw.length
  have hlength := hr.length
  have htags : p.tags.length = q.tags.length + m.tags.length := by
    rw [hr.parts]
    simp [assembled]
  rw [ha.reassembled_eq hr he, ha.funcs_length, ha.tags_length, htags]
  refine ⟨?_, rfl, ?_⟩
  · simp only [he.funcs, length_append, length_map]
    omega
  · cases new with
    | none => simp
    | some t =>
      simp only [Option.map_some, Option.toList_some, length_append, length_singleton, length_map]
      omega

include hr in
theorem ReadFrom.exports_eq : p.exports = exports := by
  have hnone : q.exports = [] := by
    obtain ⟨types, -, himports⟩ := hr.assembles.imports
    rw [himports.takes_rest]
  rw [hr.parts, assembled, hnone]
  rfl

include ha hr in
theorem Altered.exported (htags : p'.tags.length ≤ 2 ^ 32) {found : List Wire.Export}
    (hfound : p'.exportsToWire p'.numbering = .ok found) {q' : Program}
    (hfuncs : q'.funcs.length = p'.funcs.length) (htables : q'.tables.length = p.tables.length)
    (htagsLength : q'.tags.length = p'.tags.length) :
    Forall₂ (fun e x => Exported q' e (x.retag (q.retagging new))) found exports ∧
      found.map Wire.Export.kind = m.exports.map Wire.Export.kind := by
  have hexports : p'.exports = exports := by
    rw [ha.carried]
    exact hr.exports_eq
  have htag : ∀ i : UInt32, i.toNat < (q.assembled m tables []).tags.length → ∃ j,
      p'.numbering.tag i.toNat = .ok j ∧ j.toNat = q.retagging new i.toNat ∧
        j.toNat < q'.tags.length := by
    intro i hi
    have hi : i.toNat < p.tags.length := by
      rw [hr.parts]
      exact hi
    have hlt : q.retagging new i.toNat < p'.tags.length := by
      rw [ha.tags_length]
      exact shiftTag_lt hi
    refine ⟨_, ha.numbering_tag hr.ordered hi, ?_, ?_⟩
    · rw [hr.importedTags]
      exact Reader.toNat_ofNat_size (Nat.lt_of_lt_of_le hlt htags)
    · rw [hr.importedTags, htagsLength]
      exact (Reader.toNat_ofNat_size (Nat.lt_of_lt_of_le hlt htags)).trans_lt hlt
  have hlength : (q.assembled m tables []).funcs.length ≤ p'.funcs.length := by
    have := hr.length
    rw [ha.funcs_length]
    simp only [assembled, length_append, length_map, hr.assembles.bodies]
    omega
  have htablesLength : (q.assembled m tables []).tables.length = p.tables.length := by
    rw [hr.parts]
    rfl
  rw [exportsToWire, hexports] at hfound
  have hall : ∀ {es xs found}, Forall₂ (Exported (q.assembled m tables [])) es xs →
      Forall₂ (fun x e => exportToWire p'.numbering x = .ok e) xs found →
      Forall₂ (fun e x => Exported q' e (x.retag (q.retagging new))) found xs ∧
        found.map Wire.Export.kind = es.map Wire.Export.kind := by
    intro es xs found hes hfound
    induction hes generalizing found with
    | nil =>
      cases hfound
      exact ⟨.nil, rfl⟩
    | cons hx _ ih =>
      cases hfound with
      | cons hfirst hrest =>
        obtain ⟨hxs, hkinds⟩ := ih hrest
        obtain ⟨hx, hkind⟩ := hx.written (ha.numbering_funcs hr.ordered) hfuncs.symm hlength
          (htables ▸ ha.numbering_tables hr.ordered) (by rw [htablesLength, htables]) htag hfirst
        exact ⟨.cons hx hxs, by rw [map_cons, map_cons, hkind, hkinds]⟩
  exact hall hr.assembles.exported (mapM_eq_ok_iff.mp hfound)

include ha hr in
theorem Altered.typesKnown (hextra : ∀ v ∈ extra, v.IsKnown) :
    ∀ t ∈ p'.typesWith extra, t.IsKnown := by
  intro t ht
  rw [typesWith, ha.types_eq, mem_append, mem_append] at ht
  rcases ht with (ht | ht) | ht
  · obtain ⟨_, -, hread⟩ := forall₂_mem_right (mapM_eq_ok_iff.mp hr.signatures.1) ht
    exact signatureOf_known hread
  · exact ha.known t ht
  · obtain ⟨v, hv, rfl⟩ := mem_map.mp ht
    intro w hw
    obtain rfl : w = v := by simpa using hw
    exact hextra w hv

theorem mapNumbered_signatureOf (h : ∀ t ∈ types, t.IsKnown) :
    mapNumbered signatureOf ((types.map Signature.toWire).map Wire.FuncType.full) = .ok types := by
  refine mapM_eq_ok_iff.mpr (forall₂_iff_get.mpr ⟨by simp, fun i hi hi' => ?_⟩)
  simp only [get_eq_getElem, getElem_zipIdx, getElem_map]
  exact Signature.signatureOf_full (h _ (getElem_mem hi')) _

include ha hr hm he hw in
/-- The module that is written reads as the reassembled program, but for bodies. -/
theorem Altered.assembles (hextra : ∀ v ∈ extra, v.IsKnown) (htypes : p'.types.length ≤ 2 ^ 32)
    (htags : p'.tags.length ≤ 2 ^ 32) :
    Assembles out.reread { q.withTag new with types := p'.typesWith extra } tables
      (exports.map (Export.retag (q.retagging new))) := by
  obtain ⟨-, -, -, -, -, -, htablesOut, htagsOut⟩ := ha.carries hr he
  have hfuncsOut : out.funcs = m.funcs ++ added.map Prod.fst := by
    rw [he.funcs, map_append, hw.types]
  have hqtypes : q.types = p.types := by
    rw [hr.parts]
    rfl
  have hmore : p.types.length ≤ (p'.typesWith extra).length := by
    rw [typesWith, ha.types_eq]
    simp only [length_append]
    omega
  constructor
  · rfl
  · refine ⟨p'.typesWith extra, ?_, (ha.imports hr hm he.imports htypes _).2⟩
    have htypesOut : out.types = (p'.typesWith extra).map Signature.toWire := he.types
    rw [Wire.Module.reread, htypesOut, mapNumbered_signatureOf (ha.typesKnown hr hextra)]
  · simp only [Wire.Module.reread, he.funcs, he.code, length_map]
  · intro t ht
    simp only [Wire.Module.reread, hfuncsOut, mem_append] at ht
    rcases ht with ht | ht
    · have := hr.assembles.funcTypes t ht
      rw [hqtypes] at this
      exact Nat.lt_of_lt_of_le this hmore
    · obtain ⟨body, hbody, rfl⟩ := mem_map.mp ht
      obtain ⟨f, -, hlt, htype, -⟩ := forall₂_mem_right (ha.added hw) hbody
      rw [htype, Reader.toNat_ofNat_size (Nat.lt_of_lt_of_le hlt htypes)]
      refine Nat.lt_of_lt_of_le hlt ?_
      simp only [typesWith, length_append]
      omega
  · simp only [Wire.Module.reread, htablesOut]
    rw [forall₂_map_left_iff, forall₂_same]
    intro t ht
    obtain ⟨_, -, elem, -, rfl⟩ := forall₂_mem_right hr.assembles.tabled ht
    exact ⟨elem, elemOf_tableToWire _, rfl⟩
  · simp only [Wire.Module.reread, htagsOut]
    intro t ht
    have := hr.assembles.tagTypes t ht
    rw [hqtypes] at this
    exact Nat.lt_of_lt_of_le this hmore
  · rw [forall₂_map_right_iff]
    obtain ⟨hfuncsLength, htablesLength, htagsLength⟩ := ha.reassembled_length hr he hw
    refine (ha.exported hr htags he.exports hfuncsLength htablesLength htagsLength).1.imp ?_
    exact fun _ _ hx => hx.congr rfl rfl rfl

include ha hr hm he in
theorem Altered.coded (htypes : p'.types.length ≤ 2 ^ 32) (htags : p'.tags.length ≤ 2 ^ 32) :
    out.Coded := by
  obtain ⟨hglobals, helements, hmemories, hdata, -, -, htables, -⟩ := ha.carries hr he
  constructor
  · constructor
    · exact (ha.imports hr hm he.imports htypes []).1
    · rw [htables]
      intro t ht
      obtain ⟨table, htable, rfl⟩ := mem_map.mp ht
      obtain ⟨source, hsource, elem, -, rfl⟩ := forall₂_mem_right hr.assembles.tabled htable
      exact tableToWire_proper (hm.tables source hsource).limits (hm.tables source hsource).init
    · rw [hmemories]
      exact hm.memories
    · rw [hglobals]
      exact hm.globals
    · intro e hexport
      have hkinds := (ha.exported hr htags he.exports rfl (congrArg List.length ha.tables_eq) rfl).2
      have hkind : e.kind ∈ m.exports.map Wire.Export.kind :=
        hkinds ▸ mem_map_of_mem hexport
      obtain ⟨e', he', hkind⟩ := mem_map.mp hkind
      rw [← hkind]
      exact hm.exports e' he'
    · rw [helements]
      exact hm.elements
    · rw [hdata]
      exact hm.data
  · exact he.typeDefs
  · exact he.types_coded
  · exact he.code_coded

include hr in
theorem ReadFrom.assembled_bare : ∀ f ∈ (q.assembled m tables exports).funcs,
    f.name = [] ∧ ∀ b, f.kind = .defined b → b = {} := by
  obtain ⟨types, -, himports⟩ := hr.assembles.imports
  have himported : ∀ f ∈ q.funcs, f.name = [] ∧ ∀ b, f.kind = .defined b → b = {} := by
    refine himports.induction (motive := fun q => ∀ f ∈ q.funcs, f.name = [] ∧
      ∀ b, f.kind = .defined b → b = {}) nofun fun q e r hq htakes => ?_
    cases htakes with
    | func _ =>
      intro f hf
      rcases mem_append.mp hf with hf | hf
      · exact hq f hf
      · rw [mem_singleton.mp hf]
        exact ⟨rfl, nofun⟩
    | _ => exact hq
  intro f hf
  rcases mem_append.mp hf with hf | hf
  · exact himported f hf
  · obtain ⟨t, -, rfl⟩ := mem_map.mp hf
    exact ⟨rfl, fun b hb => (FunctionKind.defined.inj hb).symm⟩

include hr in
theorem ReadFrom.unnamed_eq : s.funcs.map Function.unnamed = (q.assembled m tables exports).funcs := by
  rw [hr.renamed.funcs]
  refine (map_congr_left fun f hf => ?_).trans (map_id _)
  rw [Function.unnamed, ← (hr.assembled_bare f hf).1]
  rfl

include hr in
theorem ReadFrom.mapIdx_relink (κ : FuncId → FuncId → FuncId) (τ : TagId → TagId) :
    s.funcs.mapIdx (fun id f => f.relink (κ id) τ) = s.funcs := by
  refine ext_getElem? fun k => ?_
  rw [getElem?_mapIdx]
  cases hf : s.funcs[k]? with
  | none => rfl
  | some f =>
    have hmem : f.unnamed ∈ (q.assembled m tables exports).funcs := by
      rw [← hr.unnamed_eq]
      exact mem_map_of_mem (mem_of_getElem? hf)
    rw [Option.map_some, Function.relink_of_bare (f := f) fun b hb => (hr.assembled_bare _ hmem).2 b hb]

def reread (q p' : Program) (new : Option TagImport) (extra : List ValType) (out : Wire.Module)
    (tables : List Table) (exports : List Export) (others : List NameSubsection) : Program :=
  { q.reassembled p' new extra out tables exports with names := others, customs := p'.customs }

include ha hr he hw in
/-- Its custom sections give the names back. -/
theorem Altered.takeCustoms (hapart : p.NamesApart) (htypes : p'.types.length ≤ 2 ^ 32)
    (hfuncs : p'.funcs.length ≤ 2 ^ 32) (hlength : ∀ c ∈ names, c.data.length < 2 ^ 32) :
    ∃ others, Forall₂ (Refollows p'.numbering) p.names others ∧
      names = nameCustoms others (namesFrom 0 p'.funcs) ∧
      out.customs.foldl takeCustom (q.reassembled p' new extra out tables exports) =
        rebuilt (q.reread p' new extra out tables exports others) κ (q.retagging new)
          (more.map Function.bare) s := by
  obtain ⟨others, hothers, hnames⟩ := nameSection_eq_ok_iff.mp he.naming
  have hpnames : p'.names = p.names := by
    rw [ha.carried]
  rw [hpnames] at hothers
  rw [functionNames_eq (ha.numbering_funcs hr.ordered)] at hnames
  refine ⟨others, hothers, hnames, ?_⟩
  have hnamed : namesFrom 0 p'.funcs = namesFrom 0 (s.funcs ++ more.map Function.bare) := by
    refine namesFrom_congr ?_ 0
    rw [ha.funcs_eq, map_append, map_append, ← hr.names_eq, map_map]
    refine congrArg (· ++ _) (ext_getElem? fun k => ?_)
    simp [Function.comp_def, Function.redirect]
  have hfuncsOut : out.funcs = m.funcs ++ added.map Prod.fst := by
    rw [he.funcs, map_append, hw.types]
  have hadded : (added.map Prod.fst).map declared = (more.map Function.bare).map Function.unnamed := by
    have hall : Forall₂ (fun a b => a = b) ((added.map Prod.fst).map declared)
        ((more.map Function.bare).map Function.unnamed) := by
      simp only [forall₂_map_left_iff, forall₂_map_right_iff]
      refine (ha.added hw).flip.imp fun body f hbody => ?_
      obtain ⟨hlt, htype, -⟩ := hbody
      simp [declared, Function.unnamed, Function.bare, htype,
        Reader.toNat_ofNat_size (Nat.lt_of_lt_of_le hlt htypes)]
    rwa [forall₂_eq_eq_eq] at hall
  have hbare : (q.reassembled p' new extra out tables exports).funcs =
      (s.funcs ++ more.map Function.bare).map Function.unnamed := by
    rw [map_append, ← hadded, hr.unnamed_eq]
    simp [reassembled, assembled, withTag_eq, Wire.Module.reread, hfuncsOut]
  have hids : ∀ sub ∈ others, sub.id ≠ NameSubsection.funcs := by
    intro sub hsub
    obtain ⟨old, hold, hid, -⟩ := forall₂_mem_right hothers hsub
    rw [hid]
    exact hapart.names old hold
  have hcustoms : ∀ c ∈ p'.customs, c.name ≠ nameSectionName := by
    rw [ha.carried]
    exact hapart.customs
  obtain ⟨start, -, himports⟩ := hr.assembles.imports
  have hfresh : q.names = [] ∧ q.customs = [] := by
    rw [himports.takes_rest]
    exact ⟨rfl, rfl⟩
  have hnone : (q.reassembled p' new extra out tables exports).names = [] := by
    simp only [reassembled, assembled, withTag_eq, hfresh.1]
  rw [hnames, hnamed] at hlength
  rw [he.customs, foldl_append, hnames, hnamed, takeNames hbare hnone ?_ hids hlength,
    takeCustoms_plain hcustoms]
  · have hlocals : s.locals = (q.reassembled p' new extra out tables exports).locals := by
      rw [hr.renamed.rest]
      simp [reassembled, assembled, withTag_eq]
    have hplain : (q.reassembled p' new extra out tables exports).customs = [] := by
      simp only [reassembled, assembled, withTag_eq, hfresh.2]
    rw [rebuilt, hr.mapIdx_relink, hlocals, hplain, nil_append]
    rfl
  · rw [length_append, length_map, ← hr.bodies.toBodied.length, ← ha.funcs_length]
    exact hfuncs

include ha hr in
/-- The bodies that were read can be read in a program with more types, functions and tags. -/
theorem Altered.hosts (hfuncs : p'.funcs.length ≤ 2 ^ 32) (htags : p'.tags.length ≤ 2 ^ 32)
    {r : Program} (htypes : p.types <+: r.types) (htables : r.tables.length = p.tables.length)
    (htagsLength : r.tags.length = p'.tags.length) :
    s.Hosts r κ (q.retagging new) (fun func => .ofMaps (κ func) (q.retagging new))
      (more.map Function.bare) := by
  have hlength := hr.bodies.toBodied.length
  have hs : s.types = p.types ∧ s.tables = p.tables ∧ s.tags = p.tags := by
    rw [hr.bodies.rest]
    exact ⟨rfl, rfl, rfl⟩
  constructor
  · intro func vars _
    constructor
    · simpa [scope, hs.1] using htypes.length_le
    · intro n id hid
      obtain ⟨rfl, hlt⟩ := Scope.check_eq_ok hid
      have hcallee := ha.callees func n.toNat (hlength ▸ hlt)
      have hback : (UInt32.ofNat (κ func n.toNat)).toNat = κ func n.toNat := by
        refine Reader.toNat_ofNat_size (Nat.lt_of_lt_of_le hcallee ?_)
        rwa [← ha.funcs_length]
      have hread : (s.funcs.length + (more.map Function.bare).length) =
          p.funcs.length + more.length := by
        rw [length_map, hlength]
      simp only [Scope.funcRef, Renumbering.ofMaps, hback, hread]
      exact Scope.check_of_lt hcallee
    · intro n id hid
      obtain ⟨rfl, hlt⟩ := Scope.check_eq_ok hid
      exact Scope.check_of_lt (Nat.lt_of_lt_of_le hlt (Nat.le_add_right _ _))
    · intro n id hid
      obtain ⟨rfl, hlt⟩ := Scope.check_eq_ok hid
      have hlt : n.toNat < p.tags.length := hs.2.2 ▸ hlt
      have hmoved : q.retagging new n.toNat < p'.tags.length := by
        rw [ha.tags_length]
        exact shiftTag_lt hlt
      have hback : (UInt32.ofNat (q.retagging new n.toNat)).toNat = q.retagging new n.toNat :=
        Reader.toNat_ofNat_size (Nat.lt_of_lt_of_le hmoved htags)
      simp only [Scope.tagRef, Renumbering.ofMaps, hback]
      exact Scope.check_of_lt (htagsLength ▸ hmoved)
    · intro n id hid
      obtain ⟨rfl, hlt⟩ := Scope.check_eq_ok hid
      refine Scope.check_of_lt ?_
      rw [htables, ← hs.2.1]
      exact hlt
    · exact fun n var hvar => hvar
  · intro func hfunc
    have hlt : s.typeOf func < p.types.length := by
      have hfunc : func < p.funcs.length := hlength ▸ hfunc
      rw [← hr.bodies.toBodied.typeOf, typeOf, getElem?_eq_getElem hfunc]
      exact hr.funcTypes _ (getElem_mem hfunc)
    obtain ⟨rest, hrest⟩ := htypes
    rw [params, params, ← hrest, hs.1, getElem?_append_left hlt]

include ha hr hm he hw in
/-- Reading what is written for an altered program leads to its functions with new links, and goes
on with the functions that were added. -/
theorem Altered.ofModule_reread (hapart : p.NamesApart) (hextra : ∀ v ∈ extra, v.IsKnown)
    (htypes : p'.types.length ≤ 2 ^ 32) (hfuncs : p'.funcs.length ≤ 2 ^ 32)
    (htags : p'.tags.length ≤ 2 ^ 32) (hlength : ∀ c ∈ names, c.data.length < 2 ^ 32) :
    ∃ others, Forall₂ (Refollows p'.numbering) p.names others ∧
      names = nameCustoms others (namesFrom 0 p'.funcs) ∧
      ofModule out.reread = foldNumbered (fun r i code => r.takeBody (p.funcs.length + i) code)
        (rebuilt (q.reread p' new extra out tables exports others) κ (q.retagging new)
          (more.map Function.bare) p) (added.map Prod.snd) := by
  obtain ⟨others, hothers, hnames, hcustoms⟩ := ha.takeCustoms hr he hw hapart htypes hfuncs hlength
  refine ⟨others, hothers, hnames, ?_⟩
  have hskeleton : skeleton out.reread = .ok (rebuilt (q.reread p' new extra out tables exports others)
      κ (q.retagging new) (more.map Function.bare) s) :=
    skeleton_eq_ok_iff.mpr ⟨_, _, _, ha.assembles hr hm he hw hextra htypes htags, hcustoms.symm⟩
  have hcode : out.reread.code = old.map Prod.snd ++ added.map Prod.snd := by
    rw [← map_append]
    exact he.code
  have hadded := (ha.added hw).length_eq
  have hold := hw.length
  have hplength := hr.length
  have hslength := hr.bodies.toBodied.length
  rw [ofModule, hskeleton, hcode]
  have hhosts : s.Hosts (q.reread p' new extra out tables exports others) κ (q.retagging new)
      (fun func => .ofMaps (κ func) (q.retagging new)) (more.map Function.bare) := by
    obtain ⟨-, htablesLength, htagsLength⟩ := ha.reassembled_length hr he hw
    refine ha.hosts hr hfuncs htags ?_ htablesLength htagsLength
    refine ⟨types ++ extra.map (Signature.mk [] [·]), ?_⟩
    rw [← append_assoc, ← ha.types_eq]
    rfl
  have hcodes : (old.map Prod.snd).length = m.code.length := by rw [length_map, hold]
  have hbodies := takeBodies_rebuilt hhosts (by omega) hcodes ?_ hr.read
  · have hfirst : ∀ {r : Program}, r.funcs.length = s.funcs.length + more.length →
        r.funcs.length - (old.map Prod.snd ++ added.map Prod.snd).length = q.funcs.length := by
      intro r hlength
      rw [length_append, length_map, length_map]
      omega
    rw [ok_bind, hfirst (by simp [rebuilt]), foldNumbered_append, hbodies, ok_bind, length_map]
    simp only [hold, ← Nat.add_assoc, ← hplength]
  · intro i code code' hi hi'
    rw [getElem?_map] at hi'
    obtain ⟨body, hbody, rfl⟩ := Option.map_eq_some_iff.mp hi'
    exact hw.recoded i code body hi hbody

end Program

end HostCatch
