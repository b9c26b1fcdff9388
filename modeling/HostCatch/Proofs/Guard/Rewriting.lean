import HostCatch.Proofs.Guard.Framing

namespace HostCatch

open List

namespace Program

theorem Exported.exportToWire {p : Program} {e : Wire.Export} {x : Export} (h : Exported p e x) :
    Program.exportToWire ⟨List.range p.funcs.length, List.range p.tables.length,
      List.range p.tags.length⟩ x = .ok e := by
  obtain ⟨name, kind, index⟩ := e
  cases h with
  | func hkind hlt | table hkind hlt | tag hkind hlt =>
    simp only at hkind hlt
    simp [Program.exportToWire, Numbering.func, Numbering.table, Numbering.tag,
      Numbering.index_range_toNat hlt, Export.kind, hkind]
  | other => rfl

section Numbered

variable {numbering numbering' : Numbering} (hfuncs : numbering.funcs = numbering'.funcs)

include hfuncs

theorem followExpr_congr : followExpr numbering = followExpr numbering' := by
  have hmoves : numbering.movesFuncs = numbering'.movesFuncs := by
    simp [Numbering.movesFuncs, hfuncs]
  have href : followRef numbering = followRef numbering' := by
    funext i
    simp only [followRef, hfuncs]
  funext expr
  simp only [followExpr, hmoves, href]

theorem emitGlobal_congr : emitGlobal numbering = emitGlobal numbering' := by
  funext i g
  simp only [emitGlobal, followExpr_congr hfuncs]

theorem startIndex_congr (p : Program) : p.startIndex numbering = p.startIndex numbering' := by
  have hfunc : numbering.func = numbering'.func := by
    funext id
    simp only [Numbering.func, hfuncs]
  rw [startIndex, hfunc, startIndex]

theorem emitElement_congr (htables : numbering.tables = numbering'.tables) :
    emitElement numbering = emitElement numbering' := by
  funext i e
  simp only [emitElement, followElement, followExpr_congr hfuncs, hfuncs, htables]

end Numbered

section Read

variable {m : Wire.Module} {p q s : Program} {tables : List Table} {exports : List Export}
variable (hr : ReadFrom m p q s tables exports)

include hr

theorem ReadFrom.exportsToWire : p.exportsToWire p.numbering = .ok m.exports := by
  refine mapM_eq_ok_iff.mpr ?_
  rw [hr.exports_eq, hr.ordered.numbering]
  have hfuncs : (q.assembled m tables []).funcs.length = p.funcs.length := by
    rw [hr.length, ← hr.assembles.bodies]
    simp [assembled]
  have htables : (q.assembled m tables []).tables.length = p.tables.length := by
    rw [hr.parts]
    rfl
  have htags : (q.assembled m tables []).tags.length = p.tags.length := by
    rw [hr.parts]
    rfl
  refine hr.assembles.exported.flip.imp fun x e hx => ?_
  exact (hx.congr hfuncs.symm htables.symm htags.symm).exportToWire

theorem ReadFrom.emitFunctions {bodies : List (UInt32 × Wire.FuncBody)}
    (hfuncs : m.funcs = bodies.map Prod.fst) (hcode : m.code = bodies.map Prod.snd)
    (hlasting : ∀ body ∈ bodies, Lasting body.2) :
    Emit.Gives (p.definedFuncs.mapM (p.emitFunction p.numbering)) bodies := by
  have hdefined : p.definedFuncs = List.range' q.funcs.length bodies.length := by
    rw [hr.ordered.definedFuncs, hr.imported, hr.length, Nat.add_sub_cancel_left, hcode, length_map]
  rw [hdefined]
  refine Emit.Gives.mapM (forall₂_iff_get.mpr ⟨length_range', fun i hi hi' => ?_⟩)
  have hbody : bodies[i]? = some (bodies.get ⟨i, hi'⟩) := getElem?_eq_getElem hi'
  simp only [get_eq_getElem, getElem_range', Nat.one_mul]
  refine hr.emitFunction_lasting ?_ ?_ (hlasting _ (get_mem bodies ⟨i, hi'⟩))
  · rw [hfuncs, getElem?_map, hbody]
    rfl
  · rw [hcode, getElem?_map, hbody]
    rfl

end Read

namespace Passage

variable {p : Program} {o : Outcome} {out : Bytes} (h : Passage p o out)

theorem result_types : h.result.types = o.program.typesWith h.extra := by
  rw [h.reissued.rest]

theorem result_namings : h.result.names = h.others := by
  rw [h.reissued.rest]

/-- What is read after a pass differs from what was written in few parts. -/
theorem result_carried : h.result = { o.program with
    types := h.result.types
    funcs := h.result.funcs
    tags := h.result.tags
    imports := h.result.imports
    exports := h.result.exports
    locals := h.result.locals
    names := h.result.names } := by
  have hold : ∀ {r : Program}, r = { p with
      types := r.types, funcs := r.funcs, tags := r.tags, imports := r.imports, exports := r.exports,
      locals := r.locals, names := r.names } → r = { o.program with
      types := r.types, funcs := r.funcs, tags := r.tags, imports := r.imports, exports := r.exports,
      locals := r.locals, names := r.names } := by
    intro r hr
    refine hr.trans ?_
    rw [h.rewrapped.altered.carried]
  exact hold h.framed.rest

theorem result_tables : h.result.tables = o.program.tables := by
  rw [h.result_carried]

theorem result_length : h.result.funcs.length = o.program.funcs.length := by
  rw [h.reissued.length, h.rewrapped.altered.funcs_length]

theorem result_heads (id : FuncId) :
    h.result.funcs[id]?.map (fun f => (f.name, f.type, f.import?)) =
      o.program.funcs[id]?.map (fun f => (f.name, f.type, f.import?)) := by
  rcases Nat.lt_or_ge id p.funcs.length with hlt | hge
  · have hf := getElem?_eq_getElem hlt
    rw [h.reissued.kept id _ hf, h.rewrapped.altered.funcs_kept hf, Option.map_some, Option.map_some,
      Function.import?_relink, Function.import?_redirect]
    rfl
  · obtain ⟨n, rfl⟩ := Nat.exists_eq_add_of_le hge
    rw [h.rewrapped.altered.funcs_added]
    cases hg : h.more[n]? with
    | none =>
      have hlength : h.result.funcs.length ≤ p.funcs.length + n := by
        rw [h.reissued.length]
        exact Nat.add_le_add_left (getElem?_eq_none_iff.mp hg) _
      rw [getElem?_eq_none hlength]
    | some g =>
      obtain ⟨b, -, hb, -⟩ := h.reissued.added n g hg
      obtain ⟨b', hkind⟩ := Function.kind_of_not_isImported
        (h.rewrapped.altered.defined g (mem_of_getElem? hg))
      simp [hb, Function.import?, hkind]

theorem result_names (id : FuncId) : (h.result.funcs.map Function.name)[id]? =
    (o.program.funcs.map Function.name)[id]? := by
  have hheads := congrArg (Option.map Prod.fst) (h.result_heads id)
  simpa [Option.map_map, Function.comp_def] using hheads

theorem result_tag {id : TagId} {t : Tag} (ht : p.tags[id]? = some t)
    (himported : id < h.imported.tags.length) : h.result.tags[id]? = some t := by
  have hshift := getElem?_shiftTag h.read.tags_length_le h.new (f := fun t => ⟨t.type, 0, some p.imports.length⟩) ht
  rw [h.reissued.rest]
  rwa [shiftTag, if_pos himported] at hshift

theorem importToWire {i : Import} (hi : i ∈ p.imports) :
    h.result.importToWire i = o.program.importToWire i := by
  obtain ⟨entry, hentry⟩ := getElem?_of_mem hi
  obtain ⟨module, name, target⟩ := i
  have hlinked := h.read.paired.linked
  cases target with
  | func id =>
    obtain ⟨f, hf, -⟩ := hlinked.toFunc entry _ id hentry rfl
    simp only [Program.importToWire, h.reissued.kept id f hf, h.rewrapped.altered.funcs_kept hf]
    rfl
  | table id =>
    simp only [Program.importToWire, h.result_tables]
  | tag id =>
    obtain ⟨t, ht, -⟩ := hlinked.toTag entry _ id hentry rfl
    have himported : id < h.imported.tags.length := by
      have hmem : id ∈ p.imports.filterMap Import.tag? := mem_filterMap.mpr ⟨_, hi, rfl⟩
      rw [h.read.ordered.tags.1, mem_range, h.read.importedTags] at hmem
      exact hmem
    have hprogram : o.program.tags[id]? = some t := by
      rw [h.rewrapped.altered.tags_eq]
      exact getElem?_append_some _ ht
    simp only [Program.importToWire, h.result_tag ht himported, hprogram]
  | carried desc => rfl

theorem importsToWire : h.result.importsToWire = o.program.importsToWire := by
  have hold : p.imports.mapM h.result.importToWire = p.imports.mapM o.program.importToWire :=
    mapM_congr fun i hi => h.importToWire hi
  have hresult : h.result.imports = p.imports ++
      (h.new.map fun t => ⟨t.module, t.name, .tag h.imported.tags.length⟩).toList := by
    rw [h.reissued.rest]
  rw [Program.importsToWire, Program.importsToWire, hresult, h.rewrapped.altered.imports_eq,
    mapM_append, mapM_append, hold]
  cases hnew : h.new with
  | none => rfl
  | some t =>
    have htag : h.result.tags[h.imported.tags.length]? = some ⟨t.type, 0, some p.imports.length⟩ := by
      rw [h.reissued.rest, hnew]
      simp [h.read.tags_length_le]
    have hprogram : o.program.tags[p.tags.length]? = some ⟨t.type, 0, some p.imports.length⟩ := by
      rw [h.rewrapped.altered.tags_eq, hnew]
      simp
    simp [Program.importToWire, htag, hprogram]

/-- What was read again is written as before. -/
theorem emits_result : h.result.Emits h.written h.bodies []
    (nameCustoms h.others (namesFrom 0 o.program.funcs)) := by
  obtain ⟨q, s, tables, exports, hr⟩ := ofModule_eq_ok h.reread
  have hnumbering := hr.ordered.numbering
  have hfuncs : h.result.numbering.funcs = o.program.numbering.funcs := by
    rw [hnumbering, h.rewrapped.altered.numbering_funcs h.read.ordered, h.result_length]
  have htables : h.result.numbering.tables = o.program.numbering.tables := by
    rw [hnumbering, h.rewrapped.altered.numbering_tables h.read.ordered, h.result_tables,
      h.rewrapped.altered.tables_eq]
  have hnames : h.result.functionNames h.result.numbering = namesFrom 0 o.program.funcs := by
    rw [functionNames_eq (by rw [hnumbering])]
    exact namesFrom_congr (ext_getElem? h.result_names) 0
  have hagain : Forall₂ (Refollows h.result.numbering) h.result.names h.others := by
    rw [h.result_namings, hnumbering]
    refine forall₂_same.mpr fun s' hs' => ?_
    obtain ⟨s, -, hs⟩ := forall₂_mem_right h.names hs'
    exact hs.again (length_lt_of_nameCustoms h.small.names hs') _ _ _
  have he := h.emits
  exact {
    run := hr.emitFunctions he.funcs he.code h.lasting []
    imports := h.importsToWire.trans he.imports
    globals := by
      rw [emitGlobal_congr hfuncs, congrArg Program.globals h.result_carried]
      exact he.globals
    elements := by
      rw [emitElement_congr hfuncs htables, congrArg Program.elements h.result_carried]
      exact he.elements
    exports := hr.exportsToWire
    start := by
      rw [startIndex_congr hfuncs, startIndex, congrArg Program.start h.result_carried]
      exact he.start
    naming := nameSection_eq_ok_iff.mpr ⟨h.others, hagain, by rw [hnames]⟩
    types := by
      rw [h.result_types]
      simpa [typesWith] using he.types
    typeDefs := he.typeDefs
    funcs := he.funcs
    tables := by
      rw [definedTables, h.result_tables]
      exact he.tables
    memories := he.memories.trans (congrArg Program.memories h.result_carried).symm
    tags := ((Altered.refl h.result).definedTags hr).symm
    dataCount := he.dataCount.trans (congrArg Program.dataCount h.result_carried).symm
    code := he.code
    data := he.data.trans (congrArg Program.data h.result_carried).symm
    customs := by
      rw [congrArg Program.customs h.result_carried]
      exact he.customs }

theorem emit_result : h.result.emit = .ok out :=
  emit_eq_ok_iff.mpr ⟨h.written, toModule_eq_ok_iff.mpr ⟨_, _, _, h.emits_result⟩, h.valid, h.encoded⟩

end Passage

end Program

end HostCatch
