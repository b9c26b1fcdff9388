import HostCatch.Proofs.Program.Reassembling

namespace HostCatch

open List

namespace Program

section Sizes

variable {m out : Wire.Module} {p p' q s : Program} {tables : List Table} {exports : List Export}
variable {κ : FuncId → FuncId → FuncId} {new : Option TagImport} {types : List Signature}
variable {more : List Function} {old added : List (UInt32 × Wire.FuncBody)} {extra : List ValType}
variable {names : List Wire.Custom} {w : Bytes}

/-- What is written has a byte or more for every entity, so a length that can be written bounds
their numbers. -/
structure Small (p : Program) (names : List Wire.Custom) : Prop where
  types : p.types.length ≤ 2 ^ 32
  params : ∀ t ∈ p.types, t.params.length + 2 < 2 ^ 32
  funcs : p.funcs.length ≤ 2 ^ 32
  tables : p.tables.length ≤ 2 ^ 32
  tags : p.tags.length ≤ 2 ^ 32
  names : ∀ c ∈ names, c.data.length < 2 ^ 32

/-- A length that can be written bounds all that was written. -/
theorem Altered.small (ha : p.Altered p' κ new types more) (hr : ReadFrom m p q s tables exports)
    (he : p'.Emits out (old ++ added) extra names) (hw : out.encode = .ok w) (hlength : w.length < 2 ^ 32) :
    p'.Small names := by
  have hwithin := Wire.Module.within_encode he.typeDefs hw
  have himports : out.imports.length = p'.imports.length :=
    (mapM_eq_ok_iff.mp he.imports).length_eq.symm
  constructor
  · have hle : p'.types.length ≤ out.types.length := by
      rw [he.types, length_map, length_append]
      exact Nat.le_add_right _ _
    have htypes := hwithin.types
    omega
  · intro t ht
    have hmem : t.toWire ∈ out.types := by
      rw [he.types]
      exact mem_map_of_mem (mem_append_left _ ht)
    have hbytes := hwithin.signatures _ hmem
    have hparams := t.length_lt_toWire
    omega
  · have hfuncs := hwithin.funcs
    have horder := congrArg List.length (ha.numbering_funcs hr.ordered)
    have himported := length_filterMap_le Import.func? p'.imports
    have hdefined : out.funcs.length = p'.definedFuncs.length := by
      rw [he.funcs, length_map]
      exact (run_mapM_eq_ok he.run).length_eq.symm
    rw [Program.numbering, length_append, length_range] at horder
    omega
  · have htables := hwithin.tables
    have htablesOut : out.tables = tables.map tableToWire := (ha.carries hr he).2.2.2.2.2.2.1
    have himported := length_filterMap_le Import.table? p.imports
    have hread : p.tables.length = q.tables.length + tables.length := by
      rw [hr.parts]
      simp [assembled]
    have hle : p.imports.length ≤ p'.imports.length := by
      rw [ha.imports_eq, length_append]
      exact Nat.le_add_right _ _
    rw [htablesOut, length_map, himports] at htables
    rw [hr.importedTables] at himported
    rw [ha.tables_eq, hread]
    omega
  · have htags := hwithin.tags
    have htagsOut : out.tags = m.tags := (ha.carries hr he).2.2.2.2.2.2.2
    have himported := length_filterMap_le Import.tag? p.imports
    have hread : p.tags.length = q.tags.length + m.tags.length := by
      rw [hr.parts]
      simp [assembled]
    have hnew : p'.imports.length = p.imports.length + new.toList.length := by
      rw [ha.imports_eq, length_append]
      cases new <;> rfl
    rw [htagsOut, himports, hnew] at htags
    rw [hr.importedTags] at himported
    rw [ha.tags_length, hread]
    omega
  · intro c hc
    exact (hwithin.customs c (by rw [he.customs]; exact mem_append_left _ hc)).trans hlength

end Sizes

section Fixed

variable {m out : Wire.Module} {p q s : Program} {tables : List Table} {exports : List Export}
variable {bodies : List (UInt32 × Wire.FuncBody)} {extra : List ValType}
variable {names : List Wire.Custom} {others : List NameSubsection}

theorem emit_eq_ok_iff {b : Bytes} : p.emit = .ok b ↔
    ∃ out, p.toModule = .ok out ∧ out.validate = .ok () ∧ out.encode = .ok b := by
  simp only [emit, bind_eq_ok_iff, emitting_eq_ok_iff, liftM_abort_eq_ok_iff]
  constructor
  · rintro ⟨out, hout, ⟨⟩, hvalid, hb⟩
    exact ⟨out, hout, hvalid, hb⟩
  · rintro ⟨out, hout, hvalid, hb⟩
    exact ⟨out, hout, (), hvalid, hb⟩

theorem ReadFrom.locals_length_le (hr : ReadFrom m p q s tables exports) :
    ∀ f ∈ p.funcs, ∀ b, f.kind = .defined b → b.locals.length ≤ p.locals.length := by
  intro f hf b hkind
  obtain ⟨k, hk⟩ := List.mem_iff_getElem?.mp hf
  obtain ⟨i, rfl, hi⟩ := hr.defined hk hkind
  obtain ⟨start, declared, b', f', hf', hkind', hread, hvars⟩ :=
    hr.body (getElem?_eq_getElem hi)
  cases hk.symm.trans hf'
  cases hkind.symm.trans hkind'
  have hlength := congrArg List.length hread.vars
  have hparams := hread.params
  rw [length_append, length_range'] at hlength
  by_contra hlt
  -- The last variable would have its type behind all the types that there are.
  have hlast : (p.params (p.typeOf (q.funcs.length + i)) ++ declared).length - 1 <
      (p.params (p.typeOf (q.funcs.length + i)) ++ declared).length := by
    rw [length_append]
    omega
  have hvar := (List.getElem?_eq_some_iff.mp (hvars _ _ (List.getElem?_eq_getElem hlast))).1
  rw [List.length_append] at hvar
  omega

theorem ReadFrom.namesApart (hr : ReadFrom m p q s tables exports)
    (h : hasBrokenNames m = false) : p.NamesApart := by
  have hbase : (q.assembled m tables exports).NamesApart := by
    obtain ⟨types, -, himports⟩ := hr.assembles.imports
    rw [himports.takes_rest]
    constructor <;> simp [assembled]
  have hs : s.NamesApart := by
    rw [hr.customs]
    refine takeCustoms_namesApart hbase fun c hc hname => ?_
    by_contra hbroken
    have hany : hasBrokenNames m = true :=
      any_eq_true.mpr ⟨c, hc, by simpa [hname] using hbroken⟩
    rw [h] at hany
    cases hany
  rw [hr.bodies.rest]
  exact ⟨hs.names, hs.customs⟩

theorem mapIdx_relink_id : ∀ fs : List Function, fs.mapIdx (fun _ f => f.relink id id) = fs := by
  refine mapIdx_fixed ?_
  rintro ⟨name, type, kind⟩
  cases kind <;> simp [Function.relink, Body.relink, Seq.relink_id]

/-- A program that did not change is read back with the subsections of names in order. -/
theorem ReadFrom.rebuilt_self (hr : ReadFrom m p q s tables exports)
    (he : p.Emits out (bodies ++ []) [] names) :
    rebuilt (q.reread p none [] out tables exports others) (fun _ => id) (q.retagging none) [] p =
      { p with names := others } := by
  have htags : p.tags = q.tags ++ m.tags.map tagged := by
    rw [hr.parts]
    rfl
  have hexports : p.exports.map (Export.retag id) = p.exports := by
    rw [Export.retag_id, map_id]
  simp only [rebuilt, reread, (Altered.refl p).reassembled_eq hr he, retagging, Option.toList_none,
    length_nil, shiftTag_zero, mapIdx_relink_id, Option.map_none, append_nil, ← htags, hexports,
    typesWith, map_nil]

theorem Emits.renamed (h : p.Emits out bodies extra (nameCustoms others (namesFrom 0 p.funcs)))
    (hp : p.Ordered) (hothers : Forall₂ (Refollows p.numbering) p.names others)
    (hlength : ∀ c ∈ nameCustoms others (namesFrom 0 p.funcs), c.data.length < 2 ^ 32) :
    { p with names := others }.Emits out bodies extra (nameCustoms others (namesFrom 0 p.funcs)) := by
  have hagain : Forall₂ (Refollows p.numbering) others others := by
    refine forall₂_same.mpr fun s' hs' => ?_
    obtain ⟨s, -, hs⟩ := forall₂_mem_right hothers hs'
    rw [hp.numbering]
    exact hs.again (length_lt_of_nameCustoms hlength hs') _ _ _
  have hnames : p.functionNames p.numbering = namesFrom 0 p.funcs :=
    functionNames_eq (by rw [hp.numbering])
  have hnaming : { p with names := others }.nameSection p.numbering =
      .ok (nameCustoms others (namesFrom 0 p.funcs)) :=
    nameSection_eq_ok_iff.mpr ⟨others, hagain, by rw [← hnames]; rfl⟩
  exact { h with naming := hnaming }

/-- What a program that was read is written as is read back as the program, with the subsections of
names in order, and this is written so again. -/
theorem ReadFrom.reread (hr : ReadFrom m p q s tables exports) (hm : m.Proper)
    (hapart : p.NamesApart) (hlocals : p.locals.length < 2 ^ 32) (hout : p.toModule = .ok out)
    {b : Bytes} (hb : out.encode = .ok b) (hlength : b.length < 2 ^ 32) : ∃ others,
      Wire.Module.decode b = .ok out.reread ∧ ofModule out.reread = .ok { p with names := others } ∧
      { p with names := others }.toModule = .ok out := by
  obtain ⟨bodies, extra, names, he⟩ := toModule_eq_ok_iff.mp hout
  have ha := Altered.refl p
  obtain ⟨old, added, rfl, hw⟩ := ha.rewrites hr
    (fun f hf b hkind => (hr.locals_length_le f hf b hkind).trans_lt hlocals) he
  obtain ⟨rfl, rfl⟩ : added = [] ∧ extra = [] := by
    have hmore := hw.more
    simp only [length_nil, range'_zero, mapM_nil] at hmore
    cases hmore
    exact ⟨rfl, rfl⟩
  have hsmall := ha.small hr he hb hlength
  obtain ⟨others, hothers, rfl, hread⟩ := ha.ofModule_reread hr hm he hw hapart nofun hsmall.types
    hsmall.funcs hsmall.tags hsmall.names
  refine ⟨others, ?_, ?_, ?_⟩
  · exact Wire.Module.decode_encode (ha.coded hr hm he hsmall.types hsmall.tags) hb hlength
  · rw [hread, ← hr.rebuilt_self he]
    rfl
  · exact toModule_eq_ok_iff.mpr ⟨_, _, _, he.renamed hr.ordered hothers hsmall.names⟩

end Fixed

/-- What a program is written as is read as the program, but for the order of names, and written as
the same bytes again. -/
theorem parse_emit {data b : Bytes} {p : Program} (hp : parse data = .ok p)
    (hnames : ∀ m, parseModule data = .ok m → hasBrokenNames m = false) (hb : p.emit = .ok b)
    (hlocals : p.locals.length < 2 ^ 32) (hlength : b.length < 2 ^ 32) :
    ∃ p', parse b = .ok p' ∧ { p' with names := p.names } = p ∧ p'.emit = .ok b := by
  obtain ⟨m, hdecode, hm⟩ := parse_eq_ok_iff.mp hp
  obtain ⟨out, hout, hvalid, hencode⟩ := emit_eq_ok_iff.mp hb
  obtain ⟨q, s, tables, exports, hr⟩ := ofModule_eq_ok hm
  have hapart := hr.namesApart (hnames m (by rw [parseModule, hdecode]))
  obtain ⟨others, hread, hagain, hout'⟩ :=
    hr.reread (Wire.Module.decode_proper hdecode) hapart hlocals hout hencode hlength
  exact ⟨_, parse_eq_ok_iff.mpr ⟨_, hread, hagain⟩, rfl, emit_eq_ok_iff.mpr ⟨out, hout', hvalid, hencode⟩⟩

/-- A function with two groups of variables of one type and an `else` that holds nothing, and a
section that names the module. -/
def spareElse : Bytes :=
  [0x00, 0x61, 0x73, 0x6D, 0x01, 0x00, 0x00, 0x00,
   0x01, 0x04, 0x01, 0x60, 0x00, 0x00,
   0x03, 0x02, 0x01, 0x00,
   0x0A, 0x13, 0x01, 0x11, 0x02, 0x01, 0x7F, 0x01, 0x7F,
   0x02, 0x40, 0x41, 0x00, 0x04, 0x40, 0x05, 0x0B, 0x0C, 0x00, 0x0B, 0x0B,
   0x00, 0x09, 0x04, 0x6E, 0x61, 0x6D, 0x65, 0x00, 0x02, 0x01, 0x6D]

theorem spareElse_parse_emit : ∃ p b p', parse spareElse = .ok p ∧ p.emit = .ok b ∧
    b ≠ spareElse ∧ parse b = .ok p' ∧ { p' with names := p.names } = p ∧ p'.emit = .ok b := by
  have hrun : (match parse spareElse with
      | .ok p =>
        match p.emit with
        | .ok b => decide (p.locals.length = 2 ∧ b.length = 47)
        | .error _ => false
      | .error _ => false) = true := by decide +kernel
  have hwhole : (parseModule spareElse).toOption.any hasBrokenNames = false := by decide +kernel
  split at hrun
  next p hp =>
    split at hrun
    next b hb =>
      obtain ⟨hlocals, hlength⟩ := of_decide_eq_true hrun
      have hnames : ∀ m, parseModule spareElse = .ok m → hasBrokenNames m = false := by
        intro m hm
        rwa [hm] at hwhole
      obtain ⟨p', hread, hsame, hagain⟩ := parse_emit hp hnames hb (by omega) (by omega)
      refine ⟨p, b, p', hp, hb, ?_, hread, hsame, hagain⟩
      rintro rfl
      cases hlength
    next => cases hrun
  next => cases hrun

end Program

end HostCatch
