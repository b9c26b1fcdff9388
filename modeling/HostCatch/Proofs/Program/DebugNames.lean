import HostCatch.Proofs.Program.RoundTrip
import HostCatch.Proofs.Wire.Cutting

namespace HostCatch

open List

/-- Where names are listed by index, the list can be read. Other subsections may hold any bytes. -/
structure NameSubsection.Readable (s : NameSubsection) : Prop where
  nested : s.id = NameSubsection.locals ∨ s.id = NameSubsection.labels →
    ∃ entries, Reader.indirectNameMap.run s.data = .ok entries
  listed : s.id = NameSubsection.tables ∨ s.id = NameSubsection.tags →
    ∃ entries, Reader.nameMap.run s.data = .ok entries

namespace Program

/-- A program without names of functions, subsections of names and custom sections. -/
def unnamed (p : Program) : Program :=
  { p with funcs := p.funcs.map Function.unnamed, names := [], customs := [] }

theorem Renamed.unnamed_eq {p q : Program} (h : Renamed p q) : q.unnamed = p.unnamed := by
  rw [unnamed, unnamed, h.funcs, h.rest]

theorem renamed_iff {p q : Program} : Renamed p q ↔ q.unnamed = p.unnamed := by
  refine ⟨Renamed.unnamed_eq, fun h => ⟨?_, congrArg Program.funcs h⟩⟩
  cases p
  cases q
  simp only [unnamed, Program.mk.injEq] at h ⊢
  simp only [h, and_self]

section Reading

theorem setBody_unnamed (p : Program) (func : FuncId) (b : Body) :
    p.unnamed.setBody func b = (p.setBody func b).unnamed := by
  have hfuncs : (p.funcs.map Function.unnamed).modify func (fun f => { f with kind := .defined b }) =
      (p.funcs.modify func fun f => { f with kind := .defined b }).map Function.unnamed := by
    refine ext_getElem? fun k => ?_
    simp only [getElem?_map, getElem?_modify]
    split <;> cases p.funcs[k]? <;> rfl
  unfold setBody unnamed
  dsimp only
  rw [hfuncs]

theorem typeOf_unnamed (p : Program) (func : FuncId) : p.unnamed.typeOf func = p.typeOf func := by
  unfold typeOf unnamed
  dsimp only
  rw [getElem?_map, Option.map_map]
  rfl

theorem takeBody_unnamed (p : Program) (func : FuncId) (code : Wire.FuncBody) :
    p.unnamed.takeBody func code = unnamed <$> p.takeBody func code := by
  have htype : (p.unnamed.funcs[func]?.map Function.type).getD 0 =
      (p.funcs[func]?.map Function.type).getD 0 := p.typeOf_unnamed func
  have hlength : p.unnamed.funcs.length = p.funcs.length := length_map _
  unfold takeBody
  rw [htype, hlength]
  simp only [map_bind, map_pure]
  refine bind_congr fun declared => bind_congr fun seqs => ?_
  exact congrArg pure
    (setBody_unnamed { p with locals := p.locals ++ p.params (p.typeOf func) ++ declared } func _)

theorem foldNumbered_unnamed {α : Type} {f : Program → Nat → α → Except Fault Program}
    (h : ∀ p i a, f p.unnamed i a = unnamed <$> f p i a) (p : Program) (as : List α) :
    foldNumbered f p.unnamed as = unnamed <$> foldNumbered f p as := by
  unfold foldNumbered
  induction as.zipIdx generalizing p with
  | nil => rfl
  | cons e entries ih =>
    obtain ⟨a, i⟩ := e
    simp only [foldlM_cons, h, map_bind, bind_map_left]
    exact bind_congr fun q => ih q

/-- Custom sections change nothing but names. -/
theorem ofModule_customs {m : Wire.Module} {p : Program} (h : ofModule m = .ok p)
    (customs : List Wire.Custom) : ∃ q, ofModule { m with customs } = .ok q ∧ Renamed p q := by
  obtain ⟨s, hs, h⟩ := of_bind h
  obtain ⟨q, tables, exports, hassembles, rfl⟩ := skeleton_eq_ok_iff.mp hs
  have hskeleton : skeleton { m with customs } =
      .ok (customs.foldl takeCustom (q.assembled m tables exports)) :=
    skeleton_eq_ok_iff.mpr ⟨q, tables, exports, { hassembles with }, rfl⟩
  have hrenamed : ∀ customs : List Wire.Custom,
      Renamed (q.assembled m tables exports) (customs.foldl takeCustom (q.assembled m tables exports)) :=
    fun customs => foldl_renamed takeCustom_renamed customs _
  have hread : ∀ first, unnamed <$> foldNumbered (fun p i code => p.takeBody (first + i) code)
      (customs.foldl takeCustom (q.assembled m tables exports)) m.code =
        unnamed <$> foldNumbered (fun p i code => p.takeBody (first + i) code)
          (m.customs.foldl takeCustom (q.assembled m tables exports)) m.code := by
    intro first
    have hfold := foldNumbered_unnamed (f := fun p i code => p.takeBody (first + i) code)
      fun p i code => takeBody_unnamed p (first + i) code
    rw [← hfold, ← hfold, (hrenamed _).unnamed_eq, (hrenamed _).unnamed_eq]
  rw [(hrenamed _).length] at h
  have hread := hread ((q.assembled m tables exports).funcs.length - m.code.length)
  rw [h] at hread
  obtain ⟨r, hr, hsame⟩ := map_eq_ok_iff.mp hread
  refine ⟨r, bind_eq_ok_iff.mpr ⟨_, hskeleton, ?_⟩, renamed_iff.mpr hsame⟩
  rw [(hrenamed _).length]
  exact hr

end Reading

section Writing

variable (p : Program)

theorem definedFuncs_unnamed : p.unnamed.definedFuncs = p.definedFuncs := by
  unfold definedFuncs positions unnamed
  dsimp only
  rw [zipIdx_map, filterMap_map]
  rfl

theorem numbering_unnamed : p.unnamed.numbering = p.numbering := by
  rw [numbering, numbering, definedFuncs_unnamed]
  rfl

theorem emitFunction_unnamed (numbering : Numbering) (id : FuncId) :
    p.unnamed.emitFunction numbering id = p.emitFunction numbering id := by
  have htype : (p.unnamed.funcs[id]?.map Function.type).getD 0 =
      (p.funcs[id]?.map Function.type).getD 0 := p.typeOf_unnamed id
  have hbody : (p.unnamed.funcs[id]?).bind Function.body? = (p.funcs[id]?).bind Function.body? := by
    unfold unnamed
    dsimp only
    rw [getElem?_map]
    cases p.funcs[id]? <;> rfl
  unfold emitFunction
  rw [htype, hbody]
  rfl

theorem importToWire_unnamed (i : Import) : p.unnamed.importToWire i = p.importToWire i := by
  unfold importToWire
  cases i.target with
  | func id =>
    have hfunc : p.unnamed.funcs[id]? = p.funcs[id]?.map Function.unnamed := getElem?_map
    dsimp only
    rw [hfunc]
    cases p.funcs[id]? <;> rfl
  | _ => rfl

variable {p} {q : Program}

/-- Apart from the custom sections, programs that differ in names are written as the same module. -/
theorem Emits.congr {out : Wire.Module} {bodies : List (UInt32 × Wire.FuncBody)}
    {extra : List ValType} {names names' : List Wire.Custom} (he : p.Emits out bodies extra names)
    (h : Renamed p q) (hnames : q.nameSection q.numbering = .ok names') :
    q.Emits { out with customs := names' ++ q.customs } bodies extra names' := by
  have hnumbering : q.numbering = p.numbering := by
    rw [← numbering_unnamed, h.unnamed_eq, numbering_unnamed]
  have hdefined : q.definedFuncs = p.definedFuncs := by
    rw [← definedFuncs_unnamed, h.unnamed_eq, definedFuncs_unnamed]
  have hemit : ∀ id, q.emitFunction p.numbering id = p.emitFunction p.numbering id := by
    intro id
    rw [← emitFunction_unnamed, h.unnamed_eq, emitFunction_unnamed]
  have himport : ∀ i, q.importToWire i = p.importToWire i := by
    intro i
    rw [← importToWire_unnamed, h.unnamed_eq, importToWire_unnamed]
  have htypes : q.types = p.types := by rw [h.rest]
  have himports : q.imports = p.imports := by rw [h.rest]
  have hglobals : q.globals = p.globals := by rw [h.rest]
  have helements : q.elements = p.elements := by rw [h.rest]
  have hexports : q.exports = p.exports := by rw [h.rest]
  have hstart : q.start = p.start := by rw [h.rest]
  have htables : q.tables = p.tables := by rw [h.rest]
  have htags : q.tags = p.tags := by rw [h.rest]
  constructor
  · rw [hnumbering, hdefined, funext hemit]
    exact he.run
  · rw [importsToWire, himports, funext himport]
    exact he.imports
  · rw [hnumbering, hglobals]
    exact he.globals
  · rw [hnumbering, helements]
    exact he.elements
  · rw [hnumbering, exportsToWire, hexports]
    exact he.exports
  · rw [hnumbering, startIndex, hstart]
    exact he.start
  · exact hnames
  · rw [htypes]
    exact he.types
  · exact he.typeDefs
  · exact he.funcs
  · rw [definedTables, htables]
    exact he.tables
  · exact he.memories.trans (by rw [h.rest])
  · rw [definedTags, htags]
    exact he.tags
  · exact he.dataCount.trans (by rw [h.rest])
  · exact he.code
  · exact he.data.trans (by rw [h.rest])
  · rfl

/-- Names can be renumbered exactly if they can be read. -/
theorem followNames_eq_ok_iff {numbering : Numbering} {s : NameSubsection} :
    (∃ data, followNames numbering s = .ok data) ↔ s.Readable := by
  unfold followNames
  by_cases hnested : s.id = NameSubsection.locals ∨ s.id = NameSubsection.labels
  · have hlisted : ¬ (s.id = NameSubsection.tables ∨ s.id = NameSubsection.tags) := by
      rcases hnested with h | h <;> rw [h] <;> decide
    simp only [hnested, decide_eq_true_eq, Bool.or_eq_true, ↓reduceIte]
    cases hread : Reader.indirectNameMap.run s.data with
    | ok entries => exact iff_of_true ⟨_, rfl⟩ ⟨fun _ => ⟨entries, hread⟩, fun h => absurd h hlisted⟩
    | error cause =>
      refine iff_of_false (by simp) fun h => ?_
      obtain ⟨entries, hok⟩ := h.nested hnested
      cases hread.symm.trans hok
  · by_cases hlisted : s.id = NameSubsection.tables ∨ s.id = NameSubsection.tags
    · simp only [hnested, hlisted, decide_eq_true_eq, Bool.or_eq_true, ↓reduceIte]
      cases hread : Reader.nameMap.run s.data with
      | ok entries => exact iff_of_true ⟨_, rfl⟩ ⟨fun h => absurd h hnested, fun _ => ⟨entries, hread⟩⟩
      | error cause =>
        refine iff_of_false (by simp) fun h => ?_
        obtain ⟨entries, hok⟩ := h.listed hlisted
        cases hread.symm.trans hok
    · simp only [hnested, hlisted, decide_eq_true_eq, Bool.or_eq_true, ↓reduceIte]
      exact iff_of_true ⟨_, rfl⟩ ⟨fun h => absurd h hnested, fun h => absurd h hlisted⟩

theorem nameSection_eq_ok_iff_readable {numbering : Numbering} :
    (∃ names, p.nameSection numbering = .ok names) ↔ ∀ s ∈ p.names, s.Readable := by
  simp only [nameSection_eq_ok_iff]
  constructor
  · rintro ⟨names, others, hothers, -⟩ s hs
    obtain ⟨s', -, -, hdata⟩ := forall₂_mem_left hothers hs
    exact followNames_eq_ok_iff.mp ⟨_, hdata⟩
  · intro h
    obtain ⟨others, hothers⟩ := exists_forall₂ (R := Refollows numbering) fun s hs => by
      obtain ⟨data, hdata⟩ : ∃ data, followNames numbering s = .ok data :=
        followNames_eq_ok_iff.mpr (h s hs)
      exact ⟨⟨s.id, data⟩, rfl, hdata⟩
    exact ⟨_, others, hothers, rfl⟩

theorem exists_emit_congr (h : Renamed p q) (hnames : ∀ s ∈ q.names, s.Readable)
    (he : ∃ out, p.emit = .ok out) : ∃ out, q.emit = .ok out := by
  obtain ⟨w, he⟩ := he
  obtain ⟨out, hout, hvalid, hencode⟩ := emit_eq_ok_iff.mp he
  obtain ⟨bodies, extra, _, hemits⟩ := toModule_eq_ok_iff.mp hout
  obtain ⟨names, hnaming⟩ := nameSection_eq_ok_iff_readable.mpr hnames
  have hq := hemits.congr h hnaming
  obtain ⟨types, htypes, -⟩ := Wire.Module.encode_eq_ok_iff.mp hencode
  obtain ⟨w', hw'⟩ : ∃ w', ({ out with customs := names ++ q.customs } : Wire.Module).encode = .ok w' :=
    ⟨_, Wire.Module.encode_eq_ok_iff.mpr ⟨types, htypes, rfl⟩⟩
  exact ⟨w', emit_eq_ok_iff.mpr ⟨_, toModule_eq_ok_iff.mpr ⟨_, _, _, hq⟩, hvalid, hw'⟩⟩

end Writing

/-- Without the sections of names a module is still read, and with them it can be written again
exactly if it can be written without them and the lists of names that were kept can be read. -/
theorem emit_withoutNames {data : Bytes} {p : Program} (h : parse data = .ok p) :
    ∃ q, parse (Wire.withoutNames data) = .ok q ∧
      ((∃ out, p.emit = .ok out) ↔ (∃ out, q.emit = .ok out) ∧ ∀ s ∈ p.names, s.Readable) := by
  obtain ⟨m, hm, hp⟩ := parse_eq_ok_iff.mp h
  obtain ⟨q, hq, hrenamed⟩ := ofModule_customs hp (m.customs.filter (·.name ≠ nameSectionName))
  have hnames : q.names = [] := by
    obtain ⟨q₀, s, tables, exports, hread⟩ := ofModule_eq_ok hq
    obtain ⟨types, -, himports⟩ := hread.assembles.imports
    have hplain : ∀ c ∈ m.withoutNames.customs, c.name ≠ nameSectionName := by
      intro c hc
      simpa using (mem_filter.mp hc).2
    have hs : s = { q₀.assembled m.withoutNames tables exports with
        customs := (q₀.assembled m.withoutNames tables exports).customs ++ m.withoutNames.customs } :=
      hread.customs.trans (takeCustoms_plain hplain)
    rw [hread.bodies.rest, hs, himports.takes_rest]
    rfl
  refine ⟨q, parse_eq_ok_iff.mpr ⟨_, Wire.decode_withoutNames hm, hq⟩, ?_⟩
  constructor
  · rintro ⟨out, hout⟩
    refine ⟨exists_emit_congr hrenamed (by simp [hnames]) ⟨out, hout⟩, ?_⟩
    obtain ⟨_, hmodule, -, -⟩ := emit_eq_ok_iff.mp hout
    obtain ⟨_, _, _, hemits⟩ := toModule_eq_ok_iff.mp hmodule
    exact nameSection_eq_ok_iff_readable.mp ⟨_, hemits.naming⟩
  · rintro ⟨hout, hreadable⟩
    exact exists_emit_congr (renamed_iff.mpr hrenamed.unnamed_eq.symm) hreadable hout

/-- A function whose only local variable has a name. -/
def localNamed : Bytes :=
  [0x00, 0x61, 0x73, 0x6D, 0x01, 0x00, 0x00, 0x00,
    0x01, 0x05, 0x01, 0x60, 0x01, 0x7F, 0x00, 0x03, 0x02, 0x01, 0x00, 0x0A, 0x04, 0x01, 0x02, 0x00, 0x0B,
    0x00, 0x0D, 0x04, 0x6E, 0x61, 0x6D, 0x65, 0x02, 0x06, 0x01, 0x00, 0x01, 0x00, 0x01, 0x61]

theorem localNamed_emits : ∃ p, parse localNamed = .ok p ∧ ∃ out, p.emit = .ok out := by
  have hread : (parse localNamed).toOption.any (fun p =>
      decide (p.names = [⟨NameSubsection.locals, [0x01, 0x00, 0x01, 0x00, 0x01, 0x61]⟩])) = true := by
    decide +kernel
  have hbare : (parse (Wire.withoutNames localNamed)).toOption.any (fun q =>
      q.emit.toOption.any fun _ => true) = true := by decide +kernel
  obtain ⟨p, hp, hnames⟩ := any_toOption_iff.mp hread
  obtain ⟨q, hq, hiff⟩ := emit_withoutNames hp
  refine ⟨p, hp, hiff.mpr ⟨?_, ?_⟩⟩
  · obtain ⟨q', hq', hemit⟩ := any_toOption_iff.mp hbare
    cases hq.symm.trans hq'
    obtain ⟨out, hout, -⟩ := any_toOption_iff.mp hemit
    exact ⟨out, hout⟩
  · rw [of_decide_eq_true hnames]
    intro s hs
    cases mem_singleton.mp hs
    refine ⟨fun _ => ⟨[⟨0, [⟨0, [0x61]⟩]⟩], rfl⟩, fun h => ?_⟩
    exact absurd h (by decide)

/-- Names of local variables that break off behind their number. -/
def namesCut : Bytes :=
  [0x00, 0x61, 0x73, 0x6D, 0x01, 0x00, 0x00, 0x00,
    0x00, 0x08, 0x04, 0x6E, 0x61, 0x6D, 0x65, 0x02, 0x01, 0x01]

theorem namesCut_stuck : parse (Wire.withoutNames namesCut) = .ok {} ∧
    emit {} = .ok [0x00, 0x61, 0x73, 0x6D, 0x01, 0x00, 0x00, 0x00] ∧
    parse namesCut = .ok { names := [⟨NameSubsection.locals, [0x01]⟩] } ∧
    (emit { names := [⟨NameSubsection.locals, [0x01]⟩] }).toOption = none := by
  refine ⟨by rfl, by rfl, by rfl, by rfl⟩

end Program

end HostCatch
