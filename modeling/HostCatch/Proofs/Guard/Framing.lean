import HostCatch.Guard.Transform
import HostCatch.Proofs.Guard.Reissuing

namespace HostCatch

open List

/-- The wrappers that a report tells of. -/
def Report.targets (r : Report) : Targets :=
  r.wrapped.map fun w => (w.func, w.wrapper)

namespace Program

/-- What a configuration makes of a program: the imports that may throw, and the handles. -/
def metadata (p : Program) (c : Config) : Metadata :=
  { (p.bind c.matcher).1 with
    table := p.exportedTable? c.tableName
    alloc := p.exportedFunction? c.allocName
    store := p.exportedFunction? c.signalName }

/-- The imports that a configuration selects. -/
def selected (p : Program) (c : Config) : List FuncId :=
  (p.metadata c).flagged (p.bind c.matcher).2

/-- Something is written just for a choice of imports, by a strategy that is found. -/
theorem transform_eq_some_iff {p : Program} {c : Config} {data : Bytes} {report : Report} :
    p.transform c = .ok (some (data, report)) ↔ p.selected c ≠ [] ∧ ∃ strategy o,
      p.chooseStrategy c.strategy = .ok strategy ∧
      p.guardImports (some (p.metadata c)) (p.bind c.matcher).2 strategy = .ok o ∧
      o.program.emit = .ok data ∧ report = o.report strategy := by
  have hselected : (p.bind c.matcher).1.flagged (p.bind c.matcher).2 = p.selected c := rfl
  unfold transform
  simp only [hselected]
  by_cases hnone : p.selected c = []
  · simp [hnone]
  · simp only [if_neg hnone, bind_eq_ok_iff, pure_eq_ok_iff, Option.some.injEq, Prod.mk.injEq]
    constructor
    · rintro ⟨strategy, hstrategy, o, ho, data, hdata, rfl, rfl⟩
      exact ⟨hnone, strategy, o, hstrategy, ho, hdata, rfl⟩
    · rintro ⟨-, strategy, o, hstrategy, ho, hdata, rfl⟩
      exact ⟨strategy, hstrategy, o, ho, data, hdata, rfl, rfl⟩

end Program

/-- Where a report tells of a wrapper, the pass went through to the bytes that were written. -/
theorem transform_eq_ok_iff {data out : Bytes} {c : Config} {report : Report}
    (hwrapped : report.wrapped ≠ []) : transform data c = .ok (out, report) ↔ ∃ p,
      Program.parse data = .ok p ∧ p.transform c = .ok (some (out, report)) := by
  simp only [transform, bind_eq_ok_iff, liftM_fault_eq_ok_iff]
  constructor
  · rintro ⟨p, hp, result, hresult, h⟩
    cases result with
    | none =>
      cases h
      exact absurd rfl hwrapped
    | some result =>
      cases h
      exact ⟨p, hp, hresult⟩
  · rintro ⟨p, hp, hresult⟩
    exact ⟨p, hp, _, hresult, rfl⟩

theorem Outcome.report_targets {o : Outcome} (hkeys : o.wrappers.map Prod.fst = o.flagged)
    (hnodup : o.flagged.Nodup) (strategy : Strategy) : (o.report strategy).targets = o.wrappers := by
  simp only [Report.targets, report, map_map, ← hkeys]
  refine (map_congr_left fun pair hpair => ?_).trans (map_id _)
  obtain ⟨func, target⟩ := pair
  rw [← hkeys] at hnodup
  simp [wrapped, Targets.get?_of_mem hnodup hpair]

namespace Program

/-- What stays in place when imports are wrapped: functions have new callees and tags, `τ` moves
tags, and wrappers and at most one imported tag are added. -/
structure Framed (p p' : Program) (targets : Targets) (τ : TagId → TagId) : Prop where
  types : p.types <+: p'.types
  locals : p.locals <+: p'.locals
  funcs : p.funcs.mapIdx (fun id f => f.relink (targets.redirect id) τ) <+: p'.funcs
  added : ∀ w g, p.funcs.length ≤ w → p'.funcs[w]? = some g →
    g.isImported = false ∧ targets.hasTarget w = true
  imports : p'.imports = p.imports ∨ ∃ i, p'.imports = p.imports ++ [i] ∧ i.tag?.isSome
  exports : p'.exports = p.exports.map (Export.retag τ)
  rest : p' = { p with
    types := p'.types, funcs := p'.funcs, tags := p'.tags, imports := p'.imports,
    exports := p'.exports, locals := p'.locals, names := p'.names }
  tags : ∀ tag t, p.tags[tag]? = some t → p'.tags[τ tag]? = some t
  injective : Function.Injective τ
  importedTags : ∀ tag, tag < (p.imports.filterMap Import.tag?).length → τ tag = tag
  definedTags : ∀ tag, (p.imports.filterMap Import.tag?).length ≤ tag →
    τ tag = tag + (p'.imports.length - p.imports.length)

theorem getElem?_shiftTag {α β : Type} {k : Nat} {as : List α} (hk : k ≤ as.length) (new : Option β)
    {f : β → α} {n : Nat} {a : α} (ha : as[n]? = some a) :
    (as.take k ++ (new.map f).toList ++ as.drop k)[shiftTag k new.toList.length n]? = some a := by
  have htake : (as.take k).length = k := length_take_of_le hk
  unfold shiftTag
  split
  next hlt =>
    rw [append_assoc, getElem?_append_left (by omega), getElem?_take_of_lt hlt, ha]
  next hge =>
    have hlength : (as.take k ++ (new.map f).toList).length = k + new.toList.length := by
      rw [length_append, htake]
      cases new <;> rfl
    have hback : k + (n + new.toList.length - (k + new.toList.length)) = n := by omega
    rw [getElem?_append_right (by omega), hlength, getElem?_drop, hback, ha]

section Reissued

variable {p r : Program} {o : Outcome} {k : Nat} {new : Option TagImport}
variable {more : List Function} {extra : List ValType} {others : List NameSubsection}

/-- What is read once the wrappers are written has all else in place. -/
theorem Reissued.framed (h : Reissued p r o k new more extra others)
    (htypes : p.types <+: o.program.types) (hk : k = (p.imports.filterMap Import.tag?).length)
    (hle : k ≤ p.tags.length)
    (htarget : ∀ n g, more[n]? = some g → o.wrappers.hasTarget (p.funcs.length + n) = true) :
    Framed p r o.wrappers (shiftTag k new.toList.length) where
  types := by
    rw [h.rest]
    exact htypes.trans (prefix_append _ _)
  locals := h.locals
  funcs := by
    refine prefix_iff_getElem?.mpr fun id hid => ?_
    rw [length_mapIdx] at hid
    rw [h.kept id _ (getElem?_eq_getElem hid), getElem_mapIdx]
  added := by
    intro w g hw hg
    obtain ⟨n, rfl⟩ := Nat.exists_eq_add_of_le hw
    have hlt := lt_of_getElem? hg
    rw [h.length] at hlt
    have hn := getElem?_eq_getElem (Nat.lt_of_add_lt_add_left hlt)
    obtain ⟨b, -, hf, -⟩ := h.added n _ hn
    cases hg.symm.trans hf
    exact ⟨rfl, htarget n _ hn⟩
  imports := by
    rw [h.rest]
    cases new with
    | none => exact .inl (by simp)
    | some t => exact .inr ⟨_, rfl, rfl⟩
  exports := by
    rw [h.rest]
  rest := by
    rw [h.rest]
  tags := by
    intro tag t ht
    rw [h.rest]
    exact getElem?_shiftTag hle _ ht
  injective := shiftTag_injective k new.toList.length
  importedTags := by
    intro tag htag
    exact if_pos (hk ▸ htag)
  definedTags := by
    intro tag htag
    have hadded : r.imports.length - p.imports.length = new.toList.length := by
      rw [h.rest]
      cases new <;> simp
    rw [hadded]
    exact if_neg (Nat.not_lt.mpr (hk ▸ htag))

end Reissued

/-- How a program that was read and altered by a pass is written and read: `imported` is what its
imports led to, and `bare` lacked only the bodies. -/
structure Passage (p : Program) (o : Outcome) (out : Bytes) where
  source : Wire.Module
  imported : Program
  bare : Program
  tables : List Table
  exports : List Export
  read : ReadFrom source p imported bare tables exports
  tag : TagId
  handles : Handles
  new : Option TagImport
  types : List Signature
  more : List Function
  rewrapped : p.Rewrapped o tag handles new types more
  written : Wire.Module
  bodies : List (UInt32 × Wire.FuncBody)
  extra : List ValType
  others : List NameSubsection
  emits : o.program.Emits written bodies extra (nameCustoms others (namesFrom 0 o.program.funcs))
  small : o.program.Small (nameCustoms others (namesFrom 0 o.program.funcs))
  names : List.Forall₂ (Refollows o.program.numbering) p.names others
  lasting : ∀ body ∈ bodies, Lasting body.2
  valid : written.validate = .ok ()
  encoded : written.encode = .ok out
  decoded : Wire.Module.decode out = .ok written.reread
  result : Program
  reread : ofModule written.reread = .ok result
  reissued : Reissued p result o imported.tags.length new more extra others

namespace Passage

variable {data out : Bytes} {p : Program} {o : Outcome} {c : Config} {strategy : Strategy}

theorem parse_out (h : Passage p o out) : parse out = .ok h.result :=
  parse_eq_ok_iff.mpr ⟨_, h.decoded, h.reread⟩

/-- Every outcome that can be written has such a passage. -/
theorem exists_of_guardImports (hp : parse data = .ok p)
    (hnames : ∀ m, parseModule data = .ok m → hasBrokenNames m = false)
    (hlocals : p.locals.length < 2 ^ 32) (hselected : p.selected c ≠ [])
    (ho : p.guardImports (some (p.metadata c)) (p.bind c.matcher).2 strategy = .ok o)
    (hout : o.program.emit = .ok out) (hlength : out.length < 2 ^ 32) :
    ∃ passage : Passage p o out, o.flagged = p.selected c ∧
      p.checkHandles (p.metadata c) (p.selected c) = .ok passage.handles := by
  obtain ⟨m, hdecode, hm⟩ := parse_eq_ok_iff.mp hp
  obtain ⟨wire, hwire, hvalid, hencode⟩ := emit_eq_ok_iff.mp hout
  obtain ⟨q, s, tables, exports, hr⟩ := ofModule_eq_ok hm
  have hapart := hr.namesApart (hnames m (by rw [parseModule, hdecode]))
  obtain ⟨tag, handles, new, types, more, -, hflagged, hhandles, hx⟩ := hr.rewrapped hselected ho
  obtain ⟨r, bodies, extra, others, hdecoded, hreread, hemits, hsmall, hothers, hlasting, hreissued⟩ :=
    hr.reissued (Wire.Module.decode_proper hdecode) hapart hlocals hx hwire hencode hlength
  exact ⟨⟨m, q, s, tables, exports, hr, tag, handles, new, types, more, hx, wire, bodies, extra, others,
    hemits, hsmall, hothers, hlasting, hvalid, hencode, hdecoded, r, hreread, hreissued⟩, hflagged, hhandles⟩

theorem framed (h : Passage p o out) : p.Framed h.result o.wrappers
    (shiftTag h.imported.tags.length h.new.toList.length) := by
  refine h.reissued.framed ?_ h.read.importedTags.symm h.read.tags_length_le fun n g hg => ?_
  · rw [h.rewrapped.altered.types_eq]
    exact prefix_append _ _
  · obtain ⟨id, _, _, _, hmem, -⟩ := h.rewrapped.crafted n g hg
    exact Targets.hasTarget_of_mem hmem

end Passage

end Program

/-- Wrapping imports keeps everything else in place, up to the bytes that are written and read. -/
theorem transform_framed {data out : Bytes} {c : Config} {report : Report}
    (h : transform data c = .ok (out, report)) (hwrapped : report.wrapped ≠ [])
    (hnames : ∀ m, Program.parseModule data = .ok m → Program.hasBrokenNames m = false)
    (hlocals : ∀ p, Program.parse data = .ok p → p.locals.length < 2 ^ 32)
    (hlength : out.length < 2 ^ 32) : ∃ p p' τ, Program.parse data = .ok p ∧
      Program.parse out = .ok p' ∧ p.Framed p' report.targets τ := by
  obtain ⟨p, hp, hresult⟩ := (transform_eq_ok_iff hwrapped).mp h
  obtain ⟨hselected, strategy, o, -, ho, hout, rfl⟩ := Program.transform_eq_some_iff.mp hresult
  obtain ⟨passage, -⟩ := Program.Passage.exists_of_guardImports hp hnames (hlocals p hp) hselected ho hout
    hlength
  rw [Outcome.report_targets passage.rewrapped.keys passage.rewrapped.nodup]
  exact ⟨p, passage.result, _, hp, passage.parse_out, passage.framed⟩

/-- A module that imports a function and calls it, throws with a tag of its own, and exports what a
handler needs. -/
def throwingCaller : Bytes :=
  [0x00, 0x61, 0x73, 0x6D, 0x01, 0x00, 0x00, 0x00,
   0x01, 0x0C, 0x03, 0x60, 0x00, 0x00, 0x60, 0x01, 0x7F, 0x00, 0x60, 0x00, 0x01, 0x7F,
   0x02, 0x07, 0x01, 0x01, 0x65, 0x01, 0x66, 0x00, 0x00,
   0x03, 0x04, 0x03, 0x02, 0x01, 0x00,
   0x04, 0x04, 0x01, 0x6F, 0x00, 0x00,
   0x0D, 0x03, 0x01, 0x00, 0x00,
   0x07, 0x0D, 0x03, 0x01, 0x74, 0x01, 0x00, 0x01, 0x61, 0x00, 0x01, 0x01, 0x73, 0x00, 0x02,
   0x0A, 0x10, 0x03, 0x04, 0x00, 0x41, 0x00, 0x0B, 0x02, 0x00, 0x0B,
   0x06, 0x00, 0x10, 0x00, 0x08, 0x00, 0x0B]

/-- Every import is to be wrapped; the exports that a handler needs have names of one letter. -/
def wrapEverything : Config := ⟨.oneOf [.everything], "t", "a", "s", .modern⟩

theorem throwingCaller_framed : ∃ out report p p' τ,
    transform throwingCaller wrapEverything = .ok (out, report) ∧ report.targets = [(0, 4)] ∧
      Program.parse throwingCaller = .ok p ∧ Program.parse out = .ok p' ∧
      p.Framed p' report.targets τ := by
  have hrun : (match transform throwingCaller wrapEverything with
      | .ok (out, report) => decide (report.targets = [(0, 4)] ∧ out.length = 193)
      | .error _ => false) = true := by decide +kernel
  have hlocals : (match Program.parse throwingCaller with
      | .ok p => decide (p.locals.length < 2 ^ 32)
      | .error _ => false) = true := by decide +kernel
  have hnames : (Program.parseModule throwingCaller).toOption.any Program.hasBrokenNames = false := by
    decide +kernel
  split at hrun
  next out report h =>
    obtain ⟨htargets, hlength⟩ := of_decide_eq_true hrun
    have hwrapped : report.wrapped ≠ [] := by
      intro hnone
      simp [Report.targets, hnone] at htargets
    obtain ⟨p, p', τ, hp, hp', hframed⟩ := transform_framed h hwrapped
      (fun m hm => by rwa [hm] at hnames)
      (fun p hp => by rw [hp] at hlocals; exact of_decide_eq_true hlocals) (by omega)
    exact ⟨out, report, p, p', τ, h, htargets, hp, hp', hframed⟩
  next => cases hrun

end HostCatch
