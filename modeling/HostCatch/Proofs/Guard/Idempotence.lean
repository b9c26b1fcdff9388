import HostCatch.Proofs.Guard.Resettling

namespace HostCatch

open List

namespace Instr

def isTryTable : Instr → Bool
  | .tryTable _ _ => true
  | _ => false

def isTryCatch : Instr → Bool
  | .tryCatch _ _ _ => true
  | _ => false

/-- An instruction that catches exceptions, of either sort. -/
def isHandler (i : Instr) : Bool :=
  i.isTryTable || i.isTryCatch

theorem isHandler_relink (κ : FuncId → FuncId) (τ : TagId → TagId) (i : Instr) :
    (i.relink κ τ).isHandler = i.isHandler := by
  cases i <;> rfl

end Instr

/-- A body has code that catches exceptions and can be reached. -/
def Body.Catches (b : Body) : Prop :=
  ∃ seq index i, b.Reaches seq ∧ b.instr? seq index = some i ∧ i.isHandler = true

theorem Body.Catches.relink {b : Body} (h : b.Catches) (κ : FuncId → FuncId) (τ : TagId → TagId) :
    (b.relink κ τ).Catches := by
  obtain ⟨seq, index, i, hreach, hi, hhandler⟩ := h
  refine ⟨seq, index, i.relink κ τ, ?_, ?_, (i.isHandler_relink κ τ).trans hhandler⟩
  · exact (b.reaches_relink_iff κ τ).mpr (b.reaches_redirect κ hreach)
  · rw [b.instr?_relink, b.instr?_redirect, hi]
    rfl

namespace Strategy

theorem walk_any_iff {b : Body} {visits : List Visit} (h : b.walk = .ok visits) :
    visits.any (·.instr.isHandler) = true ↔ b.Catches := by
  rw [any_eq_true]
  constructor
  · rintro ⟨v, hv, hhandler⟩
    obtain ⟨hreach, hi⟩ := (Body.mem_walk_iff h).mp hv
    exact ⟨_, _, _, hreach, hi, hhandler⟩
  · rintro ⟨seq, index, i, hreach, hi, hhandler⟩
    exact ⟨⟨seq, index, i⟩, (Body.mem_walk_iff h).mpr ⟨hreach, hi⟩, hhandler⟩

theorem detectAmong_cons {f : Function} {b : Body} (hb : f.kind = .defined b) {visits : List Visit}
    (h : b.walk = .ok visits) (found : Strategy) (fs : List Function) :
    detectAmong found (f :: fs) = if visits.any (·.instr.isTryTable) then .ok .modern
      else if visits.any (·.instr.isTryCatch) then detectAmong .legacy fs
      else detectAmong found fs := by
  have hbody : f.body? = some b := by simp [Function.body?, hb]
  simp only [detectAmong, hbody, h]
  rfl

/-- A strategy is detected exactly if some body catches. -/
theorem detectAmong_eq_ok {fs : List Function}
    (hwalk : ∀ f ∈ fs, ∀ b, f.kind = .defined b → ∃ visits, b.walk = .ok visits) (found : Strategy) :
    ∃ strategy, detectAmong found fs = .ok strategy ∧
      (strategy ≠ .none ↔ found ≠ .none ∨ ∃ f ∈ fs, ∃ b, f.kind = .defined b ∧ b.Catches) := by
  induction fs generalizing found with
  | nil => exact ⟨found, rfl, by simp⟩
  | cons f fs ih =>
    have ih := ih fun g hg => hwalk g (mem_cons_of_mem _ hg)
    cases hkind : f.kind with
    | imported entry =>
      obtain ⟨strategy, hstrategy, hiff⟩ := ih found
      have hbody : f.body? = Option.none := by simp [Function.body?, hkind]
      exact ⟨strategy, by simpa only [detectAmong, hbody] using hstrategy, by simpa [hkind] using hiff⟩
    | defined b =>
      obtain ⟨visits, hvisits⟩ := hwalk f mem_cons_self b hkind
      have hany : visits.any (·.instr.isTryTable) = true ∨ visits.any (·.instr.isTryCatch) = true ↔
          b.Catches := by
        rw [← walk_any_iff hvisits]
        simp only [any_eq_true, Instr.isHandler, Bool.or_eq_true, and_or_left, exists_or]
      have hfirst : (∃ g ∈ f :: fs, ∃ b, g.kind = .defined b ∧ b.Catches) ↔
          b.Catches ∨ ∃ g ∈ fs, ∃ b, g.kind = .defined b ∧ b.Catches := by
        simp [hkind]
      rw [detectAmong_cons hkind hvisits, hfirst, ← hany]
      split
      next htable => exact ⟨.modern, rfl, by simp [htable]⟩
      next htable =>
        split
        next htry =>
          obtain ⟨strategy, hstrategy, hiff⟩ := ih .legacy
          exact ⟨strategy, hstrategy, by simpa [htry] using hiff⟩
        next htry =>
          obtain ⟨strategy, hstrategy, hiff⟩ := ih found
          exact ⟨strategy, hstrategy, by simpa [htable, htry] using hiff⟩

end Strategy

namespace Program

/-- The strategy is the one that was asked for, or else the one detected. -/
theorem chooseStrategy_eq_ok_iff {p : Program} {asked strategy : Strategy} :
    p.chooseStrategy asked = .ok strategy ↔ strategy ≠ .none ∧
      if asked = .none then Strategy.detect p = .ok strategy else strategy = asked := by
  unfold chooseStrategy
  by_cases hasked : asked = .none
  · rw [if_neg (not_not.mpr hasked), if_pos hasked, bind_eq_ok_iff]
    constructor
    · rintro ⟨found, hfound, h⟩
      split at h
      next => cases h
      next hne =>
        cases h
        exact ⟨hne, liftM_abort_eq_ok_iff.mp hfound⟩
    · rintro ⟨hne, hfound⟩
      exact ⟨strategy, liftM_abort_eq_ok_iff.mpr hfound, by rw [if_neg hne]; rfl⟩
  · rw [if_pos hasked, if_neg hasked, pure_eq_ok_iff]
    constructor
    · rintro rfl
      exact ⟨hasked, rfl⟩
    · exact fun h => h.2.symm

theorem exported_retag {p r : Program} {τ : TagId → TagId}
    (h : r.exports = p.exports.map (Export.retag τ)) (name : String) :
    r.exportedFunction? name = p.exportedFunction? name ∧
      r.exportedTable? name = p.exportedTable? name := by
  have hfind : r.findExport? name = p.findExport? name := by
    simp only [findExport?, h, findIdx?_map]
    rfl
  have hexport : ∀ id : Nat, r.exports[id]? = p.exports[id]?.map (Export.retag τ) := by
    intro id
    rw [h, getElem?_map]
  unfold exportedFunction? exportedTable?
  rw [hfind]
  cases p.findExport? name with
  | none => exact ⟨rfl, rfl⟩
  | some id =>
    simp only [Option.bind_eq_bind, Option.bind_some, hexport]
    cases p.exports[id]? with
    | none => exact ⟨rfl, rfl⟩
    | some e =>
      obtain ⟨name, target⟩ := e
      cases target <;> exact ⟨rfl, rfl⟩

namespace Passage

variable {p : Program} {o : Outcome} {out : Bytes} (h : Passage p o out)

/-- The code of a program still catches exceptions once it is written. -/
theorem chooseStrategy {asked strategy : Strategy} (hchosen : p.chooseStrategy asked = .ok strategy) :
    ∃ again, h.result.chooseStrategy asked = .ok again ∧ again ≠ .none := by
  obtain ⟨hstrategy, hchosen⟩ := chooseStrategy_eq_ok_iff.mp hchosen
  by_cases hasked : asked = .none
  · rw [if_pos hasked] at hchosen
    obtain ⟨q, u, tables, exports, hr⟩ := ofModule_eq_ok h.reread
    obtain ⟨found, hfound, hiff⟩ := Strategy.detectAmong_eq_ok h.read.wellFormed.walkable .none
    obtain ⟨again, hagain, hiff'⟩ := Strategy.detectAmong_eq_ok hr.wellFormed.walkable .none
    cases hchosen.symm.trans hfound
    have hne : again ≠ .none := by
      obtain hnone | ⟨f, hf, b, hkind, hcatches⟩ := hiff.mp hstrategy
      · exact absurd rfl hnone
      obtain ⟨id, hid⟩ := getElem?_of_mem hf
      exact hiff'.mpr (.inr ⟨_, mem_of_getElem? (h.reissued.kept id f hid), _,
        Function.kind_relink hkind _ _, hcatches.relink _ _⟩)
    exact ⟨again, chooseStrategy_eq_ok_iff.mpr ⟨hne, by rwa [if_pos hasked]⟩, hne⟩
  · exact ⟨asked, chooseStrategy_eq_ok_iff.mpr ⟨hasked, by rw [if_neg hasked]⟩, hasked⟩

theorem bind_result (matcher : Matcher) : h.result.bind matcher = p.bind matcher := by
  have himports : h.result.imports = p.imports ++
      (h.new.map fun t => ⟨t.module, t.name, .tag h.imported.tags.length⟩).toList := by
    rw [h.reissued.rest]
  have hfuncs {β : Type} (g : Import × Nat → Option β) (hg : ∀ e, e.1.func? = none → g e = none) :
      h.result.imports.zipIdx.filterMap g = p.imports.zipIdx.filterMap g := by
    rw [himports, zipIdx_append, filterMap_append]
    cases h.new with
    | none => simp
    | some t => simpa using hg _ rfl
  simp only [Program.bind]
  rw [hfuncs _ fun e he => by simp [he]]

theorem metadata_result (c : Config) : h.result.metadata c = p.metadata c := by
  have hexports := exported_retag h.framed.exports
  simp only [metadata, h.bind_result, hexports]

theorem selected_result (c : Config) : h.result.selected c = p.selected c := by
  rw [selected, h.metadata_result, h.bind_result, selected]

end Passage

end Program

theorem Outcome.report_reused {o : Outcome} {p : Program} {s t : Strategy} (tag : Option TagId)
    (h : ∀ id ∈ o.flagged, p.importOf? id = o.program.importOf? id) :
    (Outcome.report ⟨p, tag, o.flagged, o.wrappers, o.flagged, 0⟩ t).wrapped =
      (o.report s).wrapped.map fun w => { w with existing := true } := by
  rw [report, report, map_map]
  refine map_congr_left fun id hid => ?_
  simp [wrapped, h id hid, hid]

/-- Wrapping imports again finds the wrappers and gives the same bytes. -/
theorem transform_again {data out : Bytes} {c : Config} {report : Report}
    (h : transform data c = .ok (out, report)) (hwrapped : report.wrapped ≠ [])
    (hnames : ∀ m, Program.parseModule data = .ok m → Program.hasBrokenNames m = false)
    (hhandles : ∀ p, Program.parse data = .ok p → ∀ id ∈ p.selected c,
      p.exportedFunction? c.allocName ≠ some id ∧ p.exportedFunction? c.signalName ≠ some id)
    (hlocals : ∀ p, Program.parse data = .ok p → p.locals.length < 2 ^ 32)
    (hlength : out.length < 2 ^ 32) : ∃ report', transform out c = .ok (out, report') ∧
      report'.retargeted = 0 ∧
      report'.wrapped = report.wrapped.map fun w => { w with existing := true } := by
  obtain ⟨p, hp, hresult⟩ := (transform_eq_ok_iff hwrapped).mp h
  obtain ⟨hselected, strategy, o, hchosen, ho, hout, rfl⟩ := Program.transform_eq_some_iff.mp hresult
  obtain ⟨passage, hflagged, hchecked⟩ := Program.Passage.exists_of_guardImports hp hnames
    (hlocals p hp) hselected ho hout hlength
  have hapart := hhandles p hp
  obtain ⟨hmissing, -, tag, -, hsettled⟩ := Program.guardImports_settled passage.read.wellFormed
    hselected (fun id hid => (hapart id hid).1) (fun id hid => (hapart id hid).2) ho
  obtain ⟨-, halloc, hstore⟩ := Program.checkHandles_handles hchecked
  obtain ⟨tag', hsettled'⟩ := passage.settled hsettled
    (fun hid => (hapart _ hid).1 halloc) (fun hid => (hapart _ hid).2 hstore)
  obtain ⟨again, hagain, hne⟩ := passage.chooseStrategy hchosen
  have hguard : passage.result.guardImports (some (passage.result.metadata c))
      (passage.result.bind c.matcher).2 again =
        .ok ⟨passage.result, some tag', o.flagged, o.wrappers, o.flagged, 0⟩ := by
    rw [passage.metadata_result, passage.bind_result, hflagged]
    exact hsettled'.guardImports hselected hmissing hne
  have hentries : ∀ id ∈ o.flagged, passage.result.importOf? id = o.program.importOf? id := by
    intro id hid
    rw [hflagged] at hid
    obtain ⟨f, hf, himported⟩ := hsettled.imported id hid
    exact passage.importOf?_result hf himported
  have hreport := Outcome.report_reused (s := strategy) (t := again) (some tag') hentries
  refine ⟨_, (transform_eq_ok_iff ?_).mpr ⟨_, passage.parse_out,
    Program.transform_eq_some_iff.mpr ⟨?_, again, _, hagain, hguard, passage.emit_result, rfl⟩⟩, rfl, hreport⟩
  · rw [hreport]
    simpa using hwrapped
  · rwa [passage.selected_result]

theorem throwingCaller_again : ∃ out report report',
    transform throwingCaller wrapEverything = .ok (out, report) ∧
      report.wrapped = [⟨"e", "f", 0, 4, false⟩] ∧ report.retargeted = 1 ∧
      transform out wrapEverything = .ok (out, report') ∧
      report'.wrapped = [⟨"e", "f", 0, 4, true⟩] ∧ report'.retargeted = 0 := by
  have hrun : (match transform throwingCaller wrapEverything with
      | .ok (out, report) => decide (report.wrapped = [⟨"e", "f", 0, 4, false⟩] ∧
          report.retargeted = 1 ∧ out.length = 193)
      | .error _ => false) = true := by decide +kernel
  have hparse : (match Program.parse throwingCaller with
      | .ok p => decide (p.locals.length < 2 ^ 32 ∧ ∀ id ∈ p.selected wrapEverything,
          p.exportedFunction? wrapEverything.allocName ≠ some id ∧
            p.exportedFunction? wrapEverything.signalName ≠ some id)
      | .error _ => false) = true := by decide +kernel
  have hnames : (Program.parseModule throwingCaller).toOption.any Program.hasBrokenNames = false := by
    decide +kernel
  have hread : ∀ p, Program.parse throwingCaller = .ok p → p.locals.length < 2 ^ 32 ∧
      ∀ id ∈ p.selected wrapEverything, p.exportedFunction? wrapEverything.allocName ≠ some id ∧
        p.exportedFunction? wrapEverything.signalName ≠ some id := by
    intro p hp
    rw [hp] at hparse
    exact of_decide_eq_true hparse
  split at hrun
  next out report h =>
    obtain ⟨hwrapped, hretargeted, hlength⟩ := of_decide_eq_true hrun
    obtain ⟨report', hagain, hquiet, hsame⟩ := transform_again h (by simp [hwrapped])
      (fun m hm => by rwa [hm] at hnames) (fun p hp => (hread p hp).2)
      (fun p hp => (hread p hp).1) (by omega)
    rw [hwrapped] at hsame
    exact ⟨out, report, report', h, hwrapped, hretargeted, hagain, hsame, hquiet⟩
  next => cases hrun

end HostCatch
