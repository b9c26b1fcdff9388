import HostCatch.Proofs.Program.Closed

namespace HostCatch

open List

namespace Reading

variable {scope : Scope} {r next : Reading} {top : Frame} {outer : List Frame}

/-- What has been read names entities that are there: the instructions of the sequences, and the
constructs that are still open. -/
structure Resolved (scope : Scope) (r : Reading) : Prop where
  seqs : ∀ s ∈ r.seqs, ∀ i ∈ s.instrs, i.Within scope.tables scope.tags
  frames : ∀ f ∈ r.frames, ∀ i ∈ f.construct?, i.Within scope.tables scope.tags

theorem plain_within {frames : List Frame} {i : Wire.Instr} {j : Instr}
    (h : scope.Plain frames i j) (hi : i.Spelled) : j.Within scope.tables scope.tags := by
  cases h with
  | callIndirect _ htable | returnCallIndirect _ htable | tableGet htable | tableSet htable =>
    obtain ⟨rfl, hlt⟩ := Scope.check_eq_ok htable
    exact hlt
  | throw htag =>
    obtain ⟨rfl, hlt⟩ := Scope.check_eq_ok htag
    exact hlt
  | raw hraw => exact ⟨hi, hraw⟩
  | _ => trivial

theorem clause_within {frames : List Frame} {c : Wire.CatchClause} {clause : Clause}
    (h : scope.clause frames c = .ok clause) :
    Wire.CatchClause.takesTag clause.kind = true → clause.tag < scope.tags := by
  obtain ⟨label, -, h⟩ := of_bind h
  dsimp only at h
  split at h
  next =>
    obtain ⟨tag, htag, h⟩ := of_bind h
    cases h
    obtain ⟨rfl, hlt⟩ := Scope.check_eq_ok htag
    exact fun _ => hlt
  next hnone =>
    cases h
    exact fun htakes => absurd htakes hnone

namespace Resolved

theorem emit (h : r.Resolved scope) (f : Frame) {i : Instr}
    (hi : i.Within scope.tables scope.tags) : (r.emit f i).Resolved scope where
  seqs := by
    intro s hs j hj
    obtain ⟨id, hid⟩ := getElem?_of_mem hs
    rw [emit_seqs] at hid
    obtain ⟨t, ht, rfl⟩ := Option.map_eq_some_iff.mp hid
    have hold := h.seqs t (mem_of_getElem? ht)
    split at hj
    next =>
      rcases mem_append.mp hj with hj | hj
      · exact hold j hj
      · exact mem_singleton.mp hj ▸ hi
    next => exact hold j hj
  frames := h.frames

theorem openSeq (h : r.Resolved scope) (type : BlockType) {role : SeqId → Role}
    (hrole : ∀ i ∈ (⟨r.seqs.length, role r.seqs.length⟩ : Frame).construct?,
      i.Within scope.tables scope.tags) : (r.openSeq type role).Resolved scope where
  seqs := by
    intro s hs
    rcases mem_append.mp hs with hs | hs
    · exact h.seqs s hs
    · rw [mem_singleton.mp hs]
      exact fun i hi => absurd hi not_mem_nil
  frames := forall_mem_cons.mpr ⟨hrole, h.frames⟩

theorem close (h : r.Resolved scope) (hframes : r.frames = top :: outer) {construct : Option Instr}
    (hi : ∀ i ∈ construct, i.Within scope.tables scope.tags) :
    (r.close outer construct).Resolved scope := by
  have houter : ∀ f ∈ outer, ∀ i ∈ f.construct?, i.Within scope.tables scope.tags := by
    exact fun f hf => h.frames f (hframes ▸ mem_cons_of_mem top hf)
  unfold Reading.close
  split
  next i around _ => exact ⟨(h.emit around (hi i rfl)).seqs, houter⟩
  next => exact ⟨h.seqs, houter⟩

end Resolved

/-- A step reads nothing that names what is not there. -/
theorem Step.resolved {i : Wire.Instr} (h : Step scope r top outer i next)
    (hframes : r.frames = top :: outer) (hr : r.Resolved scope) (hi : i.Spelled) :
    next.Resolved scope := by
  have hmem : top ∈ r.frames := hframes ▸ mem_cons_self
  have hkept {construct : Instr} (hconstruct : construct.Within scope.tables scope.tags) :
      ∀ i ∈ some construct, i.Within scope.tables scope.tags := by
    rintro i ⟨⟩
    exact hconstruct
  cases h with
  | plain hplain => exact hr.emit top (plain_within hplain hi)
  | block _ | loop _ => exact hr.openSeq _ (hkept trivial)
  | @ifElse _ type _ =>
    have hopened : (r.openSeq type fun seq => .consequent (seq + 1)).Resolved scope :=
      hr.openSeq type (hkept trivial)
    refine ⟨fun s hs => ?_, hopened.frames⟩
    rcases mem_append.mp hs with hs | hs
    · exact hopened.seqs s hs
    · rw [mem_singleton.mp hs]
      exact fun i hi => absurd hi not_mem_nil
  | orElse _ hrole =>
    refine ⟨hr.seqs, forall_mem_cons.mpr ⟨hkept trivial, fun f hf => ?_⟩⟩
    exact hr.frames f (hframes ▸ mem_cons_of_mem top hf)
  | tryCatch _ => exact hr.openSeq _ (hkept fun h hh => absurd hh not_mem_nil)
  | @handler i tag tried before hcatches hhandles =>
    have hbefore : ∀ h ∈ before, ∀ tag ∈ h.tag, tag < scope.tags := by
      cases hhandles with
      | tried => exact fun h hh => absurd hh not_mem_nil
      | handler hrole =>
        have hconstruct : top.construct? = some (.tryCatch tried before none) := by
          rw [Frame.construct?, hrole]
        exact hr.frames top hmem _ hconstruct
    have htag : ∀ id ∈ tag, id < scope.tags := by
      cases hcatches with
      | tag htag =>
        rintro id ⟨⟩
        obtain ⟨rfl, hlt⟩ := Scope.check_eq_ok htag
        exact hlt
      | all => exact fun id hid => absurd hid (Option.not_mem_none id)
    have houter : ({ r with frames := outer } : Reading).Resolved scope :=
      ⟨hr.seqs, fun f hf => hr.frames f (hframes ▸ mem_cons_of_mem top hf)⟩
    unfold openHandler
    refine houter.openSeq _ ?_
    rintro _ ⟨⟩ h hh
    rcases mem_append.mp hh with hh | hh
    · exact hbefore h hh
    · rw [mem_singleton.mp hh]
      exact htag
  | delegate _ => exact hr.close hframes (hkept fun h hh => absurd hh not_mem_nil)
  | tryTable _ hclauses =>
    refine hr.openSeq _ (hkept fun clause hclause => ?_)
    obtain ⟨c, -, hc⟩ := forall₂_mem_right (mapM_eq_ok_iff.mp hclauses) hclause
    exact clause_within hc
  | done => exact hr.close hframes (hr.frames top hmem)

theorem run_within {is : List Wire.Instr} {final : List Seq} (h : run scope r is = .ok final)
    (hr : r.Resolved scope) (his : ∀ i ∈ is, i.Spelled) :
    ∀ s ∈ final, ∀ i ∈ s.instrs, i.Within scope.tables scope.tags := by
  induction is generalizing r with
  | nil =>
    obtain ⟨-, rfl⟩ := run_nil_iff.mp h
    exact hr.seqs
  | cons i rest ih =>
    obtain ⟨top, outer, next, hframes, hstep, hrun⟩ := run_cons_iff.mp h
    obtain ⟨hi, hrest⟩ := forall_mem_cons.mp his
    exact ih hrun (hstep.resolved hframes hr hi) hrest

end Reading

theorem Body.seqsOfCode_within {scope : Scope} {type : TypeId} {code : Bytes} {seqs : List Seq}
    (h : Body.seqsOfCode scope type code = .ok seqs) :
    ∀ s ∈ seqs, ∀ i ∈ s.instrs, i.Within scope.tables scope.tags := by
  obtain ⟨is, his, hrun⟩ := Body.seqsOfCode_eq_ok_iff.mp h
  refine Reading.run_within hrun ⟨?_, ?_⟩ (Wire.decodeInstrs_spelled his)
  · exact forall_mem_singleton.mpr fun i hi => absurd hi not_mem_nil
  · exact forall_mem_singleton.mpr fun i hi => absurd hi (Option.not_mem_none i)

theorem Body.walk_within {b : Body} {tables tags : Nat} {visits : List Visit}
    (h : b.walk = .ok visits) (hb : ∀ s ∈ b.seqs, ∀ i ∈ s.instrs, i.Within tables tags) :
    ∀ v ∈ visits, v.instr.Within tables tags := by
  intro v hv
  obtain ⟨s, hs, hi⟩ := Option.bind_eq_some_iff.mp (walkSeq_visit h hv).2
  exact hb s (mem_of_getElem? hs) v.instr (mem_of_getElem? hi)

namespace Program

variable {m : Wire.Module} {p q s : Program} {tables : List Table} {exports : List Export}

theorem ReadFrom.within (h : ReadFrom m p q s tables exports) {f : Function} (hf : f ∈ p.funcs)
    {b : Body} (hkind : f.kind = .defined b) :
    ∀ s ∈ b.seqs, ∀ i ∈ s.instrs, i.Within p.tables.length p.tags.length := by
  obtain ⟨k, hk⟩ := getElem?_of_mem hf
  obtain ⟨i, rfl, hi⟩ := h.defined hk hkind
  obtain ⟨_, _, b', f', hf', hkind', hread, -⟩ := h.body (getElem?_eq_getElem hi)
  cases hk.symm.trans hf'
  cases hkind.symm.trans hkind'
  exact Body.seqsOfCode_within hread.seqs

theorem Exported.within {e : Wire.Export} {x : Export} (h : Exported p e x) : x.target.Within p := by
  cases h with
  | func _ hlt | table _ hlt | tag _ hlt => exact hlt
  | other => trivial

/-- What was read names only what is there. -/
theorem ReadFrom.closed (h : ReadFrom m p q s tables exports) : p.Closed where
  paired := h.paired
  bodies := by
    intro f hf b hkind
    obtain ⟨visits, hvisits, -⟩ := h.wellFormed.bodies f hf b hkind
    exact ⟨visits, hvisits, Body.walk_within hvisits (h.within hf hkind)⟩
  exports := by
    intro x hx
    rw [h.exports_eq] at hx
    obtain ⟨e, -, hexported⟩ := forall₂_mem_right h.assembles.exported hx
    have hfuncs : p.funcs.length = (q.assembled m tables []).funcs.length := by
      have hlength := congrArg List.length h.import?_eq
      rw [length_map, length_map] at hlength
      exact hlength
    have htables : p.tables.length = (q.assembled m tables []).tables.length := by
      rw [h.parts]
      rfl
    have htags : p.tags.length = (q.assembled m tables []).tags.length := by
      rw [h.parts]
      rfl
    exact (hexported.congr hfuncs htables htags).within

theorem ReadFrom.emitFunction_exists (h : ReadFrom m p q s tables exports) {id : FuncId}
    (hid : id ∈ p.definedFuncs) : ∃ out, Emit.Gives (p.emitFunction p.numbering id) out := by
  obtain ⟨f, hf, hdefined⟩ := mem_positions.mp hid
  obtain ⟨b, hkind⟩ := Function.kind_of_not_isImported (by simpa using hdefined)
  obtain ⟨i, rfl, hi⟩ := h.defined hf hkind
  obtain ⟨_, _, _, is, -, -, his, hgives⟩ := h.emitFunction_gives (getElem?_eq_getElem hi)
  have hall : ∀ j ∈ (Wire.dropEmptyElse is).map (·.renumber .same), j.Writable := by
    refine forall_mem_map.mpr fun j hj => ?_
    have hspelled := Wire.decodeInstrs_spelled his j (Wire.mem_of_mem_dropEmptyElse hj)
    exact (hspelled.renumber _).writable
  obtain ⟨code, hcode⟩ := Wire.encodeInstrs_of_writable hall
  exact ⟨_, hgives code hcode⟩

/-- Where functions keep their places, a segment can be written exactly if it names functions that
are there. -/
theorem emitElement_exists_iff {numbering : Numbering} {n : Nat}
    (hfuncs : numbering.funcs = List.range n) (i : Nat) (e : Wire.Element) :
    (∃ found, emitElement numbering i e = .ok found) ↔ ∀ func ∈ e.funcs, func.toNat < n := by
  have hlength : numbering.funcs.length = n := by rw [hfuncs, length_range]
  simp only [emitElement, emitting_eq_ok_iff]
  constructor
  · rintro ⟨found, h⟩ func hfunc
    obtain ⟨funcs, hall, -⟩ := of_bind h
    obtain ⟨index, -, hindex⟩ := forall₂_mem_left (mapM_eq_ok_iff.mp hall) hfunc
    split at hindex
    next hlt => exact hlength ▸ hlt
    next => cases hindex
  · intro h
    obtain ⟨funcs, hall⟩ := exists_forall₂ fun func hfunc =>
      (⟨_, if_pos (hlength ▸ h func hfunc)⟩ : ∃ index, (if func.toNat < numbering.funcs.length then
        (.ok (Numbering.indexIn numbering.funcs func.toNat) : Except Failure UInt32)
        else .error (.fault (.functionRange func))) = .ok index)
    obtain ⟨exprs, hexprs⟩ := exists_forall₂ fun expr (_ : expr ∈ e.exprs) =>
      (⟨expr, followExpr_unmoved hfuncs expr⟩ : ∃ found, followExpr numbering expr = .ok found)
    exact ⟨_, bind_eq_ok_iff.mpr ⟨funcs, mapM_eq_ok_iff.mpr hall,
      bind_eq_ok_iff.mpr ⟨exprs, mapM_eq_ok_iff.mpr hexprs, rfl⟩⟩⟩

/-- A program that was read and starts outside of its functions is stopped there, unless one of its
segments is at fault before that. -/
theorem ReadFrom.toModule_outside (h : ReadFrom m p q s tables exports) {a : Abort}
    (ha : p.StartsOutside a) : p.toModule =
      (p.elements.zipIdx.mapM fun e => emitElement p.numbering e.2 e.1) >>= fun _ =>
        .error (.abort a) := by
  obtain ⟨bodies, hbodies⟩ := exists_forall₂ fun id hid => h.emitFunction_exists hid
  obtain ⟨imports, himports⟩ := h.paired.importsToWire_exists
  obtain ⟨exports', hexports⟩ := h.closed.exportsToWire_exists
  have hfuncs : p.numbering.funcs = List.range p.funcs.length := by rw [h.ordered.numbering]
  obtain ⟨globals, hglobals⟩ := exists_forall₂ fun g (_ : g ∈ p.globals.zipIdx) =>
    (⟨g.1, by rw [emitGlobal, followExpr_unmoved hfuncs]; rfl⟩ :
      ∃ found, emitGlobal p.numbering g.2 g.1 = .ok found)
  obtain ⟨start, hstart, hge, rfl⟩ := ha
  have houtside : p.startIndex p.numbering = .error (.outOfRange start p.funcs.length) := by
    unfold startIndex
    rw [hstart, Option.mapM_some]
    unfold Numbering.func Numbering.index
    rw [h.paired.funcs_length, if_neg (Nat.not_lt.mpr hge)]
    rfl
  have hrun : ((p.definedFuncs.mapM (p.emitFunction p.numbering)).run [] :
      Except Failure _) = .ok (bodies, []) := Emit.Gives.mapM hbodies []
  have hliftImports : (liftM p.importsToWire : Except Failure (List Wire.Import)) = .ok imports := by
    rw [himports]
    rfl
  have hliftExports : (liftM (p.exportsToWire p.numbering) : Except Failure (List Wire.Export)) =
      .ok exports' := by
    rw [hexports]
    rfl
  have hliftStart : (liftM (p.startIndex p.numbering) : Except Failure (Option UInt32)) =
      .error (.abort (.outOfRange start p.funcs.length)) := by
    rw [houtside]
    rfl
  unfold toModule
  simp only [hrun, hliftImports, mapM_eq_ok_iff.mpr hglobals, hliftExports, hliftStart, ok_bind]
  rfl

/-- Writing what was read is stopped exactly if it starts with a function that is not there, and its
segments name functions that are. -/
theorem ReadFrom.emit_eq_abort_iff (h : ReadFrom m p q s tables exports) {a : Abort} :
    p.emit = .error (.abort a) ↔ p.StartsOutside a ∧
      ∀ e ∈ p.elements, ∀ func ∈ e.funcs, func.toNat < p.funcs.length := by
  have hfuncs : p.numbering.funcs = List.range p.funcs.length := by rw [h.ordered.numbering]
  constructor
  · intro habort
    have ha := h.closed.emit_ends.abort a habort
    refine ⟨ha, fun e he => ?_⟩
    rw [emit, h.toModule_outside ha] at habort
    cases helements : p.elements.zipIdx.mapM fun e => emitElement p.numbering e.2 e.1 with
    | ok found =>
      obtain ⟨i, hi⟩ := getElem?_of_mem he
      obtain ⟨_, -, hwritten⟩ := forall₂_mem_left (mapM_eq_ok_iff.mp helements)
        (mk_mem_zipIdx_iff_getElem?.mpr hi)
      exact (emitElement_exists_iff hfuncs i e).mp ⟨_, hwritten⟩
    | error failure =>
      rw [helements] at habort
      cases habort
      have hends : Ends (fun _ => False) (p.elements.zipIdx.mapM fun e =>
          emitElement p.numbering e.2 e.1) (Forall₂ (fun _ _ => True) _) :=
        Turns.mapM fun e _ => emitElement_ends p.numbering e.2 e.1
      exact (hends.abort a helements).elim
  · rintro ⟨ha, hall⟩
    obtain ⟨found, hfound⟩ := exists_forall₂ fun e (he : e ∈ p.elements.zipIdx) =>
      (emitElement_exists_iff hfuncs e.2 e.1).mpr (hall e.1 (fst_mem_of_mem_zipIdx he))
    rw [emit, h.toModule_outside ha, mapM_eq_ok_iff.mpr hfound]
    rfl

end Program

end HostCatch
