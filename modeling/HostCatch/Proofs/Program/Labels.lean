import HostCatch.Proofs.Program.Copying
import HostCatch.Proofs.Program.Legible

namespace HostCatch

open List

namespace Body

/-- A body that can be read back from its code. What is read is a copy of it, and the instructions of
the code but for delimiters stand for those of the body, in the order in which the body is walked. Each
of them is read where the copies of the sequences around the one that it stands for are open, and the
result corresponds to that one. -/
structure ReadBack (b : Body) (scope : Scope) (is : List Wire.Instr) (σ : SeqId → SeqId) (b' : Body) :
    Prop extends b.Copied σ b' where
  order : ∃ visits, b.walk = .ok visits ∧ List.Forall₂ (fun x (v : Visit) => ∃ labels j,
    b.Path v.seq labels ∧ b'.Path (σ v.seq) (labels.map σ) ∧ scope.Reads (labels.map σ) x j ∧
      b'.instr? (σ v.seq) v.index = some j ∧ v.instr.Corresponds σ j)
    (is.filter fun i => !i.delimits) visits

theorem Copied.readBack {b b' : Body} {σ : SeqId → SeqId} (h : b.Copied σ b')
    {visits visits' : List Visit} (hwalk : b.walk = .ok visits) {scope : Scope} {is : List Wire.Instr}
    (ht : b'.Traced scope is visits') : b.ReadBack scope is σ b' := by
  have hwalk' : b'.walkSeq (b'.seqs.length + 1) (σ b.entry) = .ok visits' := by
    rw [h.entry]
    exact ht.walk
  have hvisits := h.walkSeq (.refl b.entry) hwalk hwalk'
  have hmembers := (forall₂_and_left _ _).mpr ⟨fun v' hv' => hv',
    ((forall₂_and_left _ _).mpr ⟨fun v hv => hv, hvisits⟩).flip⟩
  refine ⟨h, visits, hwalk, ?_⟩
  refine forall₂_square ht.order (forall₂_same.mpr fun _ _ => rfl) hmembers ?_
  rintro x v' _ v ⟨labels', hpath', hreads⟩ rfl ⟨hv', hv, hseq, hindex, hcorresponds⟩
  have hi := (ht.all v').mp hv'
  obtain ⟨hreach, -⟩ := (mem_walk_iff hwalk).mp hv
  obtain ⟨labels, hpath⟩ := hreach.path .entry
  have hcopied := h.path hpath
  obtain ⟨s, hs, -⟩ := Option.bind_eq_some_iff.mp hi
  obtain ⟨_, -, hunique⟩ := ht.paths v'.seq (lt_of_getElem? hs)
  rw [hseq] at hi hpath' hunique
  obtain rfl : labels' = labels.map σ := (hunique _ hpath').trans (hunique _ hcopied).symm
  exact ⟨labels, v'.instr, hpath, hcopied, hreads, hindex ▸ hi, hcorresponds⟩

theorem params_length_le (b : Body) : b.params.length ≤ b.slots.length := by
  have hall : ∀ (vars slots : List LocalId), slots.length ≤
      (vars.foldl (fun slots var => if var ∈ slots then slots else slots ++ [var]) slots).length := by
    intro vars
    induction vars with
    | nil => exact fun _ => Nat.le_refl _
    | cons var vars ih =>
      intro slots
      refine Nat.le_trans ?_ (ih _)
      dsimp only
      split
      next => exact Nat.le_refl _
      next => simp
  exact hall b.locals b.params

end Body

namespace Program

variable {p r : Program} {extra : List ValType} {type : TypeId} {b : Body}

theorem Supplies.sized (h : p.Supplies type b) (hsize : p.types.length < 2 ^ 31) : b.Sized where
  seqs := h.seqs
  slots := h.slots
  types := by
    intro s hs type' htype
    have hreadable := h.blocks s hs
    rw [htype] at hreadable
    exact Nat.lt_trans hreadable hsize
  calls := by
    intro s hs i hi type' htype
    exact Nat.lt_trans ((h.instrs s hs i hi).called type' htype) (Nat.lt_trans hsize (by decide))

theorem Supplies.legible (h : p.Supplies type b) {types : Nat} (hle : p.types.length ≤ types) :
    p.Legible types type b where
  vars := by
    intro var hvar v hv
    obtain ⟨v', hv', hknown⟩ := h.vars var hvar
    cases hv.symm.trans hv'
    exact hknown
  code := by
    have hlocals : (p.params type).length + b.declared.length = b.slots.length := by
      rw [Body.declared, length_drop, ← h.params, Nat.add_sub_cancel' b.params_length_le]
    have hopens : ∀ id, b.Opens types id := fun id s hs =>
      (h.blocks s (mem_of_getElem? hs)).mono hle
    have hplace : ∀ var ∈ b.slots, b.place var < b.slots.length := by
      intro var hvar
      have hpos := length_pos_of_mem hvar
      unfold Body.place
      omega
    rw [hlocals]
    intro seq index i _ hi
    obtain ⟨s, hs, hi⟩ := Option.bind_eq_some_iff.mp hi
    have hsupplied := h.instrs s (mem_of_getElem? hs) i (mem_of_getElem? hi)
    cases i with
    | block | loop | ifElse | tryTable => exact hopens _
    | tryCatch => exact ⟨hopens _, hsupplied.2⟩
    | callIndirect | returnCallIndirect => exact Nat.lt_of_lt_of_le hsupplied.1 hle
    | localGet | localSet | localTee => exact hplace _ hsupplied
    | _ => trivial

/-- The code that is written for a body is read back, wherever there is room for the program and all
fits the format. -/
def ReadsBack (p : Program) (extra : List ValType) (type : TypeId) (b : Body) (code : Wire.FuncBody) :
    Prop :=
  (∀ space, p.count space ≤ 2 ^ 32) → code.code.length < 2 ^ 32 → ∀ r, Receives p r extra →
    r.types.length < 2 ^ 31 → ∀ func start, r.typeOf func = type → ∃ declared b' is σ,
      r.ReadsBody func start code declared b' ∧ Wire.decodeInstrs code.code = .ok is ∧
      b.ReadBack (r.scope func (b'.params ++ b'.locals)) is σ b'

/-- The code of a body reads as the body again, under new names. -/
theorem Supplies.readsBack (h : p.Supplies type b) (hp : p.Paired) {id : FuncId}
    {code : Wire.FuncBody} (hw : p.WritesBody extra id b code) : p.ReadsBack extra type b code := by
  rintro hcount hlength r hreceives hsize func start rfl
  have hle : p.types.length ≤ r.types.length := by
    rw [hreceives.types, typesWith, length_append]
    exact Nat.le_add_right _ _
  have hsized := h.sized (Nat.lt_of_le_of_lt hle hsize)
  have hclean : ∀ s ∈ b.seqs, ∀ i ∈ s.instrs, i.Clean := fun s hs i hi => (h.instrs s hs i hi).clean
  obtain ⟨declared, b', hreads⟩ := (hreceives.readsBody_iff hp hcount hsize hsized hclean hw
    hlength func h.typed start).mpr (h.legible hle)
  obtain ⟨ws, hencode, hws⟩ := hw.instrs
  have hdecode := hreceives.decodeInstrs_eq hp hcount hsize hsized hclean hws hencode hlength
  obtain ⟨is, his, hread⟩ := Body.seqsOfCode_eq_ok_iff.mp hreads.seqs
  cases his.symm.trans hdecode
  obtain ⟨visits', htraced⟩ :=
    Body.traced_of_run hreads.entry (Wire.decodeInstrs_spelled his) hread
  obtain ⟨σ, hcopied⟩ := Body.copied_of_codes (w := ⟨p.numbering, p.types, id, b, b.slots⟩) h.tree
    h.instrs h.seqs hws hreads.entry hread
  obtain ⟨visits, hwalk, -⟩ := h.tree
  exact ⟨declared, b', _, σ, hreads, his, hcopied.readBack hwalk htraced⟩

/-- If all bodies of a program branch to enclosing sequences only, their code is written, and each depth
in it leads to what stands for the sequence which it was written for. If one of them does not, nothing
is written at all. -/
theorem toModule_readsBack (hp : p.Paired) (h : p.Supplied) :
    (p.Enclosed → ∃ bodies extra,
      (p.definedFuncs.mapM (p.emitFunction p.numbering)).run [] = .ok (bodies, extra) ∧
      (∀ out, p.toModule = .ok out → out.code = bodies.map Prod.snd) ∧
      List.Forall₂ (fun id body => ∃ f b, p.funcs[id]? = some f ∧ f.kind = .defined b ∧
        p.ReadsBack extra f.type b body.2) p.definedFuncs bodies) ∧
    (¬ p.Enclosed → ∃ d, p.toModule = .error (.fault (.diagnosed d)) ∧ d.kind = .unresolvedLabel) := by
  have hhinges := h.bodies_hinge hp []
  refine ⟨fun henclosed => ?_, fun hstray => ?_⟩
  · obtain ⟨⟨bodies, extra⟩, hrun⟩ := hhinges.succeeds henclosed
    refine ⟨bodies, extra, hrun, fun out hout => ?_, ?_⟩
    · obtain ⟨bodies', extra', names, hemits⟩ := toModule_eq_ok_iff.mp hout
      cases hrun.symm.trans hemits.run
      exact hemits.code
    · have hall := (run_mapM_grows (fun id _ => p.emitFunction_grows p.numbering id) hrun).2
      refine ((forall₂_and_left _ _).mpr ⟨fun id hid => hid, hall⟩).imp ?_
      rintro id body ⟨hid, u, v, hbody, hv⟩
      obtain ⟨f, hf, hnone⟩ := mem_positions.mp hid
      obtain ⟨b, hb⟩ := Function.kind_of_not_isImported (by simpa using hnone)
      obtain ⟨-, -, hemit⟩ := emitFunction_eq_ok hf hb hbody
      exact ⟨f, b, hf, hb, (h f (mem_of_getElem? hf) b hb).readsBack hp (.of_run hemit hv)⟩
  · obtain ⟨d, hd, hkind⟩ := hhinges.stops hstray
    exact ⟨d, congrArg (· >>= _) hd, hkind⟩

/-- A block around a loop with a conditional and a `try`, and around a `try_table`, with branches out
of all of them. The sequences are not numbered in the order of the code. -/
def twisted : Body where
  seqs := [⟨.multi 0, [.block 3]⟩,
    ⟨.empty, [.const (.i32 0), .ifElse 5 2, .tryCatch 7 [⟨some 0, 4⟩] none]⟩,
    ⟨.empty, [.brTable [3, 2] 0]⟩,
    ⟨.empty, [.loop 1, .tryTable 6 [⟨0, 0, 3⟩]]⟩,
    ⟨.empty, [.br 3]⟩, ⟨.empty, [.br 1]⟩, ⟨.empty, [.throw 0]⟩, ⟨.empty, [.throw 0]⟩]

/-- A branch to a block behind its end. -/
def stray : Body where
  seqs := [⟨.multi 0, [.block 1, .br 1]⟩, ⟨.empty, []⟩]

/-- A program of one function, with a tag to throw. -/
def holding (b : Body) : Program where
  types := [⟨[], []⟩]
  funcs := [⟨[], 0, .defined b⟩]
  tags := [⟨0, 0, none⟩]

theorem holding_paired (b : Body) : (holding b).Paired where
  funcs := (Links.nil _).append (by simp [Function.import?])
  tables := .nil _
  tags := (Links.nil _).append (by simp)

theorem holding_supplied (hparams : b.params = []) (htree : b.IsTree)
    (hblocks : ∀ s ∈ b.seqs, s.type.Readable 1)
    (hinstrs : ∀ s ∈ b.seqs, ∀ i ∈ s.instrs, i.Supplied (holding b) b) (hvars : b.declared = [])
    (hseqs : b.seqs.length < 2 ^ 32) (hslots : b.slots.length < 2 ^ 32) : (holding b).Supplied := by
  intro f hf c hc
  cases mem_singleton.mp hf
  cases hc
  refine ⟨Nat.zero_lt_one, by rw [hparams]; rfl, htree, hblocks, hinstrs, ?_, hseqs, hslots⟩
  rw [hvars]
  exact forall_mem_nil _

theorem twisted_supplied : (holding twisted).Supplied := by
  refine holding_supplied rfl ⟨_, rfl, by decide⟩ ?_ ?_ rfl (by decide) (by decide)
  · simp [twisted, BlockType.Readable]
  · simp [twisted, Instr.Supplied, holding]

theorem stray_supplied : (holding stray).Supplied := by
  refine holding_supplied rfl ⟨_, rfl, by decide⟩ ?_ ?_ rfl (by decide) (by decide)
  · simp [stray, BlockType.Readable]
  · simp [stray, Instr.Supplied]

theorem twisted_enclosed : (holding twisted).Enclosed := by
  by_contra hstray
  obtain ⟨d, hd, -⟩ := (twisted_supplied.bodies_hinge (holding_paired twisted) []).stops hstray
  cases hd

theorem stray_not_enclosed : ¬ (holding stray).Enclosed := by
  intro h
  have henclosed := h _ (mem_singleton_self _) stray rfl
  have hmem := henclosed 0 [0] 1 (.br 1) .entry rfl 1 (mem_singleton_self _)
  simp at hmem

/-- What is written for the body: a branch out of the conditional to the loop has the depth one, one out
of the handler to the block the depth two. -/
def twistedCode : Wire.FuncBody :=
  ⟨[], [0x02, 0x40, 0x03, 0x40, 0x41, 0x00, 0x04, 0x40, 0x0C, 0x01, 0x05, 0x0E, 0x02, 0x02, 0x00, 0x03,
    0x0B, 0x06, 0x40, 0x08, 0x00, 0x07, 0x00, 0x0C, 0x02, 0x0B, 0x0B,
    0x1F, 0x40, 0x01, 0x00, 0x00, 0x00, 0x08, 0x00, 0x0B, 0x0B, 0x0B]⟩

theorem twisted_readsBack : (∃ out declared b' is σ, (holding twisted).toModule = .ok out ∧
      out.code = [twistedCode] ∧ (holding twisted).ReadsBody 0 0 twistedCode declared b' ∧
      Wire.decodeInstrs twistedCode.code = .ok is ∧
      twisted.ReadBack ((holding twisted).scope 0 (b'.params ++ b'.locals)) is σ b') ∧
    ∃ d, (holding stray).toModule = .error (.fault (.diagnosed d)) ∧ d.kind = .unresolvedLabel := by
  refine ⟨?_, (toModule_readsBack (holding_paired stray) stray_supplied).2 stray_not_enclosed⟩
  obtain ⟨bodies, extra, hrun, hcode, hall⟩ :=
    (toModule_readsBack (holding_paired twisted) twisted_supplied).1 twisted_enclosed
  obtain ⟨code, hwritten, rfl⟩ : ∃ code, ((holding twisted).definedFuncs.mapM
      ((holding twisted).emitFunction (holding twisted).numbering)).run [] = .ok ([(0, code)], []) ∧
        code = twistedCode := ⟨_, rfl, by decide +kernel⟩
  cases hrun.symm.trans hwritten
  obtain ⟨out, hout⟩ : ∃ out, (holding twisted).toModule = .ok out := ⟨_, rfl⟩
  obtain ⟨_, _, ⟨f, b, hf, hb, hback⟩, -, hids⟩ := forall₂_cons_right_iff.mp hall
  cases hids
  cases hf
  cases hb
  have hcount : ∀ space, (holding twisted).count space ≤ 2 ^ 32 := by
    intro space
    cases space <;> decide
  obtain ⟨declared, b', is, σ, hreads, his, hreadBack⟩ := hback hcount (by decide) (holding twisted)
    ⟨rfl, rfl, rfl, rfl⟩ (by decide) 0 0 rfl
  exact ⟨out, declared, b', is, σ, hout, hcode out hout, hreads, his, hreadBack⟩

end Program

end HostCatch
