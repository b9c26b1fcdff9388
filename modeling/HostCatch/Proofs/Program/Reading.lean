import HostCatch.Program.OfBody
import HostCatch.Proofs.Success
import Mathlib.Data.List.Nodup

namespace HostCatch

open List

theorem eq_ofNat_of_toNat_eq {op : UInt8} {n : Nat} (h : op.toNat = n) : op = UInt8.ofNat n := by
  rw [← h, UInt8.ofNat_toNat]

/-- An instruction that reading looks into; all others are kept as they are written. -/
inductive Wire.Instr.Known : Wire.Instr → Prop
  | block (t) : Known ⟨0x02, .block t⟩
  | loop (t) : Known ⟨0x03, .block t⟩
  | ifElse (t) : Known ⟨0x04, .block t⟩
  | orElse (imm) : Known ⟨0x05, imm⟩
  | tryCatch (t) : Known ⟨0x06, .block t⟩
  | catch (tag) : Known ⟨0x07, .throw tag⟩
  | catchAll (imm) : Known ⟨0x19, imm⟩
  | delegate (depth) : Known ⟨0x18, .branch depth⟩
  | tryTable (t catches) : Known ⟨0x1F, .tryTable t catches⟩
  | done (imm) : Known ⟨0x0B, imm⟩
  | br (depth) : Known ⟨0x0C, .branch depth⟩
  | brIf (depth) : Known ⟨0x0D, .branch depth⟩
  | brTable (labels last) : Known ⟨0x0E, .brTable labels last⟩
  | call (func) : Known ⟨0x10, .call func⟩
  | returnCall (func) : Known ⟨0x12, .call func⟩
  | callIndirect (type table) : Known ⟨0x11, .callIndirect type table⟩
  | returnCallIndirect (type table) : Known ⟨0x13, .callIndirect type table⟩
  | localGet (index) : Known ⟨0x20, .localVar index⟩
  | localSet (index) : Known ⟨0x21, .localVar index⟩
  | localTee (index) : Known ⟨0x22, .localVar index⟩
  | tableGet (index) : Known ⟨0x25, .table index⟩
  | tableSet (index) : Known ⟨0x26, .table index⟩
  | i32 (value) : Known ⟨0x41, .i32 value⟩
  | i64 (value) : Known ⟨0x42, .i64 value⟩
  | f32 (bits) : Known ⟨0x43, .f32 bits⟩
  | f64 (bits) : Known ⟨0x44, .f64 bits⟩
  | refNull (heap) : Known ⟨0xD0, .refNull heap⟩
  | refFunc (func) : Known ⟨0xD2, .refFunc func⟩
  | throw (tag) : Known ⟨0x08, .throw tag⟩
  | ret (imm) : Known ⟨0x0F, imm⟩
  | unreachable (imm) : Known ⟨0x00, imm⟩

/-- The instruction that one without nested code stands for. -/
inductive Scope.Plain (scope : Scope) (frames : List Frame) : Wire.Instr → Instr → Prop
  | br {depth target} : scope.label frames depth = .ok target →
      Plain scope frames ⟨0x0C, .branch depth⟩ (.br target)
  | brIf {depth target} : scope.label frames depth = .ok target →
      Plain scope frames ⟨0x0D, .branch depth⟩ (.brIf target)
  | brTable {labels last targets target} : labels.mapM (scope.label frames) = .ok targets →
      scope.label frames last = .ok target →
      Plain scope frames ⟨0x0E, .brTable labels last⟩ (.brTable targets target)
  | call {func id} : scope.funcRef func = .ok id → Plain scope frames ⟨0x10, .call func⟩ (.call id)
  | returnCall {func id} : scope.funcRef func = .ok id →
      Plain scope frames ⟨0x12, .call func⟩ (.returnCall id)
  | callIndirect {type table typeId id} :
      scope.check "call_indirect" type.toNat scope.types = .ok typeId →
      scope.tableRef table = .ok id →
      Plain scope frames ⟨0x11, .callIndirect type table⟩ (.callIndirect typeId id)
  | returnCallIndirect {type table typeId id} :
      scope.check "call_indirect" type.toNat scope.types = .ok typeId →
      scope.tableRef table = .ok id →
      Plain scope frames ⟨0x13, .callIndirect type table⟩ (.returnCallIndirect typeId id)
  | localGet {index var} : scope.localRef index = .ok var →
      Plain scope frames ⟨0x20, .localVar index⟩ (.localGet var)
  | localSet {index var} : scope.localRef index = .ok var →
      Plain scope frames ⟨0x21, .localVar index⟩ (.localSet var)
  | localTee {index var} : scope.localRef index = .ok var →
      Plain scope frames ⟨0x22, .localVar index⟩ (.localTee var)
  | tableGet {index id} : scope.tableRef index = .ok id →
      Plain scope frames ⟨0x25, .table index⟩ (.tableGet id)
  | tableSet {index id} : scope.tableRef index = .ok id →
      Plain scope frames ⟨0x26, .table index⟩ (.tableSet id)
  | i32 (value) : Plain scope frames ⟨0x41, .i32 value⟩ (.const (.i32 value))
  | i64 (value) : Plain scope frames ⟨0x42, .i64 value⟩ (.const (.i64 value))
  | f32 (bits) : Plain scope frames ⟨0x43, .f32 bits⟩ (.const (.f32 bits))
  | f64 (bits) : Plain scope frames ⟨0x44, .f64 bits⟩ (.const (.f64 bits))
  | refNull (heap) : Plain scope frames ⟨0xD0, .refNull heap⟩ (.refNull ⟨true, heap⟩)
  | refFunc {func id} : scope.funcRef func = .ok id →
      Plain scope frames ⟨0xD2, .refFunc func⟩ (.refFunc id)
  | throw {tag id} : scope.tagRef tag = .ok id → Plain scope frames ⟨0x08, .throw tag⟩ (.throw id)
  | ret (imm) : Plain scope frames ⟨0x0F, imm⟩ .ret
  | unreachable (imm) : Plain scope frames ⟨0x00, imm⟩ .unreachable
  | raw {i : Wire.Instr} : ¬ i.Known → Plain scope frames i (.raw i)

/-- The `try` that a handler behind a frame would belong to. -/
inductive Frame.Handles (f : Frame) : SeqId → List Handler → Prop
  | tried : f.role = .tried → Handles f f.seq []
  | handler {tried handlers} : f.role = .handler tried handlers → Handles f tried handlers

/-- The tag that the first instruction of a handler names. -/
inductive Scope.Catches (scope : Scope) : Wire.Instr → Option TagId → Prop
  | tag {tag id} : scope.tagRef tag = .ok id → Catches scope ⟨0x07, .throw tag⟩ (some id)
  | all (imm) : Catches scope ⟨0x19, imm⟩ none

namespace Reading

/-- What one instruction can do, read inside the frame `top` with the frames `outer` around it. -/
inductive Step (scope : Scope) (r : Reading) (top : Frame) (outer : List Frame) :
    Wire.Instr → Reading → Prop
  | plain {i j} : scope.Plain r.frames i j → Step scope r top outer i (r.emit top j)
  | block {t type} : scope.blockType t = .ok type →
      Step scope r top outer ⟨0x02, .block t⟩ (r.openSeq type fun seq => .sole (.block seq))
  | loop {t type} : scope.blockType t = .ok type →
      Step scope r top outer ⟨0x03, .block t⟩ (r.openSeq type fun seq => .sole (.loop seq))
  | ifElse {t type} : scope.blockType t = .ok type →
      Step scope r top outer ⟨0x04, .block t⟩
        { r.openSeq type fun seq => .consequent (seq + 1) with
          seqs := (r.openSeq type fun seq => .consequent (seq + 1)).seqs ++ [⟨type, []⟩] }
  | orElse (imm) {alternative} : top.role = .consequent alternative →
      Step scope r top outer ⟨0x05, imm⟩
        { r with frames := ⟨alternative, .alternative top.seq⟩ :: outer }
  | tryCatch {t type} : scope.blockType t = .ok type →
      Step scope r top outer ⟨0x06, .block t⟩ (r.openSeq type fun _ => .tried)
  | handler {i tag tried before} : scope.Catches i tag → top.Handles tried before →
      Step scope r top outer i (r.openHandler outer tried before tag)
  | delegate {depth} : top.role = .tried →
      Step scope r top outer ⟨0x18, .branch depth⟩
        (r.close outer (some (.tryCatch top.seq [] (some depth))))
  | tryTable {t catches type clauses} : scope.blockType t = .ok type →
      catches.mapM (scope.clause r.frames) = .ok clauses →
      Step scope r top outer ⟨0x1F, .tryTable t catches⟩
        (r.openSeq type fun seq => .sole (.tryTable seq clauses))
  | done (imm) : Step scope r top outer ⟨0x0B, imm⟩ (r.close outer top.construct?)

section Steps

variable {scope : Scope} {r next : Reading} {top : Frame} {outer : List Frame} {i : Wire.Instr}

/-- What reading does not look into is kept. -/
theorem step_of_not_known (h : ¬ i.Known) :
    step scope r top outer i = .ok (r.emit top (.raw i)) := by
  obtain ⟨op, imm⟩ := i
  unfold step
  dsimp only
  split
  on_goal -1 => rfl
  -- every pattern but the last one is that of a known instruction
  all_goals
    rename_i heq
    obtain rfl := eq_ofNat_of_toNat_eq heq
    exact absurd (by constructor) h

theorem step_orElse {imm : Wire.Imm} (h : step scope r top outer ⟨0x05, imm⟩ = .ok next) :
    Step scope r top outer ⟨0x05, imm⟩ next := by
  obtain ⟨seq, role⟩ := top
  cases role with
  | consequent =>
    cases h
    exact .orElse imm rfl
  | _ => cases h

theorem step_catch {tag : UInt32} (h : step scope r top outer ⟨0x07, .throw tag⟩ = .ok next) :
    Step scope r top outer ⟨0x07, .throw tag⟩ next := by
  obtain ⟨seq, role⟩ := top
  cases role with
  | tried =>
    obtain ⟨_, hfound, ⟨⟩⟩ := of_bind h
    obtain ⟨id, hid, rfl⟩ := map_eq_ok_iff.mp hfound
    exact .handler (.tag hid) (.tried rfl)
  | handler =>
    obtain ⟨_, hfound, ⟨⟩⟩ := of_bind h
    obtain ⟨id, hid, rfl⟩ := map_eq_ok_iff.mp hfound
    exact .handler (.tag hid) (.handler rfl)
  | _ => cases h

theorem step_catchAll {imm : Wire.Imm} (h : step scope r top outer ⟨0x19, imm⟩ = .ok next) :
    Step scope r top outer ⟨0x19, imm⟩ next := by
  obtain ⟨seq, role⟩ := top
  cases role with
  | tried =>
    cases h
    exact .handler (.all imm) (.tried rfl)
  | handler =>
    cases h
    exact .handler (.all imm) (.handler rfl)
  | _ => cases h

theorem step_delegate {depth : UInt32} (h : step scope r top outer ⟨0x18, .branch depth⟩ = .ok next) :
    Step scope r top outer ⟨0x18, .branch depth⟩ next := by
  obtain ⟨seq, role⟩ := top
  cases role with
  | tried =>
    cases h
    exact .delegate rfl
  | _ => cases h

theorem step_tryTable {t : Int32} {catches : List Wire.CatchClause}
    (h : step scope r top outer ⟨0x1F, .tryTable t catches⟩ = .ok next) :
    Step scope r top outer ⟨0x1F, .tryTable t catches⟩ next := by
  obtain ⟨type, htype, h⟩ := of_bind h
  obtain ⟨clauses, hclauses, h⟩ := of_bind h
  cases h
  exact .tryTable htype hclauses

/-- A step of reading is one of the steps that there are. -/
theorem step_of_eq_ok (h : step scope r top outer i = .ok next) : Step scope r top outer i next := by
  by_cases hknown : i.Known
  · cases hknown with
    | block =>
      obtain ⟨type, htype, ⟨⟩⟩ := of_bind h
      exact .block htype
    | loop =>
      obtain ⟨type, htype, ⟨⟩⟩ := of_bind h
      exact .loop htype
    | ifElse =>
      obtain ⟨type, htype, ⟨⟩⟩ := of_bind h
      exact .ifElse htype
    | tryCatch =>
      obtain ⟨type, htype, ⟨⟩⟩ := of_bind h
      exact .tryCatch htype
    | tryTable => exact step_tryTable h
    | orElse => exact step_orElse h
    | «catch» => exact step_catch h
    | catchAll => exact step_catchAll h
    | delegate => exact step_delegate h
    | done imm =>
      cases h
      exact .done imm
    | br | brIf | call | returnCall | localGet | localSet | localTee | tableGet | tableSet | refFunc
    | throw =>
      obtain ⟨found, hfound, ⟨⟩⟩ := of_bind h
      exact .plain (by constructor; exact hfound)
    | brTable =>
      obtain ⟨targets, htargets, h⟩ := of_bind h
      obtain ⟨target, htarget, ⟨⟩⟩ := of_bind h
      exact .plain (.brTable htargets htarget)
    | callIndirect | returnCallIndirect =>
      obtain ⟨type, htype, h⟩ := of_bind h
      obtain ⟨table, htable, ⟨⟩⟩ := of_bind h
      exact .plain (by constructor <;> assumption)
    | i32 | i64 | f32 | f64 | refNull | ret | unreachable =>
      cases h
      exact .plain (by constructor)
  · cases (step_of_not_known hknown).symm.trans h
    exact .plain (.raw hknown)

theorem step_eq_ok (h : Step scope r top outer i next) : step scope r top outer i = .ok next := by
  cases h with
  | plain h =>
    cases h with
    | raw hraw => exact step_of_not_known hraw
    | i32 | i64 | f32 | f64 | refNull | ret | unreachable => rfl
    | _ => simp_all [step]
  | orElse imm hrole => simp [step, hrole]
  | handler hcatch hhandles => cases hcatch <;> cases hhandles <;> simp_all [step]
  | delegate hrole => simp [step, hrole]
  | done imm => rfl
  | tryTable htype hclauses => simp [step, htype, hclauses]
  | block htype => simp [step, htype]
  | loop htype => simp [step, htype]
  | ifElse htype => simp [step, htype]
  | tryCatch htype => simp [step, htype]

end Steps

end Reading

/-- The sequence that a frame will go on with after an `else`. -/
def Frame.pending? (f : Frame) : Option SeqId :=
  match f.role with
  | .consequent alternative => some alternative
  | _ => none

namespace Reading

variable {f : Frame} {final : List Seq} {frames : List Frame} {role : SeqId → Role}
  {type : BlockType}
  {r : Reading}

/-- The sequences that may still grow. -/
def openSeqs (r : Reading) : List Nat :=
  r.frames.map Frame.seq ++ r.frames.filterMap Frame.pending?

/-- Sequences that may still grow exist and are different; an alternative is empty before its `else`.
-/
structure Sound (r : Reading) : Prop where
  nodup : r.openSeqs.Nodup
  bounded : ∀ id ∈ r.openSeqs, id < r.seqs.length
  pending : ∀ id ∈ r.frames.filterMap Frame.pending?, ∃ type, r.seqs[id]? = some ⟨type, []⟩

theorem Sound.seq_lt (h : r.Sound) (hf : f ∈ r.frames) : f.seq < r.seqs.length :=
  h.bounded f.seq (mem_append_left _ (mem_map_of_mem hf))

/-- Sequences keep their types, and those that are closed keep their instructions. -/
def Grows (r : Reading) (final : List Seq) : Prop :=
  ∀ (id : SeqId) s, r.seqs[id]? = some s → ∃ t, final[id]? = some t ∧ t.type = s.type ∧
    (id ∉ r.openSeqs → t = s)

theorem emit_seqs (r : Reading) (f : Frame) (i : Instr) (id : SeqId) :
    (r.emit f i).seqs[id]? = (r.seqs[id]?).map fun s =>
      if f.seq = id then { s with instrs := s.instrs ++ [i] } else s := by
  simp only [emit, getElem?_modify]
  split <;> rfl

theorem emit_sound (h : r.Sound) (hf : f ∈ r.frames) (i : Instr) :
    (r.emit f i).Sound where
  nodup := h.nodup
  bounded := by
    intro id hid
    simpa [emit] using h.bounded id hid
  pending := by
    intro id hid
    obtain ⟨type, htype⟩ := h.pending id hid
    have hne : f.seq ≠ id :=
      (nodup_append.mp h.nodup).2.2 _ (mem_map.mpr ⟨f, hf, rfl⟩) id hid
    exact ⟨type, by simp [emit_seqs, htype, hne]⟩

theorem emit_grows (hf : f ∈ r.frames) {i : Instr} (h : (r.emit f i).Grows final) :
    r.Grows final := by
  intro id s hs
  obtain ⟨t, ht, htype, hsame⟩ := h id _ (by rw [emit_seqs, hs]; rfl)
  refine ⟨t, ht, ?_, ?_⟩
  · rw [htype]
    split <;> rfl
  · intro hclosed
    have hne : f.seq ≠ id := by
      rintro rfl
      exact hclosed (mem_append_left _ (mem_map.mpr ⟨f, hf, rfl⟩))
    simpa [hne] using hsame hclosed

theorem frames_sound (h : r.Sound) (hsub : frames.Sublist r.frames) :
    ({ r with frames } : Reading).Sound where
  nodup := h.nodup.sublist ((hsub.map _).append (hsub.filterMap _))
  bounded := fun id hid => h.bounded id (((hsub.map _).append (hsub.filterMap _)).subset hid)
  pending := fun id hid => h.pending id ((hsub.filterMap _).subset hid)

theorem frames_grows (hsub : ∀ id ∈ ({ r with frames } : Reading).openSeqs, id ∈ r.openSeqs)
    (h : ({ r with frames } : Reading).Grows final) : r.Grows final := by
  intro id s hs
  obtain ⟨t, ht, htype, hsame⟩ := h id s hs
  exact ⟨t, ht, htype, fun hclosed => hsame fun hid => hclosed (hsub id hid)⟩

theorem openSeq_sound (h : r.Sound) (type : BlockType)
    (hrole : (⟨r.seqs.length, role r.seqs.length⟩ : Frame).pending? = none) :
    (r.openSeq type role).Sound := by
  have hfresh : r.seqs.length ∉ r.openSeqs := fun hid => Nat.lt_irrefl _ (h.bounded _ hid)
  have hopen : (r.openSeq type role).openSeqs = r.seqs.length :: r.openSeqs := by
    simp [openSeqs, openSeq, hrole]
  refine ⟨?_, ?_, ?_⟩
  · rw [hopen]
    exact nodup_cons.mpr ⟨hfresh, h.nodup⟩
  · rw [hopen]
    intro id hid
    simp only [openSeq, length_append, length_singleton]
    rcases mem_cons.mp hid with rfl | hid
    · exact Nat.lt_succ_self _
    · exact Nat.lt_succ_of_lt (h.bounded id hid)
  · intro id hid
    simp only [openSeq, filterMap_cons, hrole] at hid
    obtain ⟨found, hfound⟩ := h.pending id hid
    refine ⟨found, ?_⟩
    rw [← hfound]
    exact getElem?_append_left (h.bounded id (mem_append_right _ hid))

theorem grows_of_append {next : Reading} (more : List Seq) (hseqs : next.seqs = r.seqs ++ more)
    (hopen : ∀ id ∈ next.openSeqs, id < r.seqs.length → id ∈ r.openSeqs) (h : next.Grows final) :
    r.Grows final := by
  intro id s hs
  have hlt := lt_of_getElem? hs
  obtain ⟨t, ht, htype, hsame⟩ := h id s (by rw [hseqs, getElem?_append_left hlt, hs])
  exact ⟨t, ht, htype, fun hclosed => hsame fun hid => hclosed (hopen id hid hlt)⟩

theorem openSeq_grows (hrole : (⟨r.seqs.length, role r.seqs.length⟩ : Frame).pending? = none)
    (h : (r.openSeq type role).Grows final) : r.Grows final := by
  refine grows_of_append [⟨type, []⟩] rfl ?_ h
  intro id hid hlt
  simp only [openSeqs, openSeq, map_cons, filterMap_cons, hrole, cons_append] at hid
  rcases mem_cons.mp hid with rfl | hid
  · exact absurd hlt (Nat.lt_irrefl _)
  · exact hid

theorem openIf_sound (h : r.Sound) (type : BlockType) :
    Sound { r.openSeq type fun seq => .consequent (seq + 1) with
      seqs := (r.openSeq type fun seq => .consequent (seq + 1)).seqs ++ [⟨type, []⟩] } := by
  have hfresh : ∀ n, r.seqs.length + n ∉ r.openSeqs :=
    fun n hid => absurd (h.bounded _ hid) (by omega)
  have hfirst := hfresh 0
  have hsecond := hfresh 1
  have hnodup := h.nodup
  simp only [openSeqs, mem_append, not_or, Nat.add_zero] at hfirst hsecond hnodup
  refine ⟨?_, ?_, ?_⟩
  · simp only [openSeqs, openSeq, map_cons, filterMap_cons, Frame.pending?,
      cons_append, nodup_cons, mem_append, mem_cons, not_or]
    refine ⟨⟨hfirst.1, by omega, hfirst.2⟩, ?_⟩
    exact (nodup_middle).mpr (nodup_cons.mpr
      ⟨by simp only [mem_append, not_or]; exact hsecond, hnodup⟩)
  · intro id hid
    simp only [openSeq, length_append, length_singleton]
    simp only [openSeqs, openSeq, map_cons, filterMap_cons, Frame.pending?,
      mem_append, mem_cons] at hid
    rcases hid with (rfl | hid) | rfl | hid
    · omega
    · have := h.bounded id (mem_append_left _ hid)
      omega
    · omega
    · have := h.bounded id (mem_append_right _ hid)
      omega
  · intro id hid
    simp only [openSeq, filterMap_cons, Frame.pending?, mem_cons] at hid
    rcases hid with rfl | hid
    · exact ⟨type, by simp [openSeq]⟩
    · obtain ⟨found, hfound⟩ := h.pending id hid
      have hlt := h.bounded id (mem_append_right _ hid)
      refine ⟨found, ?_⟩
      simp only [openSeq, append_assoc]
      rw [getElem?_append_left hlt, hfound]

theorem openIf_grows
    (h : Grows { r.openSeq type fun seq => .consequent (seq + 1) with
      seqs := (r.openSeq type fun seq => .consequent (seq + 1)).seqs ++ [⟨type, []⟩] } final) :
    r.Grows final := by
  refine grows_of_append [⟨type, []⟩, ⟨type, []⟩] (by simp [openSeq]) ?_ h
  intro id hid hlt
  simp only [openSeqs, openSeq, map_cons, filterMap_cons, Frame.pending?,
    mem_append, mem_cons] at hid
  rcases hid with (rfl | hid) | rfl | hid
  · exact absurd hlt (Nat.lt_irrefl _)
  · exact mem_append_left _ hid
  · exact absurd hlt (by omega)
  · exact mem_append_right _ hid

section Close

variable {r : Reading} {top : Frame} {outer : List Frame} {construct : Option Instr}

theorem close_eq (r : Reading) (outer : List Frame) (construct : Option Instr) :
    r.close outer construct = match construct, outer with
      | some i, around :: _ => ({ r with frames := outer } : Reading).emit around i
      | _, _ => { r with frames := outer } := by
  cases construct <;> cases outer <;> rfl

theorem close_sound (h : r.Sound) (hframes : r.frames = top :: outer) (construct : Option Instr) :
    (r.close outer construct).Sound := by
  have hinner : ({ r with frames := outer } : Reading).Sound :=
    frames_sound h (by rw [hframes]; exact sublist_cons_self _ _)
  rw [close_eq]
  split
  next => exact emit_sound hinner (by simp) _
  next => exact hinner

theorem close_grows_inner (h : (r.close outer construct).Grows final) :
    ({ r with frames := outer } : Reading).Grows final := by
  rw [close_eq] at h
  split at h
  next => exact emit_grows (by simp) h
  next => exact h

theorem close_grows (hframes : r.frames = top :: outer) (h : (r.close outer construct).Grows final) :
    r.Grows final := by
  refine frames_grows ?_ (close_grows_inner h)
  have hsub : outer.Sublist r.frames := by
    rw [hframes]
    exact sublist_cons_self _ _
  exact fun id hid => ((hsub.map _).append (hsub.filterMap _)).subset hid

end Close

variable {alternative : SeqId} {scope : Scope} {next : Reading} {is : List Wire.Instr}
  {top : Frame} {outer : List Frame}

theorem orElse_sound (h : r.Sound) (hframes : r.frames = top :: outer)
    (hrole : top.role = .consequent alternative) :
    Sound { r with frames := ⟨alternative, .alternative top.seq⟩ :: outer } := by
  have hpending : top.pending? = some alternative := by simp [Frame.pending?, hrole]
  obtain ⟨hnodup, hbounded, hempty⟩ := h
  simp only [openSeqs, hframes, map_cons, filterMap_cons, hpending] at hnodup hbounded hempty
  refine ⟨?_, ?_, ?_⟩
  · simp only [openSeqs, map_cons, filterMap_cons, Frame.pending?, cons_append]
    exact (nodup_middle).mp (nodup_cons.mp hnodup).2
  · intro id hid
    apply hbounded
    simp only [openSeqs, map_cons, filterMap_cons, Frame.pending?, mem_append, mem_cons] at hid ⊢
    tauto
  · intro id hid
    simp only [filterMap_cons, Frame.pending?] at hid
    exact hempty id (mem_cons_of_mem _ hid)

theorem orElse_grows (hframes : r.frames = top :: outer)
    (hrole : top.role = .consequent alternative)
    (h : Grows { r with frames := ⟨alternative, .alternative top.seq⟩ :: outer } final) :
    r.Grows final := by
  have hpending : top.pending? = some alternative := by simp [Frame.pending?, hrole]
  refine frames_grows ?_ h
  intro id hid
  simp only [openSeqs, map_cons, filterMap_cons, Frame.pending?, mem_append, mem_cons] at hid
  simp only [openSeqs, hframes, map_cons, filterMap_cons, hpending, mem_append, mem_cons]
  tauto

/-- After a step the sequences that may grow are different still. -/
theorem Step.sound {i : Wire.Instr} (h : Step scope r top outer i next)
    (hframes : r.frames = top :: outer) (hr : r.Sound) : next.Sound := by
  cases h with
  | plain => exact emit_sound hr (by simp [hframes]) _
  | block => exact openSeq_sound hr _ rfl
  | loop => exact openSeq_sound hr _ rfl
  | ifElse => exact openIf_sound hr _
  | orElse _ hrole => exact orElse_sound hr hframes hrole
  | tryCatch => exact openSeq_sound hr _ rfl
  | handler =>
    have hinner : ({ r with frames := outer } : Reading).Sound :=
      frames_sound hr (by rw [hframes]; exact sublist_cons_self _ _)
    unfold openHandler
    exact openSeq_sound hinner _ rfl
  | delegate => exact close_sound hr hframes _
  | tryTable => exact openSeq_sound hr _ rfl
  | done => exact close_sound hr hframes _

/-- A step changes no sequence that is closed. -/
theorem Step.grows {i : Wire.Instr} (h : Step scope r top outer i next)
    (hframes : r.frames = top :: outer) (hnext : next.Grows final) : r.Grows final := by
  cases h with
  | plain => exact emit_grows (by simp [hframes]) hnext
  | block => exact openSeq_grows rfl hnext
  | loop => exact openSeq_grows rfl hnext
  | ifElse => exact openIf_grows hnext
  | orElse _ hrole => exact orElse_grows hframes hrole hnext
  | tryCatch => exact openSeq_grows rfl hnext
  | handler =>
    have hsub : outer.Sublist r.frames := by
      rw [hframes]
      exact sublist_cons_self _ _
    have hinner : ({ r with frames := outer } : Reading).Grows final := openSeq_grows rfl hnext
    exact frames_grows (fun id hid => ((hsub.map _).append (hsub.filterMap _)).subset hid) hinner
  | delegate => exact close_grows hframes hnext
  | tryTable => exact openSeq_grows rfl hnext
  | done => exact close_grows hframes hnext

theorem run_nil_iff : run scope r [] = .ok final ↔ r.frames = [] ∧ r.seqs = final := by
  obtain ⟨seqs, frames⟩ := r
  cases frames <;> simp [run]

theorem run_cons_iff {i : Wire.Instr} : run scope r (i :: is) = .ok final ↔
    ∃ top outer next, r.frames = top :: outer ∧ Step scope r top outer i next ∧
      run scope next is = .ok final := by
  obtain ⟨seqs, frames⟩ := r
  cases frames with
  | nil => simp [run]
  | cons top outer =>
    simp only [run, bind_eq_ok_iff]
    constructor
    · rintro ⟨next, hstep, hrun⟩
      exact ⟨top, outer, next, rfl, step_of_eq_ok hstep, hrun⟩
    · rintro ⟨_, _, next, hframes, hstep, hrun⟩
      cases hframes
      exact ⟨next, step_eq_ok hstep, hrun⟩

theorem start_sound (type : TypeId) :
    (⟨[⟨.multi type, []⟩], [⟨0, .entry⟩]⟩ : Reading).Sound where
  nodup := nodup_singleton 0
  bounded := by simp [openSeqs, Frame.pending?]
  pending := by simp [Frame.pending?]

theorem run_grows (h : run scope r is = .ok final) : r.Grows final := by
  induction is generalizing r with
  | nil =>
    obtain ⟨-, rfl⟩ := run_nil_iff.mp h
    exact fun id s hs => ⟨s, hs, rfl, fun _ => rfl⟩
  | cons i is ih =>
    obtain ⟨top, outer, next, hframes, hstep, hrun⟩ := run_cons_iff.mp h
    exact hstep.grows hframes (ih hrun)

end Reading

theorem Body.seqsOfCode_eq_ok_iff {scope : Scope} {type : TypeId} {code : Bytes}
    {seqs : List Seq} : Body.seqsOfCode scope type code = .ok seqs ↔
      ∃ is, Wire.decodeInstrs code = .ok is ∧
        Reading.run scope ⟨[⟨.multi type, []⟩], [⟨0, .entry⟩]⟩ is = .ok seqs := by
  unfold Body.seqsOfCode
  cases Wire.decodeInstrs code with
  | error fault => simp
  | ok is => simp

end HostCatch
