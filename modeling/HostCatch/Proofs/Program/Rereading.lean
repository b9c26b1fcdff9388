import HostCatch.Proofs.Program.Lowering

namespace HostCatch

open List

def Clause.retag (τ : TagId → TagId) (c : Clause) : Clause :=
  if Wire.CatchClause.takesTag c.kind then { c with tag := τ c.tag } else c

def Handler.retag (τ : TagId → TagId) (h : Handler) : Handler :=
  { h with tag := h.tag.map τ }

/-- Other tags in place of those that an instruction names. -/
def Instr.retag (τ : TagId → TagId) : Instr → Instr
  | .throw tag => .throw (τ tag)
  | .tryCatch seq handlers delegate => .tryCatch seq (handlers.map (·.retag τ)) delegate
  | .tryTable seq clauses => .tryTable seq (clauses.map (·.retag τ))
  | i => i

/-- Other functions called and other tags named. -/
def Instr.relink (κ : FuncId → FuncId) (τ : TagId → TagId) (i : Instr) : Instr :=
  (i.redirect κ).retag τ

def Seq.relink (κ : FuncId → FuncId) (τ : TagId → TagId) (s : Seq) : Seq :=
  { s with instrs := s.instrs.map (Instr.relink κ τ) }

theorem Seq.relink_id : Seq.relink id id = id := by
  have hclause : ∀ c : Clause, c.retag id = c := by
    intro c
    unfold Clause.retag
    split <;> rfl
  have hhandler : ∀ h : Handler, h.retag id = h := by
    intro h
    simp [Handler.retag]
  have hinstr : Instr.relink id id = id := by
    funext i
    cases i <;> simp [Instr.relink, Instr.redirect, Instr.retag, hclause, hhandler]
  funext s
  rw [Seq.relink, hinstr, map_id]
  rfl

def Frame.relink (κ : FuncId → FuncId) (τ : TagId → TagId) (f : Frame) : Frame :=
  { f with role :=
      match f.role with
      | .sole construct => .sole (construct.relink κ τ)
      | .handler tried handlers => .handler tried (handlers.map (·.retag τ))
      | role => role }

def Reading.relink (κ : FuncId → FuncId) (τ : TagId → TagId) (r : Reading) : Reading :=
  ⟨r.seqs.map (Seq.relink κ τ), r.frames.map (Frame.relink κ τ)⟩

namespace Scope

/-- The numbers that code refers to can be read in another scope, where all but variables may have
new ones. -/
structure Maps (scope scope' : Scope) (κ : FuncId → FuncId) (τ : TagId → TagId) (ρ : Renumbering) :
    Prop where
  types : scope.types ≤ scope'.types
  call : ∀ n id, scope.funcRef n = .ok id → scope'.funcRef (ρ.call n) = .ok (κ id)
  func : ∀ n id, scope.funcRef n = .ok id → scope'.funcRef (ρ.func n) = .ok id
  tag : ∀ n id, scope.tagRef n = .ok id → scope'.tagRef (ρ.tag n) = .ok (τ id)
  table : ∀ n id, scope.tableRef n = .ok id → scope'.tableRef (ρ.table n) = .ok id
  var : ∀ n var, scope.localRef n = .ok var → scope'.localRef n = .ok var

theorem check_of_lt {scope : Scope} {what : String} {index bound : Nat} (h : index < bound) :
    scope.check what index bound = .ok index := by
  simp [check, h]

end Scope

theorem ValType.ofCode_lt {c : Wire.TypeCode} {v : ValType} (h : ofCode c = .ok v) :
    0x69 ≤ c.toNat ∧ c.toNat < 0x80 := by
  unfold ofCode at h
  split at h
  next hc => subst hc; decide
  split at h
  next hc => subst hc; decide
  split at h
  next hc => subst hc; decide
  split at h
  next hc => subst hc; decide
  split at h
  next hc => subst hc; decide
  split at h
  next hc =>
    have hlow := UInt8.le_iff_toNat_le.mp hc.1
    have hhigh := UInt8.le_iff_toNat_le.mp hc.2
    simp only [UInt8.reduceToNat] at hlow hhigh
    omega
  next => cases h

namespace Scope

variable {scope scope' : Scope} {κ : FuncId → FuncId} {τ : TagId → TagId} {ρ : Renumbering}
  {frames : List Frame}

theorem restate_ok {α : Type} {x : Except Fault α} {a : α} (h : x = .ok a) :
    scope.restate x = .ok a := by
  rw [h]
  rfl

theorem Maps.blockType (h : scope.Maps scope' κ τ ρ) {t : Int32} {type : BlockType}
    (ht : scope.blockType t = .ok type) : scope'.blockType (Wire.shortType t) = .ok type := by
  have hlow := t.le_toInt
  have hhigh := t.toInt_lt
  unfold Scope.blockType at ht
  split at ht
  next hempty =>
    subst hempty
    exact ht
  next hne =>
    split at ht
    next hpos =>
      obtain ⟨id, hid, rfl⟩ := map_eq_ok_iff.mp ht
      obtain ⟨rfl, hlt⟩ := Scope.check_eq_ok hid
      have hpos' : 0 ≤ t.toInt := Int32.le_iff_toInt_le.mp hpos
      have hshort : Wire.shortType t = t :=
        Wire.shortType_of_le (Int32.le_iff_toInt_le.mpr (by simp; omega))
      rw [hshort, Scope.blockType, if_neg hne, if_pos hpos,
        check_of_lt (Nat.lt_of_lt_of_le hlt h.types)]
      rfl
    next hneg =>
      obtain ⟨v, hv, rfl⟩ := map_eq_ok_iff.mp ht
      have hcode := Scope.restate_eq_ok hv
      have hneg : t.toInt < 0 := by
        rw [Int32.le_iff_toInt_le] at hneg
        simpa using hneg
      have hlt : ((t.toInt + 0x80) % 0x100).toNat < 256 := by omega
      have hbound := ValType.ofCode_lt hcode
      rw [UInt8.toNat_ofNat_of_lt' hlt] at hbound
      have hshort := Wire.toInt_shortType_of_neg hneg
      have hne' : Wire.shortType t ≠ -64 := by
        intro heq
        have := congrArg Int32.toInt heq
        simp only [Int32.reduceToInt] at this
        omega
      have hneg' : ¬ 0 ≤ Wire.shortType t := by
        rw [Int32.le_iff_toInt_le, hshort]
        simp only [Int32.reduceToInt]
        omega
      have hback : ((Wire.shortType t).toInt + 0x80) % 0x100 = (t.toInt + 0x80) % 0x100 := by
        rw [hshort]
        omega
      rw [Scope.blockType, if_neg hne', if_neg hneg', hback, restate_ok hcode]
      rfl

theorem label_relink {depth : UInt32} {target : SeqId} (h : scope.label frames depth = .ok target) :
    scope'.label (frames.map (Frame.relink κ τ)) depth = .ok target := by
  unfold label at h ⊢
  split at h
  next f hf =>
    cases h
    simp [hf, Frame.relink]
  next => cases h

theorem labels_relink {depths : List UInt32} {targets : List SeqId}
    (h : depths.mapM (scope.label frames) = .ok targets) :
    depths.mapM (scope'.label (frames.map (Frame.relink κ τ))) = .ok targets :=
  mapM_eq_ok_iff.mpr ((mapM_eq_ok_iff.mp h).imp fun _ _ h => label_relink h)

theorem Maps.clause (h : scope.Maps scope' κ τ ρ) {c : Wire.CatchClause} {clause : Clause}
    (hc : scope.clause frames c = .ok clause) :
    scope'.clause (frames.map (Frame.relink κ τ)) (c.renumber ρ) = .ok (clause.retag τ) := by
  obtain ⟨target, htarget, hc⟩ := of_bind hc
  have hlabel : scope'.label (frames.map (Frame.relink κ τ)) c.label = .ok target :=
    label_relink htarget
  dsimp only at hc
  split at hc
  next hkind =>
    obtain ⟨id, hid, hc⟩ := of_bind hc
    cases hc
    simp [Scope.clause, Wire.CatchClause.renumber, Clause.retag, hkind, hlabel, h.tag _ _ hid]
  next hkind =>
    cases hc
    simp [Scope.clause, Wire.CatchClause.renumber, Clause.retag, hkind, hlabel]

theorem Maps.clauses (h : scope.Maps scope' κ τ ρ) {catches : List Wire.CatchClause}
    {clauses : List Clause} (hc : catches.mapM (scope.clause frames) = .ok clauses) :
    (catches.map (·.renumber ρ)).mapM (scope'.clause (frames.map (Frame.relink κ τ))) =
      .ok (clauses.map (·.retag τ)) := by
  refine mapM_eq_ok_iff.mpr ?_
  rw [forall₂_map_left_iff, forall₂_map_right_iff]
  exact (mapM_eq_ok_iff.mp hc).imp fun _ _ hc => h.clause hc

theorem Maps.callType (h : scope.Maps scope' κ τ ρ) {what : String} {index id : Nat}
    (hid : scope.check what index scope.types = .ok id) :
    scope'.check what index scope'.types = .ok id := by
  obtain ⟨rfl, hlt⟩ := Scope.check_eq_ok hid
  exact check_of_lt (Nat.lt_of_lt_of_le hlt h.types)

/-- A plain instruction with new numbers is read with new links. -/
theorem Maps.plain (h : scope.Maps scope' κ τ ρ) {i : Wire.Instr} {j : Instr}
    (hj : scope.Plain frames i j) :
    scope'.Plain (frames.map (Frame.relink κ τ)) (i.renumber ρ) (j.relink κ τ) := by
  cases hj with
  | br hd => exact .br (label_relink hd)
  | brIf hd => exact .brIf (label_relink hd)
  | brTable hs hd => exact .brTable (labels_relink hs) (label_relink hd)
  | call hf => exact .call (h.call _ _ hf)
  | returnCall hf => exact .returnCall (h.call _ _ hf)
  | callIndirect htype ht => exact .callIndirect (h.callType htype) (h.table _ _ ht)
  | returnCallIndirect htype ht => exact .returnCallIndirect (h.callType htype) (h.table _ _ ht)
  | localGet hv => exact .localGet (h.var _ _ hv)
  | localSet hv => exact .localSet (h.var _ _ hv)
  | localTee hv => exact .localTee (h.var _ _ hv)
  | tableGet ht => exact .tableGet (h.table _ _ ht)
  | tableSet ht => exact .tableSet (h.table _ _ ht)
  | i32 value => exact .i32 value
  | i64 value => exact .i64 value
  | f32 bits => exact .f32 bits
  | f64 bits => exact .f64 bits
  | refNull heap => exact .refNull heap
  | refFunc hf => exact .refFunc (h.func _ _ hf)
  | throw ht => exact .throw (h.tag _ _ ht)
  | ret imm => exact .ret .none
  | unreachable imm => exact .unreachable .none
  | raw hraw =>
    rw [Wire.Instr.renumber_raw ρ hraw]
    exact .raw hraw

end Scope

namespace Reading

variable {scope scope' : Scope} {κ : FuncId → FuncId} {τ : TagId → TagId} {ρ : Renumbering}
  {r : Reading} {is : List Wire.Instr} {final : List Seq}

theorem relink_emit (r : Reading) (f : Frame) (i : Instr) :
    (r.emit f i).relink κ τ = (r.relink κ τ).emit (f.relink κ τ) (i.relink κ τ) := by
  unfold relink emit
  congr 1
  refine ext_getElem? fun k => ?_
  simp only [getElem?_map, getElem?_modify, Frame.relink]
  split <;> cases r.seqs[k]? <;> simp [Seq.relink]

theorem relink_openSeq (r : Reading) (type : BlockType) {role role' : SeqId → Role}
    (hrole : ∀ seq, Frame.relink κ τ ⟨seq, role seq⟩ = ⟨seq, role' seq⟩) :
    (r.openSeq type role).relink κ τ = (r.relink κ τ).openSeq type role' := by
  simp [openSeq, relink, hrole, Seq.relink]

theorem relink_openHandler (r : Reading) (outer : List Frame) (tried : SeqId)
    (before : List Handler) (tag : Option TagId) :
    (r.openHandler outer tried before tag).relink κ τ =
      (r.relink κ τ).openHandler (outer.map (Frame.relink κ τ)) tried (before.map (·.retag τ))
        (tag.map τ) := by
  have htype : (r.relink κ τ).triedType tried = r.triedType tried := by
    unfold triedType relink
    rw [getElem?_map, Option.map_map]
    rfl
  have hrole : ∀ seq, Frame.relink κ τ ⟨seq, .handler tried (before ++ [⟨tag, seq⟩])⟩ =
      ⟨seq, .handler tried (before.map (·.retag τ) ++ [⟨tag.map τ, seq⟩])⟩ := by
    intro seq
    simp [Frame.relink, Handler.retag]
  unfold openHandler
  rw [relink_openSeq _ _ hrole]
  exact congrArg (fun type => openSeq _ type _) htype.symm

theorem relink_close (r : Reading) (outer : List Frame) (construct : Option Instr) :
    (r.close outer construct).relink κ τ =
      (r.relink κ τ).close (outer.map (Frame.relink κ τ)) (construct.map (Instr.relink κ τ)) := by
  cases construct with
  | none => cases outer <;> rfl
  | some i =>
    cases outer with
    | nil => rfl
    | cons around rest => exact relink_emit { r with frames := around :: rest } around i

theorem relink_construct? (f : Frame) :
    (f.relink κ τ).construct? = f.construct?.map (Instr.relink κ τ) := by
  obtain ⟨seq, role⟩ := f
  cases role <;> rfl

/-- So is every step. -/
theorem Step.relink {next : Reading} {top : Frame} {outer : List Frame} {i : Wire.Instr}
    (hscope : scope.Maps scope' κ τ ρ) (h : Step scope r top outer i next) :
    Step scope' (r.relink κ τ) (top.relink κ τ) (outer.map (Frame.relink κ τ)) (i.renumber ρ)
      (next.relink κ τ) := by
  cases h with
  | plain hj =>
    rw [relink_emit]
    exact .plain (hscope.plain hj)
  | block ht =>
    rw [relink_openSeq _ _ fun _ => rfl]
    exact .block (hscope.blockType ht)
  | loop ht =>
    rw [relink_openSeq _ _ fun _ => rfl]
    exact .loop (hscope.blockType ht)
  | @ifElse t type ht =>
    have hnext : Reading.relink κ τ { r.openSeq type fun seq => .consequent (seq + 1) with
          seqs := (r.openSeq type fun seq => .consequent (seq + 1)).seqs ++ [⟨type, []⟩] } =
        { (r.relink κ τ).openSeq type fun seq => .consequent (seq + 1) with
          seqs := ((r.relink κ τ).openSeq type fun seq => .consequent (seq + 1)).seqs ++
            [⟨type, []⟩] } := by
      simp [openSeq, Reading.relink, Seq.relink, Frame.relink]
    rw [hnext]
    exact .ifElse (hscope.blockType ht)
  | orElse imm hrole => exact .orElse .none (by simp [Frame.relink, hrole])
  | tryCatch ht =>
    rw [relink_openSeq _ _ fun _ => rfl]
    exact .tryCatch (hscope.blockType ht)
  | handler hcatches hhandles =>
    rw [relink_openHandler]
    refine .handler ?_ ?_
    · cases hcatches with
      | tag hid => exact .tag (hscope.tag _ _ hid)
      | all => exact .all .none
    · cases hhandles with
      | tried hrole => exact .tried (by simp [Frame.relink, hrole])
      | handler hrole => exact .handler (by simp [Frame.relink, hrole])
  | delegate hrole =>
    rw [relink_close]
    exact .delegate (by simp [Frame.relink, hrole])
  | tryTable ht hclauses =>
    rw [relink_openSeq _ _ fun _ => rfl]
    exact .tryTable (hscope.blockType ht) (hscope.clauses hclauses)
  | done imm =>
    rw [relink_close, ← relink_construct?]
    exact .done .none

/-- Code that can be read can be read in another scope with new numbers, and what is read are the
same sequences with the new links. -/
theorem run_relink (hscope : scope.Maps scope' κ τ ρ) (h : run scope r is = .ok final) :
    run scope' (r.relink κ τ) (is.map (·.renumber ρ)) = .ok (final.map (Seq.relink κ τ)) := by
  induction is generalizing r with
  | nil =>
    obtain ⟨hframes, rfl⟩ := run_nil_iff.mp h
    exact run_nil_iff.mpr ⟨by simp [relink, hframes], rfl⟩
  | cons i is ih =>
    obtain ⟨top, outer, next, hframes, hstep, hrun⟩ := run_cons_iff.mp h
    refine run_cons_iff.mpr ⟨_, _, _, ?_, hstep.relink hscope, ih hrun⟩
    simp [relink, hframes]

theorem run_dropEmptyElse (h : run scope r is = .ok final) :
    run scope r (Wire.dropEmptyElse is) = .ok final := by
  fun_induction Wire.dropEmptyElse is generalizing r with
  | case1 i j rest hdrop ih => exact ih (run_emptyElse hdrop.1 hdrop.2 h)
  | case2 i j rest hkeep ih =>
    obtain ⟨top, outer, next, hframes, hstep, hrun⟩ := run_cons_iff.mp h
    exact run_cons_iff.mpr ⟨top, outer, next, hframes, hstep, ih hrun⟩
  | case3 => exact h

end Reading

end HostCatch
