import HostCatch.Proofs.Program.Lowering
import Mathlib.Data.List.Perm.Subperm

namespace HostCatch

open List

namespace Emitting

open Emit

variable {w : Emitting}

/-- What was read of a construct before the sequence of an open frame began. -/
inductive Opens (w : Emitting) (κ : FuncId → FuncId) (labels : List SeqId) :
    Frame → List Wire.Instr → Prop
  | sole {seq construct ops} : construct.redirect κ = construct →
      (∀ inner, w.CodeOf (seq :: labels) seq inner →
        w.Written labels construct (ops ++ inner ++ [close])) →
      Opens w κ labels ⟨seq, .sole construct⟩ ops
  | consequent {seq alternative t} : w.Typed seq t →
      Opens w κ labels ⟨seq, .consequent alternative⟩ [⟨0x04, .block t⟩]
  | alternative {seq consequent t first} : w.Typed consequent t →
      w.CodeOf (consequent :: labels) consequent first →
      Opens w κ labels ⟨seq, .alternative consequent⟩
        (⟨0x04, .block t⟩ :: first ++ [⟨0x05, .none⟩])
  | tried {seq t} : w.Typed seq t → Opens w κ labels ⟨seq, .tried⟩ [⟨0x06, .block t⟩]
  | handler {seq tried before tag t inner handled op} : w.Typed tried t →
      w.CodeOf (tried :: labels) tried inner →
      List.Forall₂ (w.Handled labels) before handled → w.Opening tag op →
      Opens w κ labels ⟨seq, .handler tried (before ++ [⟨tag, seq⟩])⟩
        (⟨0x06, .block t⟩ :: inner ++ handled.flatten ++ [op])

/-- What was read is what the open frames will be written as, as far as they have come. -/
inductive Progress (w : Emitting) (κ : FuncId → FuncId) (seqs : List Seq) :
    List Frame → List Wire.Instr → Prop
  | entry {s pre} : seqs[0]? = some s → w.Writes [0] (s.instrs.map (Instr.redirect κ)) pre →
      Progress w κ seqs [⟨0, .entry⟩] pre
  | nested {f : Frame} {outer done ops s pre} : Progress w κ seqs outer done →
      w.Opens κ (outer.map Frame.seq) f ops → seqs[f.seq]? = some s →
      w.Writes (f.seq :: outer.map Frame.seq) (s.instrs.map (Instr.redirect κ)) pre →
      Progress w κ seqs (f :: outer) (done ++ ops ++ pre)

variable {κ : FuncId → FuncId} {seqs : List Seq} {frames : List Frame} {part : List Wire.Instr}
  {done : List Wire.Instr} {r : Reading} {outer : List Frame}

theorem Progress.of_eq {done' : List Wire.Instr} (h : w.Progress κ seqs frames done)
    (heq : done = done') : w.Progress κ seqs frames done' :=
  heq ▸ h

theorem Progress.congr {seqs' : List Seq} (h : w.Progress κ seqs frames done)
    (hsame : ∀ f ∈ frames, seqs'[f.seq]? = seqs[f.seq]?) : w.Progress κ seqs' frames done := by
  induction h with
  | entry hs hpre =>
    have hkept : seqs'[0]? = seqs[0]? := hsame ⟨0, .entry⟩ (by simp)
    exact .entry (hkept.trans hs) hpre
  | @nested f _ _ _ _ _ _ hopens hs hpre ih =>
    exact .nested (ih fun f hf => hsame f (by simp [hf])) hopens ((hsame f (by simp)).trans hs) hpre

theorem Progress.emit {top : Frame} (h : w.Progress κ r.seqs (top :: outer) done)
    (hfresh : top.seq ∉ outer.map Frame.seq) {j : Instr}
    (hpart : w.Written (top.seq :: outer.map Frame.seq) (j.redirect κ) part) :
    w.Progress κ (r.emit top j).seqs (top :: outer) (done ++ part) := by
  cases h with
  | entry hs hpre =>
    refine .entry (by rw [Reading.emit_seqs, hs]; rfl) ?_
    simpa using hpre.append hpart.writes
  | nested houter hopens hs hpre =>
    have hkept : ∀ f ∈ outer, (r.emit top j).seqs[f.seq]? = r.seqs[f.seq]? := by
      intro f hf
      have hne : top.seq ≠ f.seq := fun heq => hfresh (heq ▸ mem_map.mpr ⟨f, hf, rfl⟩)
      simp [Reading.emit_seqs, hne]
    rw [append_assoc]
    refine .nested (houter.congr hkept) hopens (by rw [Reading.emit_seqs, hs]; rfl) ?_
    simpa using hpre.append hpart.writes

theorem Progress.openSeq {ops : List Wire.Instr} (type : BlockType) (role : SeqId → Role)
    (hr : r.Sound) (h : w.Progress κ r.seqs r.frames done)
    (hopens : w.Opens κ (r.frames.map Frame.seq) ⟨r.seqs.length, role r.seqs.length⟩ ops) :
    w.Progress κ (r.openSeq type role).seqs (r.openSeq type role).frames (done ++ ops) := by
  have hkept : ∀ f ∈ r.frames, (r.openSeq type role).seqs[f.seq]? = r.seqs[f.seq]? := by
    intro f hf
    exact getElem?_append_left (hr.seq_lt hf)
  have hnew : (r.openSeq type role).seqs[r.seqs.length]? = some ⟨type, []⟩ := by
    simp [Reading.openSeq]
  exact (Progress.nested (h.congr hkept) hopens hnew (Writes.nil _)).of_eq (append_nil _)

theorem Progress.emitConstruct {top : Frame} (hr : r.Sound) (hframes : r.frames = top :: outer)
    (h : w.Progress κ r.seqs outer done) {j : Instr}
    (hpart : w.Written (outer.map Frame.seq) (j.redirect κ) part) :
    w.Progress κ (r.close outer (some j)).seqs outer (done ++ part) := by
  cases outer with
  | nil => cases h
  | cons around rest =>
    have hinner : ({ r with frames := around :: rest } : Reading).Sound :=
      Reading.frames_sound hr (by rw [hframes]; exact sublist_cons_self _ _)
    have hfresh : around.seq ∉ rest.map Frame.seq :=
      (nodup_cons.mp (nodup_append.mp hinner.nodup).1).1
    exact Progress.emit (r := { r with frames := around :: rest }) h hfresh hpart

theorem written_plain {labels : List SeqId} {i : Instr} {x : Wire.Instr}
    (h : w.plain labels i = .ok x) : w.Written labels i [x] := by
  intro bound _
  cases i with
  | block | loop | ifElse | tryCatch | tryTable => cases h
  | _ => exact (Gives.lift h).bind_pure

end Emitting

namespace Reading

variable {r next : Reading} {top : Frame} {outer : List Frame} {scope : Scope} {i : Wire.Instr}

theorem openSeq_new (r : Reading) (type : BlockType) (role : SeqId → Role) :
    (r.openSeq type role).seqs[r.seqs.length]? = some ⟨type, []⟩ := by
  simp [openSeq]

theorem Sound.labels_le (h : r.Sound) : (r.frames.map Frame.seq).length ≤ r.seqs.length := by
  have hsub : r.frames.map Frame.seq ⊆ List.range r.seqs.length := fun id hid =>
    mem_range.mpr (h.bounded id (mem_append_left _ hid))
  simpa using (subperm_of_subset (nodup_append.mp h.nodup).1 hsub).length_le

theorem Grows.length_le {final : List Seq} (h : r.Grows final) : r.seqs.length ≤ final.length := by
  by_contra hlt
  obtain ⟨t, ht, -⟩ := h final.length r.seqs[final.length] (by simp)
  simp at ht

theorem Sound.closed (h : r.Sound) (hframes : r.frames = top :: outer) :
    top.seq ∉ ({ r with frames := outer } : Reading).openSeqs := by
  have hnodup := h.nodup
  simp only [openSeqs, hframes, map_cons, cons_append, nodup_cons, mem_append, not_or] at hnodup
  intro hid
  rcases mem_append.mp hid with hid | hid
  · exact hnodup.1.1 hid
  · refine hnodup.1.2 ?_
    simp only [filterMap_cons]
    split
    · exact hid
    · exact mem_cons_of_mem _ hid

theorem Sound.pending_closed (h : r.Sound) (hframes : r.frames = top :: outer) {id : SeqId}
    (hid : id ∈ top.pending?) : id ∉ openSeqs { r with frames := outer } := by
  have hpending : top.pending? = some id := hid
  have hnodup := h.nodup
  simp only [openSeqs, hframes, map_cons, filterMap_cons, hpending, cons_append,
    nodup_cons, nodup_middle] at hnodup
  exact hnodup.2.1

theorem close_frames (r : Reading) (outer : List Frame) (construct : Option Instr) :
    (r.close outer construct).frames = outer := by
  rw [close_eq]
  split <;> rfl

theorem Step.consequent (h : Step scope r top outer i next) (hop : i.op = 0x05) :
    ∃ alternative, top.role = .consequent alternative := by
  cases h with
  | orElse _ hrole => exact ⟨_, hrole⟩
  | plain h =>
    cases h with
    | raw h =>
      obtain ⟨op, imm⟩ := i
      obtain rfl : op = 0x05 := hop
      exact absurd (.orElse imm) h
    | _ => cases hop
  | handler h => cases h <;> cases hop
  | _ => cases hop

theorem Step.closed (h : Step scope r top outer i next) (hop : i.op = 0x0B) :
    next = r.close outer top.construct? := by
  cases h with
  | done => rfl
  | plain h =>
    cases h with
    | raw h =>
      obtain ⟨op, imm⟩ := i
      obtain rfl : op = 0x0B := hop
      exact absurd (.done imm) h
    | _ => cases hop
  | handler h => cases h <;> cases hop
  | _ => cases hop

/-- An alternative holds nothing only just behind its `else`. -/
theorem Step.orElse_of_empty {f : Frame} {rest : List Frame} (h : Step scope r top outer i next)
    (hframes : r.frames = top :: outer) (hentry : top.role = .entry → outer = [])
    (hf : next.frames = f :: rest) {id : SeqId} (hrole : f.role = .alternative id) {s : Seq}
    (hs : next.seqs[f.seq]? = some s) (hempty : s.instrs = []) : i.op = 0x05 := by
  have hemit : ∀ (r : Reading) j, (r.emit f j).seqs[f.seq]? ≠ some s := by
    intro r j hs
    simp only [emit_seqs, ↓reduceIte, Option.map_eq_some_iff] at hs
    obtain ⟨_, -, rfl⟩ := hs
    simp at hempty
  have hclose : ∀ j, (r.close outer (some j)).frames = f :: rest →
      (r.close outer (some j)).seqs[f.seq]? ≠ some s := by
    intro j hf
    rw [close_frames] at hf
    subst hf
    exact hemit r j
  cases h with
  | orElse => rfl
  | plain =>
    obtain ⟨rfl, -⟩ := List.cons.inj (hframes.symm.trans hf)
    exact absurd hs (hemit _ _)
  | delegate => exact absurd hs (hclose _ hf)
  | done =>
    cases hconstruct : top.construct? with
    | some j =>
      rw [hconstruct] at hf hs
      exact absurd hs (hclose _ hf)
    | none =>
      have hnone : top.role = .entry := by
        unfold Frame.construct? at hconstruct
        split at hconstruct <;> first | assumption | cases hconstruct
      rw [close_frames, hentry hnone] at hf
      cases hf
  | handler | block | loop | ifElse | tryCatch | tryTable =>
    obtain ⟨rfl, -⟩ := List.cons.inj hf
    cases hrole

theorem Sound.orElse_closed (h : r.Sound) (hframes : r.frames = top :: outer) {alternative : SeqId}
    (hrole : top.role = .consequent alternative) :
    top.seq ∉ openSeqs { r with frames := ⟨alternative, .alternative top.seq⟩ :: outer } := by
  have hpending : top.pending? = some alternative := by simp [Frame.pending?, hrole]
  have hnodup := h.nodup
  simp only [openSeqs, hframes, map_cons, filterMap_cons, hpending, cons_append,
    nodup_cons, mem_append, mem_cons, not_or] at hnodup
  simp only [openSeqs, map_cons, filterMap_cons, Frame.pending?, cons_append,
    mem_append, mem_cons, not_or]
  exact ⟨hnodup.1.2.1, hnodup.1.1, hnodup.1.2.2⟩

end Reading

namespace Emitting

open Emit

variable {w : Emitting} {scope : Scope} {κ : FuncId → FuncId} {ρ : Renumbering}
variable {final : List Seq} {r next : Reading} {top : Frame} {outer : List Frame}
  {labels : List SeqId} {ops : List Wire.Instr} {frames : List Frame}

theorem typed_of_grows (hbody : w.body.seqs = final.map (Seq.redirect κ)) (h : r.Grows final)
    {id : SeqId} {s : Seq} {t : Int32} (hs : r.seqs[id]? = some s)
    (htype : scope.blockType t = .ok s.type) : w.Typed id (Wire.shortType t) := by
  obtain ⟨u, hu, hsame, -⟩ := h id s hs
  refine ⟨u.redirect κ, by simp [hbody, hu], fun extra => ?_⟩
  rw [← hsame] at htype
  exact blockType_run htype extra

theorem seq_of_grows (hbody : w.body.seqs = final.map (Seq.redirect κ)) (h : r.Grows final)
    {id : SeqId} {s : Seq} (hs : r.seqs[id]? = some s) (hclosed : id ∉ r.openSeqs) :
    w.body.seqs[id]? = some (s.redirect κ) := by
  obtain ⟨t, ht, -, hsame⟩ := h id s hs
  obtain rfl := hsame hclosed
  simp [hbody, ht]

theorem Opens.construct {f : Frame} (h : w.Opens κ labels f ops) : ∃ j, f.construct? = some j := by
  cases h <;> exact ⟨_, rfl⟩

/-- What is read of a construct at its `end` is what the construct is written as. -/
theorem Opens.written {f : Frame} {inner : List Wire.Instr} {j : Instr} (h : w.Opens κ labels f ops)
    (hj : f.construct? = some j) (hinner : w.CodeOf (f.seq :: labels) f.seq inner)
    (hpending : ∀ id ∈ f.pending?, ∃ s, w.body.seqs[id]? = some s ∧ s.instrs = [])
    (hfilled : ∀ id, f.role = .alternative id → ∃ s, w.body.seqs[f.seq]? = some s ∧ s.instrs ≠ []) :
    w.Written labels (j.redirect κ) (ops ++ inner ++ [close]) := by
  cases h with
  | sole hsame hwritten =>
    cases hj
    rw [hsame]
    exact hwritten inner hinner
  | consequent ht =>
    cases hj
    obtain ⟨s, hs, hempty⟩ := hpending _ rfl
    exact written_if ht hinner hs hempty
  | alternative ht hfirst =>
    cases hj
    obtain ⟨s, hs, hne⟩ := hfilled _ rfl
    simpa [Instr.redirect] using written_ifElse ht hfirst hs hne hinner
  | tried ht =>
    cases hj
    have hall : w.Written labels (.tryCatch _ [] none) _ := written_tryCatch ht hinner .nil
    simpa [Instr.redirect] using hall
  | handler ht htried hbefore hop =>
    cases hj
    have hlast : w.Handled labels ⟨_, _⟩ _ := ⟨_, _, hop, hinner, rfl⟩
    have hall : w.Written labels (.tryCatch _ _ none) _ :=
      written_tryCatch ht htried (rel_append hbefore (.cons hlast .nil))
    simpa [Instr.redirect] using hall

theorem clause_follows (hw : w.Follows scope κ ρ) (hnodup : (frames.map Frame.seq).Nodup)
    {c : Wire.CatchClause} {clause : Clause} (h : scope.clause frames c = .ok clause) :
    w.clause (frames.map Frame.seq) clause = .ok (c.renumber ρ) := by
  obtain ⟨target, htarget, h⟩ := of_bind h
  have hdepth := w.depth_label hnodup htarget
  dsimp only at h
  split at h
  next hkind =>
    obtain ⟨id, hid, h⟩ := of_bind h
    cases h
    simp [Emitting.clause, hdepth, hkind, hw.tag _ _ hid, Wire.CatchClause.renumber]
  next hkind =>
    cases h
    simp [Emitting.clause, hdepth, hkind, Wire.CatchClause.renumber]

theorem catches_follow (hw : w.Follows scope κ ρ) (hnodup : (frames.map Frame.seq).Nodup)
    {catches : List Wire.CatchClause} {clauses : List Clause}
    (h : catches.mapM (scope.clause frames) = .ok clauses) :
    w.catches (frames.map Frame.seq) clauses = .ok (catches.map (·.renumber ρ)) := by
  refine mapM_eq_ok_iff.mpr ?_
  rw [forall₂_map_right_iff]
  exact ((mapM_eq_ok_iff.mp h).imp fun _ _ h => clause_follows hw hnodup h).flip

section Step

variable (hw : w.Follows scope κ ρ) (hbody : w.body.seqs = final.map (Seq.redirect κ))
variable {done : List Wire.Instr} {i : Wire.Instr} (hr : r.Sound)
variable (hframes : r.frames = top :: outer)

include hbody hr hframes

theorem codeOf_top {s : Seq} {pre : List Wire.Instr} (hgrows : r.Grows final)
    (hnext : next.Grows final) (hsame : next.seqs = r.seqs) (hclosed : top.seq ∉ next.openSeqs)
    (hs : r.seqs[top.seq]? = some s)
    (hpre : w.Writes (top.seq :: outer.map Frame.seq) (s.instrs.map (Instr.redirect κ)) pre) :
    w.CodeOf (top.seq :: outer.map Frame.seq) top.seq pre := by
  have hlabels := hr.labels_le.trans hgrows.length_le
  rw [hframes] at hlabels
  refine Writes.codeOf (seq_of_grows hbody hnext (hsame ▸ hs) hclosed) ?_ hpre
  simpa [hbody] using hlabels

theorem Progress.orElse {alternative : SeqId} (hrole : top.role = .consequent alternative)
    (hnext : Reading.Grows { r with frames := ⟨alternative, .alternative top.seq⟩ :: outer } final)
    (h : w.Progress κ r.seqs (top :: outer) done) :
    w.Progress κ r.seqs (⟨alternative, .alternative top.seq⟩ :: outer)
      (done ++ [⟨0x05, .none⟩]) := by
  have hgrows := Reading.orElse_grows hframes hrole hnext
  have hpending : top.pending? = some alternative := by simp [Frame.pending?, hrole]
  obtain ⟨type, hempty⟩ := hr.pending alternative (by simp [hframes, hpending])
  cases h with
  | entry => cases hrole
  | @nested _ _ before ops s pre houter hopens hs hpre =>
    have hclosed := hr.orElse_closed hframes hrole
    have hfirst := codeOf_top hbody hr hframes hgrows hnext rfl hclosed hs hpre
    obtain ⟨seq, role⟩ := top
    obtain rfl : role = _ := hrole
    cases hopens with
    | consequent ht =>
      exact (Progress.nested houter (.alternative ht hfirst) hempty (Writes.nil _)).of_eq (by simp)

theorem Progress.openHandler {tried : SeqId} {before : List Handler} {tag : Option TagId}
    {op : Wire.Instr} (hgrows : r.Grows final) (hhandles : top.Handles tried before)
    (hop : w.Opening tag op)
    (hnext : (r.openHandler outer tried before tag).Grows final)
    (h : w.Progress κ r.seqs (top :: outer) done) :
    w.Progress κ (r.openHandler outer tried before tag).seqs
      (r.openHandler outer tried before tag).frames (done ++ [op]) := by
  have hsound : ({ r with frames := outer } : Reading).Sound :=
    Reading.frames_sound hr (by rw [hframes]; exact sublist_cons_self _ _)
  have hinner : ({ r with frames := outer } : Reading).Grows final := Reading.openSeq_grows rfl hnext
  obtain ⟨seq, role⟩ := top
  cases h with
  | entry =>
    cases hhandles with
    | tried hrole => cases hrole
    | handler hrole => cases hrole
  | @nested _ _ earlier ops s pre houter hopens hs hpre =>
    have hcode := codeOf_top hbody hr hframes hgrows hinner rfl (hr.closed hframes) hs hpre
    cases hhandles with
    | tried hrole =>
      obtain rfl : role = _ := hrole
      cases hopens with
      | tried ht =>
        have hall := Progress.openSeq (r.triedType seq) (fun new => .handler seq [⟨tag, new⟩])
          hsound houter (.handler ht hcode .nil hop)
        exact hall.of_eq (by simp)
    | handler hrole =>
      obtain rfl : role = _ := hrole
      cases hopens with
      | handler ht htried hbefore hfirst =>
        have hlast : w.Handled (outer.map Frame.seq) ⟨_, seq⟩ _ := ⟨_, _, hfirst, hcode, rfl⟩
        have hboth := rel_append hbefore (.cons hlast .nil)
        have hall := Progress.openSeq (r.triedType tried)
          (fun new => .handler tried (_ ++ [⟨tag, new⟩])) hsound houter
          (.handler ht htried hboth hop)
        exact hall.of_eq (by simp)

theorem Progress.delegate {depth : UInt32} (hrole : top.role = .tried)
    (hnext : (r.close outer (some (.tryCatch top.seq [] (some depth)))).Grows final)
    (h : w.Progress κ r.seqs (top :: outer) done) :
    w.Progress κ (r.close outer (some (.tryCatch top.seq [] (some depth)))).seqs outer
      (done ++ [⟨0x18, .branch depth⟩]) := by
  have hgrows := Reading.close_grows hframes hnext
  have hinner := Reading.close_grows_inner hnext
  obtain ⟨seq, role⟩ := top
  obtain rfl : role = _ := hrole
  cases h with
  | nested houter hopens hs hpre =>
    have hcode := codeOf_top hbody hr hframes hgrows hinner rfl (hr.closed hframes) hs hpre
    cases hopens with
    | tried ht =>
      have hwritten : w.Written (outer.map Frame.seq)
          (Instr.redirect κ (.tryCatch seq [] (some depth))) _ := written_tryCatch ht hcode .nil
      exact (Progress.emitConstruct hr hframes houter hwritten).of_eq (by simp)

theorem Progress.closing (hnext : (r.close outer top.construct?).Grows final)
    (h : w.Progress κ r.seqs (top :: outer) done) (hentry : top.role ≠ .entry)
    (hfilled : ∀ id, top.role = .alternative id → ∀ s, r.seqs[top.seq]? = some s → s.instrs ≠ []) :
    w.Progress κ (r.close outer top.construct?).seqs outer (done ++ [close]) := by
  have hgrows := Reading.close_grows hframes hnext
  have hinner := Reading.close_grows_inner hnext
  have hclosed := hr.closed hframes
  cases h with
  | entry => exact absurd rfl hentry
  | @nested _ _ earlier ops s pre houter hopens hs hpre =>
    have hcode := codeOf_top hbody hr hframes hgrows hinner rfl hclosed hs hpre
    obtain ⟨j, hj⟩ := hopens.construct
    rw [hj]
    have hwritten := hopens.written hj hcode ?_ ?_
    · exact (Progress.emitConstruct hr hframes houter hwritten).of_eq (by simp)
    · intro id hid
      obtain ⟨type, hempty⟩ := hr.pending id (by simp [hframes, Option.mem_def.mp hid])
      exact ⟨_, seq_of_grows hbody hinner hempty (hr.pending_closed hframes hid), rfl⟩
    · intro id hrole
      refine ⟨_, seq_of_grows hbody hinner hs hclosed, ?_⟩
      simpa [Seq.redirect] using hfilled id hrole s hs

include hw in
/-- One more instruction is read inside the frame `top`, and what was read stays what the open
frames will be written as. -/
theorem Progress.step (hnext : next.Grows final) (h : w.Progress κ r.seqs (top :: outer) done)
    (hentry : i.op = 0x0B → top.role ≠ .entry)
    (hfilled : i.op = 0x0B → ∀ id, top.role = .alternative id →
      ∀ s, r.seqs[top.seq]? = some s → s.instrs ≠ [])
    (hstep : Reading.Step scope r top outer i next) :
    w.Progress κ next.seqs next.frames (done ++ [i.renumber ρ]) := by
  have hnodup : (r.frames.map Frame.seq).Nodup := (nodup_append.mp hr.nodup).1
  have hgrows := hstep.grows hframes hnext
  have hopen := hframes ▸ h
  cases hstep with
  | plain hplain =>
    have hwritten := written_plain (plain_follows hw hnodup hplain)
    rw [hframes] at hwritten hnodup
    have hall := h.emit (nodup_cons.mp hnodup).1 hwritten
    rwa [← hframes] at hall
  | block htype =>
    have ht := typed_of_grows hbody hnext (Reading.openSeq_new r _ _) htype
    exact hopen.openSeq _ _ hr (.sole rfl fun inner hinner => written_block ht hinner)
  | loop htype =>
    have ht := typed_of_grows hbody hnext (Reading.openSeq_new r _ _) htype
    exact hopen.openSeq _ _ hr (.sole rfl fun inner hinner => written_loop ht hinner)
  | @ifElse t type htype =>
    have hnew : (r.seqs ++ [⟨type, []⟩] ++ [⟨type, []⟩])[r.seqs.length]? = some (⟨type, []⟩ : Seq) := by
      simp
    have ht := typed_of_grows hbody hnext hnew htype
    refine (hopen.openSeq type (fun seq => .consequent (seq + 1)) hr (.consequent ht)).congr ?_
    intro f hf
    refine getElem?_append_left ?_
    rcases mem_cons.mp hf with rfl | hf
    · simp [Reading.openSeq]
    · exact (hr.seq_lt hf).trans (by simp [Reading.openSeq])
  | orElse imm hrole => exact h.orElse hbody hr hframes hrole hnext
  | tryCatch htype =>
    have ht := typed_of_grows hbody hnext (Reading.openSeq_new r _ _) htype
    exact hopen.openSeq _ _ hr (.tried ht)
  | @handler _ tag _ _ hcatches hhandles =>
    have hop : w.Opening tag (i.renumber ρ) := by
      cases hcatches with
      | tag hid => exact .tag (hw.tag _ _ hid)
      | all => exact .all
    exact h.openHandler hbody hr hframes hgrows hhandles hop hnext
  | delegate hrole =>
    rw [Reading.close_frames]
    exact h.delegate hbody hr hframes hrole hnext
  | tryTable htype hclauses =>
    have ht := typed_of_grows hbody hnext (Reading.openSeq_new r _ _) htype
    have hcatches := catches_follow hw hnodup hclauses
    exact hopen.openSeq _ _ hr (.sole rfl fun inner hinner => written_tryTable ht hcatches hinner)
  | done imm =>
    rw [Reading.close_frames]
    exact h.closing hbody hr hframes hnext (hentry rfl) (hfilled rfl)

omit hbody hr hframes in
theorem Progress.entry_alone (hrole : top.role = .entry)
    (h : w.Progress κ r.seqs (top :: outer) done) : outer = [] := by
  cases h with
  | entry => rfl
  | nested _ hopens =>
    obtain ⟨j, hj⟩ := hopens.construct
    simp [Frame.construct?, hrole] at hj

theorem Progress.finish (hrole : top.role = .entry)
    (hnext : (r.close outer top.construct?).Grows final)
    (h : w.Progress κ r.seqs (top :: outer) done) : w.CodeOf [0] 0 done := by
  have hinner := Reading.close_grows_inner hnext
  have hclosed := hr.closed hframes
  have hlabels := hr.labels_le.trans (Reading.close_grows hframes hnext).length_le
  obtain rfl := h.entry_alone hrole
  cases h with
  | entry hs hpre =>
    refine Writes.codeOf (seq_of_grows hbody hinner hs hclosed) ?_ hpre
    simpa [hframes, hbody] using hlabels
  | nested houter => cases houter

include hw in
/-- One step: what was read so far is what will be written, or all is read. -/
theorem Progress.step_or_finish (hnext : next.Grows final)
    (h : w.Progress κ r.seqs (top :: outer) done)
    (hfilled : i.op = 0x0B → ∀ id, top.role = .alternative id →
      ∀ s, r.seqs[top.seq]? = some s → s.instrs ≠ [])
    (hstep : Reading.Step scope r top outer i next) :
    w.Progress κ next.seqs next.frames (done ++ [i.renumber ρ]) ∨
      next.frames = [] ∧ i.renumber ρ = close ∧ w.CodeOf [0] 0 done := by
  by_cases hlast : i.op = 0x0B ∧ top.role = .entry
  · obtain ⟨hop, hrole⟩ := hlast
    obtain rfl := hstep.closed hop
    have hclose : i.renumber ρ = close := by
      obtain ⟨op, imm⟩ := i
      obtain rfl : op = 0x0B := hop
      rfl
    refine .inr ⟨?_, hclose, h.finish hbody hr hframes hrole hnext⟩
    rw [Reading.close_frames, h.entry_alone hrole]
  · exact .inl (h.step hw hbody hr hframes hnext (fun hop hrole => hlast ⟨hop, hrole⟩) hfilled hstep)

omit hr hframes

include hw in
/-- The code that was read is what the body is written as, but for alternatives that hold nothing. -/
theorem Progress.run {is : List Wire.Instr} (hr : r.Sound)
    (h : w.Progress κ r.seqs r.frames done) (hrun : Reading.run scope r is = .ok final)
    (hfilled : ∀ i ∈ is.head?, i.op = 0x0B → ∀ top ∈ r.frames.head?, ∀ id,
      top.role = .alternative id → ∀ s, r.seqs[top.seq]? = some s → s.instrs ≠ []) :
    ∃ ws, done ++ (Wire.dropEmptyElse is).map (·.renumber ρ) = ws ++ [close] ∧
      w.CodeOf [0] 0 ws := by
  fun_induction Wire.dropEmptyElse is generalizing r done with
  | case1 i j rest hdrop ih =>
    refine ih hr h (Reading.run_emptyElse hdrop.1 hdrop.2 hrun) ?_
    obtain ⟨top, outer, next, hframes, hstep, -⟩ := Reading.run_cons_iff.mp hrun
    obtain ⟨alternative, hrole⟩ := hstep.consequent hdrop.1
    intro _ _ _ f hf id hid
    rw [hframes] at hf
    cases hf
    cases hrole.symm.trans hid
  | case2 i j rest hkeep ih =>
    obtain ⟨top, outer, next, hframes, hstep, hrest⟩ := Reading.run_cons_iff.mp hrun
    have hopen := hframes ▸ h
    have hfilled' := fun hop => hfilled i rfl hop top (by rw [hframes]; rfl)
    rcases hopen.step_or_finish hw hbody hr hframes (Reading.run_grows hrest) hfilled' hstep with
      hnext | ⟨hdone, -⟩
    · refine (ih (hstep.sound hframes hr) hnext hrest ?_).imp fun ws hws => ?_
      · -- an alternative holds nothing here only if `i` was its `else`
        intro k hk hop f hf id hrole s hs hempty
        cases hk
        obtain ⟨around, hf⟩ := head?_eq_some_iff.mp hf
        exact hkeep ⟨hstep.orElse_of_empty hframes (hopen.entry_alone ·) hf hrole hs hempty, hop⟩
      · exact ⟨by rw [← hws.1]; simp, hws.2⟩
    · obtain ⟨_, _, _, hframes', -⟩ := Reading.run_cons_iff.mp hrest
      cases hdone.symm.trans hframes'
  | case3 is hshort =>
    cases is with
    | nil =>
      rw [(Reading.run_nil_iff.mp hrun).1] at h
      cases h
    | cons i rest =>
      obtain ⟨top, outer, next, hframes, hstep, hrest⟩ := Reading.run_cons_iff.mp hrun
      cases rest with
      | cons j rest => exact absurd rfl (hshort i j rest)
      | nil =>
        have hopen := hframes ▸ h
        have hfilled' := fun hop => hfilled i rfl hop top (by rw [hframes]; rfl)
        rcases hopen.step_or_finish hw hbody hr hframes (Reading.run_grows hrest) hfilled' hstep with
          hnext | ⟨-, hclose, hcode⟩
        · rw [(Reading.run_nil_iff.mp hrest).1] at hnext
          cases hnext
        · exact ⟨done, by simp [hclose], hcode⟩

end Step

end Emitting

end HostCatch
