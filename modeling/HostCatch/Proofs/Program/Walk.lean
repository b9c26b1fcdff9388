import HostCatch.Program.Body
import HostCatch.Proofs.Success

namespace HostCatch

open List

/-- Where a visited instruction stands. -/
def Visit.place (v : Visit) : SeqId × Nat :=
  (v.seq, v.index)

namespace Body

variable {b : Body} {id : SeqId} {bound : Nat} {visits : List Visit}

/-- A sequence is nested, at any depth, in another or is that one itself. -/
inductive ReachesFrom (b : Body) : SeqId → SeqId → Prop
  | refl (seq : SeqId) : ReachesFrom b seq seq
  | step {seq child target : SeqId} {index : Nat} {i : Instr} :
      b.instr? seq index = some i → child ∈ i.children → ReachesFrom b child target →
      ReachesFrom b seq target

/-- A sequence holds code that can be reached from the entry. -/
def Reaches (b : Body) (seq : SeqId) : Prop :=
  b.ReachesFrom b.entry seq

/-- The sequences that the walk enters exist and are entered once each. -/
def IsTree (b : Body) : Prop :=
  ∃ visits, b.walk = .ok visits ∧ (b.entry :: visits.flatMap fun v => v.instr.children).Nodup

theorem instr?_of_seq {s : Seq} (hs : b.seqs[id]? = some s) (index : Nat) :
    b.instr? id index = s.instrs[index]? := by
  simp [instr?, hs]

theorem seq_eq_ok_iff {s : Seq} : b.seq id = .ok s ↔ b.seqs[id]? = some s := by
  unfold seq
  split
  next h => simp [h]
  next h => simp [h]

/-- What a walk meets: each instruction, then what is inside it. -/
theorem walkSeq_succ_eq_ok_iff : b.walkSeq (bound + 1) id = .ok visits ↔
      ∃ s parts, b.seqs[id]? = some s ∧ visits = parts.flatten ∧
        Forall₂ (fun (entry : Instr × Nat) part =>
          ∃ nested, Forall₂ (fun child vs => b.walkSeq bound child = .ok vs)
              entry.1.children nested ∧
            part = ⟨id, entry.2, entry.1⟩ :: nested.flatten) s.instrs.zipIdx parts := by
  rw [walkSeq, bind_eq_ok_iff]
  constructor
  · rintro ⟨s, hs, h⟩
    obtain ⟨parts, hparts, h⟩ := of_bind h
    refine ⟨s, parts, seq_eq_ok_iff.mp hs, (pure_eq_ok_iff.mp h).symm, ?_⟩
    refine (mapM_eq_ok_iff.mp hparts).imp ?_
    rintro ⟨i, index⟩ part hpart
    obtain ⟨nested, hnested, hpart⟩ := of_bind hpart
    exact ⟨nested, mapM_eq_ok_iff.mp hnested, (pure_eq_ok_iff.mp hpart).symm⟩
  · rintro ⟨s, parts, hs, rfl, hparts⟩
    refine ⟨s, seq_eq_ok_iff.mpr hs, bind_eq_ok_iff.mpr ⟨parts, mapM_eq_ok_iff.mpr ?_, rfl⟩⟩
    refine hparts.imp ?_
    rintro ⟨i, index⟩ part ⟨nested, hnested, rfl⟩
    exact bind_eq_ok_iff.mpr ⟨nested, mapM_eq_ok_iff.mpr hnested, rfl⟩

/-- What the walk meets stands where it says, in a sequence that is nested in the one walked. -/
theorem walkSeq_visit (h : b.walkSeq bound id = .ok visits) {v : Visit} (hv : v ∈ visits) :
    b.ReachesFrom id v.seq ∧ b.instr? v.seq v.index = some v.instr := by
  induction bound generalizing id visits with
  | zero => simp [walkSeq] at h
  | succ bound ih =>
    obtain ⟨s, parts, hs, rfl, hparts⟩ := walkSeq_succ_eq_ok_iff.mp h
    obtain ⟨part, hpart, hv⟩ := mem_flatten.mp hv
    obtain ⟨⟨i, index⟩, hentry, nested, hnested, rfl⟩ := forall₂_mem_right hparts hpart
    have hi : b.instr? id index = some i := by
      rw [instr?_of_seq hs, mk_mem_zipIdx_iff_getElem?.mp hentry]
    rcases mem_cons.mp hv with rfl | hv
    · exact ⟨.refl _, hi⟩
    · obtain ⟨vs, hvs, hv⟩ := mem_flatten.mp hv
      obtain ⟨child, hchild, hwalk⟩ := forall₂_mem_right hnested hvs
      obtain ⟨hreach, hinstr⟩ := ih hwalk hv
      exact ⟨.step hi hchild hreach, hinstr⟩

/-- The walk meets every instruction of every sequence that is nested in the one walked. -/
theorem walkSeq_complete (h : b.walkSeq bound id = .ok visits) {seq : SeqId}
    (hreach : b.ReachesFrom id seq) {index : Nat} {i : Instr} (hi : b.instr? seq index = some i) :
    ⟨seq, index, i⟩ ∈ visits := by
  induction bound generalizing id visits with
  | zero => simp [walkSeq] at h
  | succ bound ih =>
    obtain ⟨s, parts, hs, rfl, hparts⟩ := walkSeq_succ_eq_ok_iff.mp h
    cases hreach with
    | refl =>
      rw [instr?_of_seq hs] at hi
      obtain ⟨part, hpart, nested, _, rfl⟩ :=
        forall₂_mem_left hparts (mk_mem_zipIdx_iff_getElem?.mpr hi)
      exact mem_flatten.mpr ⟨_, hpart, mem_cons_self⟩
    | step hj hchild hreach =>
      rw [instr?_of_seq hs] at hj
      obtain ⟨part, hpart, nested, hnested, rfl⟩ :=
        forall₂_mem_left hparts (mk_mem_zipIdx_iff_getElem?.mpr hj)
      obtain ⟨vs, hvs, hwalk⟩ := forall₂_mem_left hnested hchild
      refine mem_flatten.mpr ⟨_, hpart, mem_cons_of_mem _ ?_⟩
      exact mem_flatten.mpr ⟨vs, hvs, ih hwalk hreach⟩

theorem mem_walk_iff (h : b.walk = .ok visits) {v : Visit} :
    v ∈ visits ↔ b.Reaches v.seq ∧ b.instr? v.seq v.index = some v.instr :=
  ⟨fun hv => walkSeq_visit h hv, fun hv => walkSeq_complete h hv.1 hv.2⟩

theorem reachesFrom_of_children {c : Body} (same : ∀ seq index i, b.instr? seq index = some i →
      ∃ j, c.instr? seq index = some j ∧ j.children = i.children) {root seq : SeqId}
    (h : b.ReachesFrom root seq) : c.ReachesFrom root seq := by
  induction h with
  | refl => exact .refl _
  | step hi hchild _ ih =>
    obtain ⟨j, hj, hchildren⟩ := same _ _ _ hi
    exact .step hj (hchildren ▸ hchild) ih

end Body

end HostCatch
