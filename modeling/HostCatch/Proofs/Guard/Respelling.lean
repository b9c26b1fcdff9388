import HostCatch.Proofs.Guard.Alteration
import HostCatch.Proofs.Program.Shaping

namespace HostCatch

open List

namespace Emitting

variable {w : Emitting} {types : List Signature} {labels : List SeqId} {bound : Nat} {id : SeqId}
variable {s : Seq} {ws : List Wire.Instr}

theorem leaves_of_shapes {N : SeqId → List Wire.Instr → Prop} {is : List Instr}
    {parts : List (List Wire.Instr)} (h : Forall₂ (w.Shapes types N labels) is parts)
    (hleaf : ∀ i ∈ is, i.children = []) :
    Forall₂ (w.Stands labels) is parts.flatten := by
  induction h with
  | nil => exact .nil
  | cons hi _ ih =>
    obtain ⟨hfirst, hrest⟩ := forall_mem_cons.mp hleaf
    cases hi with
    | plain hx => exact .cons hx (ih hrest)
    | _ => simp [Instr.children] at hfirst

theorem Codes.leaves (h : w.Codes types (bound + 1) labels id ws) (hs : w.body.seqs[id]? = some s)
    (hleaf : ∀ i ∈ s.instrs, i.children = []) :
    Forall₂ (w.Stands labels) s.instrs ws := by
  obtain ⟨_, parts, ht, hparts, rfl⟩ := h
  cases hs.symm.trans ht
  exact leaves_of_shapes hparts hleaf

theorem Codes.first {type : BlockType} {i : Instr} {rest : List Instr}
    (h : w.Codes types (bound + 1) labels id ws) (hs : w.body.seqs[id]? = some ⟨type, i :: rest⟩)
    (hleaf : ∀ j ∈ rest, j.children = []) : ∃ first others,
      w.Shapes types (fun inner => w.Codes types bound (inner :: labels) inner) labels i first ∧
      Forall₂ (w.Stands labels) rest others ∧ ws = first ++ others := by
  obtain ⟨_, parts, ht, hparts, rfl⟩ := h
  cases hs.symm.trans ht
  obtain ⟨first, others, hfirst, hothers, rfl⟩ := forall₂_cons_left_iff.mp hparts
  exact ⟨first, others.flatten, hfirst, leaves_of_shapes hothers hleaf, flatten_cons⟩

theorem Opened.numbered {k : Int32} (h : w.Opened types id k) (hs : w.body.seqs[id]? = some s) :
    s.type.Numbered types k := by
  obtain ⟨_, ht, hk⟩ := h
  cases hs.symm.trans ht
  exact hk

section Wrappers

variable {r : Recipe} {type handlerType : TypeId} {tried : BlockType} {defaults : List Instr}

theorem guard_eq {catches : List Wire.CatchClause} {tag : TagId}
    (h : Forall₂ (w.Directs [1, 0]) [⟨0x00, tag, 1⟩] catches) :
    ∃ k, w.numbering.tag tag = .ok k ∧ catches = [⟨0x00, k, 0⟩] := by
  obtain ⟨⟨kind, k, label⟩, _, ⟨hkind, hlabel, htag, -⟩, hnil, rfl⟩ := forall₂_cons_left_iff.mp h
  cases hnil
  cases hkind
  cases hlabel
  exact ⟨k, htag rfl, rfl⟩

theorem modern_code (hseqs : w.body.seqs = r.modernSeqs type defaults)
    (hdefaults : r.results.mapM defaultValue = .ok defaults)
    (h : w.Codes types 4 [0] 0 ws) : ∃ tag forward keep, w.numbering.tag r.tag = .ok tag ∧
      Forall₂ (w.Stands [2, 1, 0]) (r.forwarding ++ [.ret]) forward ∧
      Forall₂ (w.Stands [0]) (r.keeping ++ defaults) keep ∧
      ws = ⟨0x02, .block (-17)⟩ :: (⟨0x1F, .tryTable (-64) [⟨0x00, tag, 0⟩]⟩ :: forward ++
        [close, ⟨0x00, .none⟩, close]) ++ keep := by
  have hs (n : Nat) : w.body.seqs[n]? = (r.modernSeqs type defaults)[n]? := by rw [hseqs]
  obtain ⟨first, keep, hfirst, hkeep, rfl⟩ :=
    h.first (hs 0) fun i hi => (Recipe.handler_leaf hdefaults hi).children
  cases hfirst with
  | plain hx => cases hx
  | block hblock hinner =>
    obtain ⟨guarded, stop, hguarded, hstop, rfl⟩ := hinner.first (hs 1) (by simp [Instr.children])
    cases hguarded with
    | plain hx => cases hx
    | tryTable htable hcatches hforward =>
      have hforwarded := hforward.leaves (hs 2) fun i hi => (Recipe.guarded_leaf hi).children
      obtain ⟨tag, htag, rfl⟩ := guard_eq hcatches
      cases hblock.numbered (hs 1) with
      | first hheap => cases hheap
      | code =>
      cases htable.numbered (hs 2)
      obtain ⟨_, _, hx, hnil, rfl⟩ := forall₂_cons_left_iff.mp hstop
      cases hnil
      cases hx
      have hcode : Int32.ofInt (ValType.externRef.code.toNat - 0x80) = -17 := by decide
      exact ⟨tag, _, keep, htag, hforwarded, hkeep, by simp [hcode]⟩

theorem legacy_code (hseqs : w.body.seqs = r.legacySeqs type handlerType tried defaults)
    (hdefaults : r.results.mapM defaultValue = .ok defaults)
    (h : w.Codes types 4 [0] 0 ws) : ∃ t tag forward keep,
      tried.Numbered types t ∧ w.numbering.tag r.tag = .ok tag ∧
      Forall₂ (w.Stands [2, 0]) r.forwarding forward ∧
      Forall₂ (w.Stands [1, 0]) (r.keeping ++ defaults) keep ∧
      ws = ⟨0x06, .block t⟩ :: forward ++ ⟨0x07, .throw tag⟩ :: keep ++ [close] := by
  have hs (n : Nat) : w.body.seqs[n]? = (r.legacySeqs type handlerType tried defaults)[n]? := by
    rw [hseqs]
  obtain ⟨first, others, hfirst, hothers, rfl⟩ := h.first (hs 0) (by simp)
  cases hothers
  cases hfirst with
  | plain hx => cases hx
  | @tryCatch _ _ t forward _ _ htried hforward hparts =>
    obtain ⟨_, _, ⟨op, keep, hop, hkeep, rfl⟩, hnil, rfl⟩ := forall₂_cons_left_iff.mp hparts
    cases hnil
    cases hop with
    | tag htag =>
      have hforwarded := hforward.leaves (hs 2) fun i hi => (Recipe.forwarding_leaf hi).children
      have hkept := hkeep.leaves (hs 1) fun i hi => (Recipe.handler_leaf hdefaults hi).children
      exact ⟨t, _, forward, keep, htried.numbered (hs 2), htag, hforwarded, hkept, by simp [ending]⟩

end Wrappers

end Emitting

end HostCatch
