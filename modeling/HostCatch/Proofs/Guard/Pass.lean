import HostCatch.Guard.Pass
import HostCatch.Proofs.Guard.Wrapper
import HostCatch.Proofs.Guard.Retarget
import HostCatch.Proofs.Program.WellFormed
import Mathlib.Data.List.Nodup

namespace HostCatch

open List

theorem Fault.joined_eq_ok_iff {faults : List Fault} {u : Unit} :
    Fault.joined faults = .ok u ↔ faults = [] := by
  rcases faults with - | ⟨fault, - | ⟨next, faults⟩⟩ <;> simp [Fault.joined]

namespace Metadata

theorem eraseDups_nodup (ids : List FuncId) : ids.eraseDups.Nodup := by
  cases ids with
  | nil => simp
  | cons id ids =>
    rw [eraseDups_cons, nodup_cons]
    refine ⟨by simp, eraseDups_nodup _⟩
termination_by ids.length
decreasing_by exact Nat.lt_succ_of_le (List.length_filter_le _ _)

theorem flagged_nodup (md : Metadata) (adapters : List Adapter) : (md.flagged adapters).Nodup :=
  (eraseDups_nodup _).mergeSort

end Metadata

namespace Program

variable {p q : Program} {id : FuncId} {tag : TagId} {strategy : Strategy} {handles : Handles}

theorem checkHandles_eq_ok {md : Metadata} {flagged : List FuncId} {hs : Handles}
    (h : p.checkHandles md flagged = .ok hs) (hid : id ∈ flagged) :
    ∃ f, p.funcs[id]? = some f ∧ f.isImported = true := by
  obtain ⟨_, hjoined, -⟩ := of_bind h
  have hnone := (append_eq_nil_iff.mp (Fault.joined_eq_ok_iff.mp hjoined)).2
  have hfaults : p.flagFaults id = [] := flatMap_eq_nil_iff.mp hnone id hid
  unfold flagFaults at hfaults
  split at hfaults
  next => simp at hfaults
  next f hf =>
    split at hfaults
    next himported => exact ⟨f, hf, himported⟩
    next => simp at hfaults

theorem checkResults_eq_ok_iff {f : Function} (hf : p.funcs[id]? = some f) :
    p.checkResults id = .ok () ↔ .v128 ∉ p.results f.type := by
  unfold checkResults
  rw [hf]
  by_cases h : ValType.v128 ∈ p.results f.type <;> simp [h]

/-- A tag is imported as the one of host exceptions, and has their type. -/
def IsHostTag (p : Program) (tag : TagId) : Prop :=
  ∃ t entry, p.tags[tag]? = some t ∧ t.entry = some entry ∧
    p.imports[entry]? = some ⟨tagModule, tagName, .tag tag⟩ ∧
    p.types[t.type]? = some hostTagSignature

theorem existingTag_isHostTag (hp : p.Linked) (h : p.existingTag = .ok (some tag)) :
    p.IsHostTag tag := by
  unfold existingTag at h
  split at h
  next => cases h
  next i hi =>
    split at h
    next => cases h
    next found hfound =>
      split at h
      next htype =>
        cases h
        obtain ⟨entry, hentry⟩ := getElem?_of_mem (mem_of_find?_eq_some hi)
        have hname : i.module = tagModule ∧ i.name = tagName := by
          simpa using find?_some hi
        have htarget : i.target = .tag tag := by
          unfold Import.tag? at hfound
          split at hfound
          next => cases hfound; assumption
          next => cases hfound
        obtain ⟨t, ht, hback⟩ := hp.toTag entry i tag hentry htarget
        refine ⟨t, entry, ht, hback, ?_, by simpa [ht] using htype⟩
        rw [hentry, ← hname.1, ← hname.2, ← htarget]
      next => cases h

/-- The tag of host exceptions is there already, or comes with one more import. -/
theorem hostTag_eq_ok (hp : p.Linked) (h : p.hostTag = .ok (tag, q)) :
    q.IsHostTag tag ∧ (q = p ∨ ∃ types type, q = { p with
      types := p.types ++ types
      tags := p.tags ++ [⟨type, 0, some p.imports.length⟩]
      imports := p.imports ++ [⟨tagModule, tagName, .tag tag⟩] }) := by
  obtain ⟨found, hfound, h⟩ := of_bind h
  cases found with
  | some found =>
    simp only [pure_eq_ok_iff, Prod.mk.injEq] at h
    obtain ⟨rfl, rfl⟩ := h
    exact ⟨existingTag_isHostTag hp hfound, .inl rfl⟩
  | none =>
    simp only [pure_eq_ok_iff, Prod.mk.injEq, importTag] at h
    obtain ⟨rfl, rfl⟩ := h
    obtain ⟨types, htypes, htype, -⟩ := addType_spec p hostTagSignature
    refine ⟨⟨⟨(p.addType hostTagSignature).1, 0, some p.imports.length⟩, p.imports.length, ?_, rfl,
      ?_, ?_⟩, .inr ⟨types, (p.addType hostTagSignature).1, ?_⟩⟩
    · simp [htypes]
    · simp [htypes]
    · simpa [htypes] using htype
    · simp [htypes]

theorem hostTag_funcs (h : p.hostTag = .ok (tag, q)) : q.funcs = p.funcs := by
  obtain ⟨found, -, h⟩ := of_bind h
  cases found with
  | some found =>
    cases h
    rfl
  | none =>
    simp only [pure_eq_ok_iff, Prod.mk.injEq, importTag] at h
    obtain ⟨rfl, rfl⟩ := h
    obtain ⟨types, htypes, -⟩ := addType_spec p hostTagSignature
    simp [htypes]

theorem wrapperName_congr (f : Function) (hf : q.importOf? id = p.importOf? id) :
    q.wrapperName id f = p.wrapperName id f := by
  simp only [wrapperName, baseName, importName?, hf]

theorem importOf?_congr (hf : q.funcs[id]? = p.funcs[id]?) (himports : q.imports = p.imports) :
    q.importOf? id = p.importOf? id := by
  simp only [importOf?, hf, himports]

/-- The function at `w` was made for the import `id` and stands behind all functions of `p`. -/
structure NewWrapper (strategy : Strategy) (tag : TagId) (handles : Handles) (p q : Program)
    (id w : FuncId) (g : Function) : Prop where
  behind : p.funcs.length ≤ w
  found : q.funcs[w]? = some g
  made : ∃ f sig r, p.funcs[id]? = some f ∧ p.types[f.type]? = some sig ∧
    g.name = p.wrapperName id f ∧ g.type = f.type ∧ g.MadeBy strategy r ∧
    r.callee = id ∧ r.tag = tag ∧ r.handles = handles ∧ r.results = sig.results ∧
    r.params.map (q.locals[·]?) = sig.params.map some

/-- Functions that can be wrapped: their types are there. -/
def Wrappable (p : Program) (id : FuncId) : Prop :=
  ∃ f, p.funcs[id]? = some f ∧ f.type < p.types.length

theorem range'_locals (before params after : List ValType) :
    (List.range' before.length params.length).map ((before ++ (params ++ after))[·]?) =
      params.map some := by
  apply ext_getElem?
  intro n
  rw [getElem?_map, getElem?_map]
  by_cases hn : n < params.length
  · have hlocal : (before ++ (params ++ after))[before.length + n]? = params[n]? := by
      rw [getElem?_append_right (Nat.le_add_right _ n), Nat.add_sub_cancel_left,
        getElem?_append_left hn]
    simp [hn, hlocal]
  · simp [hn]

end Program

end HostCatch
