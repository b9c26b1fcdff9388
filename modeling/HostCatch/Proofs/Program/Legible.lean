import HostCatch.Proofs.Program.Moving
import HostCatch.Proofs.Program.Readable

namespace HostCatch

open List

namespace Program

/-- A program that has room for what is written for another. -/
structure Receives (p' q : Program) (extra : List ValType) : Prop where
  types : q.types = p'.typesWith extra
  funcs : q.funcs.length = p'.funcs.length
  tables : q.tables.length = p'.tables.length
  tags : q.tags.length = p'.tags.length

/-- What is written for a body of a function type can be read where there are so many types. -/
structure Legible (p : Program) (types : Nat) (type : TypeId) (b : Body) : Prop where
  vars : ∀ var ∈ b.declared, ∀ v, p.locals[var]? = some v → v.IsKnown
  code : b.ReadableFrom types ((p.params type).length + b.declared.length) b.entry

theorem declaredTypes_runs_known {scope : Scope} {types declared : List ValType}
    (h : declaredTypes scope ((runs types).map localEntry) = .ok declared) :
    ∀ v ∈ types, v.IsKnown := by
  obtain ⟨groups, hgroups, -⟩ := of_bind h
  have hall := forall₂_map_left_iff.mp (mapM_eq_ok_iff.mp hgroups)
  intro v hv
  rw [← flatMap_runs types] at hv
  obtain ⟨r, hr, hmem⟩ := mem_flatMap.mp hv
  obtain rfl := eq_of_mem_replicate hmem
  obtain ⟨group, -, hgroup⟩ := forall₂_mem_left hall hr
  obtain ⟨found, hfound, -⟩ := of_bind hgroup
  rintro number hnumber
  have hread := Scope.restate_eq_ok hfound
  rw [localEntry, hnumber] at hread
  cases hread

/-- The code of a function spells a body exactly if its variables have types and its instructions can
be read. -/
theorem readsBody_exists_iff {r : Program} {func : FuncId} {start : Nat} {code : Wire.FuncBody} :
    (∃ declared b, r.ReadsBody func start code declared b) ↔
      ∃ declared seqs, declaredTypes (r.scope func []) code.locals = .ok declared ∧
        Body.seqsOfCode (r.scope func (List.range' start
          ((r.params (r.typeOf func)).length + declared.length))) (r.typeOf func) code.code =
            .ok seqs := by
  constructor
  · rintro ⟨declared, b, h⟩
    have hseqs := h.seqs
    rw [h.vars] at hseqs
    exact ⟨declared, b.seqs, h.types, hseqs⟩
  · rintro ⟨declared, seqs, htypes, hseqs⟩
    set vars := List.range' start ((r.params (r.typeOf func)).length + declared.length) with hvars
    have hlength : (vars.take (r.params (r.typeOf func)).length).length =
        (r.params (r.typeOf func)).length := by
      simp [hvars]
    refine ⟨declared, ⟨vars.take (r.params (r.typeOf func)).length,
      vars.drop (r.params (r.typeOf func)).length, seqs, 0⟩, htypes, hlength, ?_, ?_, rfl⟩
    · exact take_append_drop _ _
    · rw [take_append_drop]
      exact hseqs

section Written

variable {p r : Program} {extra : List ValType}

theorem params_typesWith (h : r.types = p.typesWith extra) {type : TypeId}
    (htype : type < p.types.length) : r.params type = p.params type := by
  rw [params, params, h, typesWith, getElem?_append_left htype]

theorem index_toNat_lt {order : List Nat} {n id : Nat} {k : UInt32} (h : order.Perm (List.range n))
    (hn : n ≤ 2 ^ 32) (hk : Numbering.index order id = .ok k) : k.toNat < n := by
  have hdenotes := Numbering.denotes_index h hn hk
  have hlt := lt_of_getElem? hdenotes
  rwa [h.length_eq, length_range] at hlt

theorem Receives.meets (h : Receives p r extra) (hp : p.Paired) (hcount : ∀ space, p.count space ≤ 2 ^ 32)
    {b : Body} (hsized : b.Sized) (id func : FuncId) (vars : List LocalId) :
    Emitting.Meets ⟨p.numbering, p.types, id, b, b.slots⟩ (r.scope func vars) where
  func _ _ hk := (index_toNat_lt (hp.order_perm .func) (hcount .func)
    (Emitting.funcIndex_eq_ok hk)).trans_eq h.funcs.symm
  table _ _ hk := (index_toNat_lt (hp.order_perm .table) (hcount .table) hk).trans_eq h.tables.symm
  tag _ _ hk := (index_toNat_lt (hp.order_perm .tag) (hcount .tag) hk).trans_eq h.tags.symm
  slots := rfl
  size := hsized.slots

section Code

variable (h : Receives p r extra) (hp : p.Paired) (hcount : ∀ space, p.count space ≤ 2 ^ 32)
  (hsize : r.types.length < 2 ^ 31) {b : Body} (hsized : b.Sized)
  (hclean : ∀ s ∈ b.seqs, ∀ i ∈ s.instrs, i.Clean) {id : FuncId} {ws : List Wire.Instr}
  (hws : Emitting.Codes ⟨p.numbering, p.types, id, b, b.slots⟩ (p.typesWith extra)
    (b.seqs.length + 1) [b.entry] b.entry ws)

include h hp hcount hsize hsized hclean hws

/-- The instructions that are written for a body can be read exactly if they are readable. -/
theorem Receives.leads (func : FuncId) (vars : List LocalId) :
    Reading.Leads (r.scope func vars) [⟨0, .entry⟩]
      (b.ReadableFrom r.types.length vars.length b.entry) (ws ++ [Emitting.close]) (· = []) := by
  have hroom : (p.typesWith extra).length ≤ (r.scope func vars).types := by rw [scope, h.types]
  have hbound : [b.entry].length + (b.seqs.length + 1) ≤ 2 ^ 32 + 1 := by
    have hseqs := hsized.seqs
    rw [length_singleton]
    omega
  have hrecovers := hws.recovers hroom hsize (h.meets hp hcount hsized id func vars) hsized hclean
    hbound Nat.one_pos
  exact hrecovers.closed rfl

theorem Receives.decodeInstrs_eq {code : Bytes}
    (hcode : Wire.encodeInstrs (ws ++ [Emitting.close]) = .ok code) (hlength : code.length < 2 ^ 32) :
    Wire.decodeInstrs code = .ok (ws ++ [Emitting.close]) :=
  Wire.decodeInstrs_of_spellable (h.leads hp hcount hsize hsized hclean hws 0 []).spellable hcode
    hlength

/-- Code can be read exactly if all that is reached in it can. -/
theorem Receives.seqsOfCode_iff {code : Bytes}
    (hcode : Wire.encodeInstrs (ws ++ [Emitting.close]) = .ok code) (hlength : code.length < 2 ^ 32)
    (func : FuncId) (type : TypeId) (vars : List LocalId) :
    (∃ seqs, Body.seqsOfCode (r.scope func vars) type code = .ok seqs) ↔
      b.ReadableFrom r.types.length vars.length b.entry := by
  have hleads := h.leads hp hcount hsize hsized hclean hws func vars
  have hdecode := h.decodeInstrs_eq hp hcount hsize hsized hclean hws hcode hlength
  obtain ⟨seqs', _, rfl, hreads⟩ := hleads.reads [⟨.multi type, []⟩]
  have hend : Reading.Reads (r.scope func vars) ⟨seqs', []⟩ [] := ⟨seqs', rfl⟩
  have hiff := hreads []
  rw [append_nil, and_iff_left hend] at hiff
  refine Iff.trans ?_ hiff
  simp only [Body.seqsOfCode_eq_ok_iff, hdecode]
  constructor
  · rintro ⟨seqs, _, ⟨⟩, hrun⟩
    exact ⟨seqs, hrun⟩
  · rintro ⟨seqs, hrun⟩
    exact ⟨seqs, _, rfl, hrun⟩

end Code

/-- The code that is written for a body is read again exactly if it is legible. -/
theorem Receives.readsBody_iff (h : Receives p r extra) (hp : p.Paired)
    (hcount : ∀ space, p.count space ≤ 2 ^ 32) (hsize : r.types.length < 2 ^ 31) {b : Body}
    (hsized : b.Sized) (hclean : ∀ s ∈ b.seqs, ∀ i ∈ s.instrs, i.Clean) {id : FuncId}
    {code : Wire.FuncBody} (hw : p.WritesBody extra id b code) (hlength : code.code.length < 2 ^ 32)
    (func : FuncId) (htype : r.typeOf func < p.types.length) (start : Nat) :
    (∃ declared b', r.ReadsBody func start code declared b') ↔
      p.Legible r.types.length (r.typeOf func) b := by
  obtain ⟨types, hall, hlocals⟩ := hw.vars
  obtain ⟨ws, hencode, hcode⟩ := hw.instrs
  have hknown : (∀ t ∈ types, t.IsKnown) ↔ ∀ var ∈ b.declared, ∀ t, p.locals[var]? = some t →
      t.IsKnown := by
    constructor
    · intro hknown var hvar t ht
      obtain ⟨found, hfound, hread⟩ := forall₂_mem_left hall hvar
      cases ht.symm.trans hread
      exact hknown t hfound
    · intro hknown t ht
      obtain ⟨var, hvar, hread⟩ := forall₂_mem_right hall ht
      exact hknown var hvar t hread
  have hcountVars : types.length = b.declared.length := hall.length_eq.symm
  have hdeclared : b.declared.length < 2 ^ 32 := by
    have := hsized.slots
    rw [Body.declared, length_drop]
    omega
  have hread := fun vars => h.seqsOfCode_iff hp hcount hsize hsized hclean hcode hencode hlength func
    (r.typeOf func) vars
  rw [readsBody_exists_iff, hlocals, params_typesWith h.types htype]
  constructor
  · rintro ⟨declared, seqs, hdecl, hseqs⟩
    have hk := declaredTypes_runs_known hdecl
    cases hdecl.symm.trans (declaredTypes_runs hk (hcountVars ▸ hdeclared))
    refine ⟨hknown.mp hk, ?_⟩
    have hcodes := (hread _).mp ⟨seqs, hseqs⟩
    rwa [length_range', hcountVars] at hcodes
  · rintro ⟨hk, hcodes⟩
    rw [← hcountVars] at hcodes
    obtain ⟨seqs, hseqs⟩ := (hread (List.range' start
      ((p.params (r.typeOf func)).length + types.length))).mpr (by rwa [length_range'])
    exact ⟨types, seqs, declaredTypes_runs (hknown.mpr hk) (hcountVars ▸ hdeclared), hseqs⟩

end Written

end Program

end HostCatch
