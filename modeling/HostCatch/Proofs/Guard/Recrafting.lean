import HostCatch.Proofs.Guard.Respelling
import HostCatch.Proofs.Guard.Settling
import HostCatch.Proofs.Program.Lasting
import HostCatch.Proofs.Program.Legible
import HostCatch.Proofs.Program.Listing
import HostCatch.Proofs.Program.Tracing

namespace HostCatch

open List

namespace Emitting

variable {w : Emitting} {types : List Signature} {i : Instr} {x : Wire.Instr} {k : UInt32}

theorem Begins.of_call {func : FuncId} (h : w.Begins types (.call func) x) :
    ∃ k, w.funcIndex func = .ok k ∧ x = ⟨0x10, .call k⟩ := by
  cases h with
  | construct hchild => cases hchild
  | plain hx =>
    cases hx with
    | @call _ k hk => exact ⟨k, hk, rfl⟩

theorem Begins.call (h : w.Begins types i ⟨0x10, .call k⟩) (hclean : i.Clean) :
    ∃ func, i = .call func ∧ w.funcIndex func = .ok k := by
  cases h with
  | construct _ _ _ hblock => cases hblock
  | plain hx =>
    cases hx with
    | @call func _ hk => exact ⟨func, rfl, hk⟩
    | raw => exact absurd (.call k) hclean.2

/-- What was written for a body is read as one with the same calls, where functions are read by the
numbers that they are written with. -/
theorem calls_iff {ws : List Wire.Instr}
    (hws : w.Codes types (w.body.seqs.length + 1) [w.body.entry] w.body.entry ws)
    (hclean : ∀ s ∈ w.body.seqs, ∀ i ∈ s.instrs, i.Clean) {scope : Scope}
    (hfunc : ∀ f k, w.funcIndex f = .ok k → scope.funcRef k = .ok f) {b : Body} (hentry : b.entry = 0)
    {type : TypeId} (hspelled : ∀ i ∈ ws ++ [close], i.Spelled)
    (hread : Reading.run scope (.initial type) (ws ++ [close]) = .ok b.seqs) {func : FuncId} :
    b.Calls func ↔ w.body.Calls func := by
  obtain ⟨visits', htraced⟩ := Body.traced_of_run hentry hspelled hread
  obtain ⟨visits, hwalk, hlists⟩ := hws.lists
  constructor
  · rintro ⟨seq, index, -, hi⟩
    obtain ⟨x, hx, labels, -, hreads⟩ :=
      forall₂_mem_right htraced.order ((htraced.all ⟨seq, index, .call func⟩).mpr hi)
    cases hreads with
    | plain _ hplain =>
      cases hplain with
      | @call k _ hk =>
        have hmem : ⟨0x10, .call k⟩ ∈ ws := by
          simpa [close] using (mem_filter.mp hx).1
        rcases hlists.of_mem hmem with hmark | ⟨i, hi, hbegins⟩
        · cases hmark
        · obtain ⟨visit, hvisit, rfl⟩ := mem_map.mp hi
          obtain ⟨hreach, hinstr⟩ := (Body.mem_walk_iff hwalk).mp hvisit
          obtain ⟨s, hs, hmem⟩ := Body.mem_of_instr? hinstr
          obtain ⟨f, hf, hindex⟩ := hbegins.call (hclean s hs _ hmem)
          cases (hfunc f k hindex).symm.trans hk
          exact ⟨visit.seq, visit.index, hreach, hf ▸ hinstr⟩
  · rintro ⟨seq, index, hreach, hi⟩
    have hvisit : (⟨seq, index, .call func⟩ : Visit) ∈ visits :=
      (Body.mem_walk_iff hwalk).mpr ⟨hreach, hi⟩
    obtain ⟨x, hx, hbegins⟩ := hlists.exists_of_mem (mem_map_of_mem hvisit)
    obtain ⟨k, hk, rfl⟩ := hbegins.of_call
    obtain ⟨visit, hvisit, labels, hpath, hreads⟩ := forall₂_mem_left htraced.order
      (mem_filter.mpr ⟨mem_append_left _ hx, rfl⟩)
    have hinstr := (htraced.all visit).mp hvisit
    cases hreads with
    | plain _ hplain =>
      generalize visit.instr = j at hinstr hplain
      cases hplain with
      | call hfound =>
        cases (hfunc func k hk).symm.trans hfound
        exact ⟨visit.seq, visit.index, hpath.reaches, hinstr⟩
      | raw hraw => exact absurd (.call k) hraw

end Emitting

theorem Program.Altered.funcRef {p p' : Program} {κ : FuncId → FuncId → FuncId}
    {new : Option TagImport} {types : List Signature} {more : List Function}
    {names : List Wire.Custom} (ha : p.Altered p' κ new types more) (hp : p.Ordered)
    (hsmall : p'.Small names) {w : Emitting} (hw : w.numbering = p'.numbering) {f : FuncId}
    {k : UInt32} (hk : w.funcIndex f = .ok k) {scope : Scope}
    (hfuncs : scope.funcs = p'.funcs.length) : scope.funcRef k = .ok f := by
  have hindex := Emitting.funcIndex_eq_ok hk
  rw [hw, ha.numbering_funcs hp, Numbering.index, length_range] at hindex
  split at hindex
  next hlt =>
    cases hindex
    have hback : (UInt32.ofNat f).toNat = f :=
      Reader.toNat_ofNat_size (Nat.lt_of_lt_of_le hlt hsmall.funcs)
    rw [Numbering.indexIn_range hlt, Scope.funcRef, hback]
    exact Scope.check_of_lt (hfuncs ▸ hlt)
  next => cases hindex

/-- An instruction that is no `else` and whose block type is written as it is. -/
def Wire.Instr.Lasts (i : Wire.Instr) : Prop :=
  i.op ≠ 0x05 ∧ ∀ t ∈ i.blockType?, -128 ≤ t

namespace Recipe.Leaf

variable {r : Recipe} {i : Instr}

theorem readable (h : r.Leaf i) {b : Body} {locals : Nat} (hplace : ∀ var, b.place var < locals)
    (types : Nat) : i.Readable b types locals := by
  cases h with
  | localGet var | localSet var | localTee var => exact hplace var
  | _ => trivial

theorem clean (h : r.Leaf i) : i.Clean ∧ i.calledType? = none := by
  cases h <;> exact ⟨trivial, rfl⟩

theorem lasts (h : r.Leaf i) {w : Emitting} {labels : List SeqId} {x : Wire.Instr}
    (hx : w.Stands labels i x) : x.Lasts := by
  cases hx with
  | raw => cases h
  | _ => simp [Wire.Instr.Lasts, Wire.Instr.blockType?]

end Recipe.Leaf

theorem BlockType.Numbered.short {types : List Signature} {t : BlockType} {k : Int32}
    (h : t.Numbered types k) (hroom : types.length < 2 ^ 31) (hreadable : t.Readable types.length) :
    -128 ≤ k := by
  cases h with
  | empty => decide
  | multi type =>
    have hlt : type < 2 ^ 31 := Nat.lt_trans hreadable hroom
    rw [Reader.toNat_ofNat_size (hlt.trans (by decide))]
    exact short_ofNat hlt
  | code hcode => exact short_code hreadable hcode
  | first _ hget _ => exact short_ofNat ((lt_of_getElem? hget).trans hroom)

namespace Program

section Wrapper

variable {p p' : Program} {κ : FuncId → FuncId → FuncId} {new : Option TagImport}
variable {types : List Signature} {more : List Function} {names : List Wire.Custom}
variable {tag : TagId} {handles : Handles} {id func : FuncId} {g : Function} {r : Recipe}
variable {defaults : List Instr} {seqs : List Seq} {extra : List ValType} {code : Wire.FuncBody}
variable (hc : Crafted tag handles p'.types p'.locals id g r defaults seqs)
variable (hwrites : p'.WritesBody extra func ⟨r.params, [r.exn, r.slot], seqs, 0⟩ code)

include hc in
theorem Crafted.slots : Body.slots ⟨r.params, [r.exn, r.slot], seqs, 0⟩ = r.params ++ [r.exn, r.slot] :=
  Body.slots_eq hc.nodup

include hc in
theorem Crafted.length : seqs.length = 3 := by
  rcases hc.code with hseqs | ⟨_, _, hseqs, -⟩ <;> rw [hseqs] <;> rfl

include hc hwrites in
/-- A wrapper is written with the types of its two variables and the code of its sequences. -/
theorem Crafted.written : code.locals = (runs [.externRef, .i32]).map localEntry ∧
    ∃ ws, Wire.encodeInstrs (ws ++ [Emitting.close]) = .ok code.code ∧
      Emitting.Codes ⟨p'.numbering, p'.types, func, ⟨r.params, [r.exn, r.slot], seqs, 0⟩,
        r.params ++ [r.exn, r.slot]⟩ (p'.typesWith extra) 4 [0] 0 ws := by
  obtain ⟨types, htypes, hlocals⟩ := hwrites.vars
  obtain ⟨ws, hencode, hws⟩ := hwrites.instrs
  rw [Body.declared, hc.slots, drop_left] at htypes
  cases htypes with
  | cons hexn hrest =>
    cases hrest with
    | cons hslot hnil =>
      cases hnil
      cases hc.exn.symm.trans hexn
      cases hc.slot.symm.trans hslot
      rw [hc.slots, hc.length] at hws
      exact ⟨hlocals, ws, hencode, hws⟩

section Reread

variable (hknown : ∀ t ∈ p'.types, t.IsKnown) (hsmall : p'.Small names)

include hc in
theorem Crafted.clean {s : Seq} (hs : s ∈ seqs) {i : Instr} (hi : i ∈ s.instrs) :
    i.Clean ∧ i.calledType? = none := by
  obtain rfl | rfl | rfl | hleaf := hc.instr hs hi
  · exact ⟨trivial, rfl⟩
  · exact ⟨trivial, rfl⟩
  · exact ⟨trivial, rfl⟩
  · exact hleaf.clean

include hc hknown in
theorem Crafted.readable {s : Seq} (hs : s ∈ seqs) : s.type.Readable p'.types.length := by
  obtain ⟨sig, hsig, hresults, -⟩ := hc.type
  cases htype : s.type with
  | empty => trivial
  | multi type => exact hc.blocks s hs type htype
  | single result =>
    rcases hc.code with rfl | ⟨handlerType, tried, rfl, htried⟩
    · simp only [Recipe.modernSeqs, mem_cons, not_mem_nil, or_false] at hs
      rcases hs with rfl | rfl | rfl <;> cases htype
      simp [BlockType.Readable, ValType.IsKnown, ValType.externRef]
    · simp only [Recipe.legacySeqs, mem_cons, not_mem_nil, or_false] at hs
      rcases hs with rfl | rfl | rfl
      · cases htype
      · cases htype
      · obtain rfl : tried = .single result := htype
        have hresult : r.results = [result] := htried
        refine hknown sig (mem_of_getElem? hsig) result (mem_append_right _ ?_)
        simp [← hresults, hresult]

include hc in
theorem Crafted.sized (hsmall : p'.Small names) (hsize : p'.types.length < 2 ^ 31) :
    Body.Sized ⟨r.params, [r.exn, r.slot], seqs, 0⟩ where
  seqs := by
    rw [hc.length]
    decide
  slots := by
    obtain ⟨sig, hsig, -, hparams⟩ := hc.type
    have hcount := hsmall.params sig (mem_of_getElem? hsig)
    rw [hc.slots, length_append, hparams]
    exact hcount
  types := fun s hs type htype => (hc.blocks s hs type htype).trans hsize
  calls := by
    intro s hs i hi type htype
    rw [(hc.clean hs hi).2] at htype
    cases htype

include hc hknown in
/-- What is written for a wrapper can be read. -/
theorem Crafted.legible {types : Nat} (htypes : p'.types.length ≤ types) :
    p'.Legible types g.type ⟨r.params, [r.exn, r.slot], seqs, 0⟩ where
  vars := by
    intro var hvar v hv
    rw [Body.declared, hc.slots, drop_left] at hvar
    rcases mem_pair.mp hvar with rfl | rfl
    · cases hc.exn.symm.trans hv
      simp [ValType.IsKnown, ValType.externRef]
    · cases hc.slot.symm.trans hv
      simp [ValType.IsKnown]
  code := by
    obtain ⟨sig, hsig, -, hparams⟩ := hc.type
    have hlocals : (p'.params g.type).length = r.params.length := by
      rw [Program.params, hsig, hparams]
      rfl
    have hopens : ∀ id, Body.Opens ⟨r.params, [r.exn, r.slot], seqs, 0⟩ types id := fun id t ht =>
      BlockType.Readable.mono (hc.readable hknown (mem_of_getElem? ht)) htypes
    intro seq index i _ hi
    obtain ⟨s, hs, hmem⟩ := Body.mem_of_instr? hi
    obtain rfl | rfl | rfl | hleaf := hc.instr hs hmem
    · exact hopens 1
    · exact hopens 2
    · exact ⟨hopens 2, .inr rfl⟩
    · refine hleaf.readable (fun var => ?_) types
      rw [Body.place, Body.declared, hc.slots, drop_left, hlocals, length_append]
      exact Nat.lt_of_le_of_lt (Nat.sub_le _ _) (Nat.sub_lt (by simp) Nat.one_pos)

include hc hknown in
/-- What is written for a wrapper is written so again. -/
theorem Crafted.lasts {w : Emitting} (hseqs : w.body.seqs = seqs)
    (hroom : (p'.typesWith extra).length < 2 ^ 31) {ws : List Wire.Instr}
    (hcodes : w.Codes (p'.typesWith extra) 4 [0] 0 ws) : ∀ x ∈ ws ++ [Emitting.close], x.Lasts := by
  have hleaves : ∀ {labels is xs}, Forall₂ (w.Stands labels) is xs →
      (∀ i ∈ is, r.Leaf i) → ∀ x ∈ xs, x.Lasts := by
    intro labels is xs hall hleaf x hx
    obtain ⟨i, hi, hplain⟩ := forall₂_mem_right hall hx
    exact (hleaf i hi).lasts hplain
  have hclose : Emitting.close.Lasts := by simp [Wire.Instr.Lasts, Emitting.close, Wire.Instr.blockType?]
  rcases hc.code with hcode | ⟨handlerType, tried, hcode, -⟩
  · obtain ⟨k, forward, keep, -, hforward, hkeep, rfl⟩ :=
      Emitting.modern_code (hseqs.trans hcode) hc.values hcodes
    have hforwards := hleaves hforward fun i hi => Recipe.guarded_leaf hi
    have hkeeps := hleaves hkeep fun i hi => Recipe.handler_leaf hc.values hi
    simp only [cons_append, forall_mem_cons, forall_mem_append]
    exact ⟨by simp [Wire.Instr.Lasts, Wire.Instr.blockType?],
      by simp [Wire.Instr.Lasts, Wire.Instr.blockType?], ⟨⟨hforwards, hclose,
      by simp [Wire.Instr.Lasts, Wire.Instr.blockType?], hclose, forall_mem_nil _⟩, hkeeps⟩, hclose,
      forall_mem_nil _⟩
  · obtain ⟨t, k, forward, keep, htype, -, hforward, hkeep, rfl⟩ :=
      Emitting.legacy_code (hseqs.trans hcode) hc.values hcodes
    have hforwards := hleaves hforward fun i hi => Recipe.forwarding_leaf hi
    have hkeeps := hleaves hkeep fun i hi => Recipe.handler_leaf hc.values hi
    have hlast : (⟨tried, r.forwarding⟩ : Seq) ∈ seqs := by simp [hcode, Recipe.legacySeqs]
    have hle : p'.types.length ≤ (p'.typesWith extra).length := by simp [typesWith]
    have hshort : -128 ≤ t := htype.short hroom ((hc.readable hknown hlast).mono hle)
    simp only [cons_append, forall_mem_cons, forall_mem_append]
    exact ⟨by simpa [Wire.Instr.Lasts, Wire.Instr.blockType?] using hshort, ⟨⟨hforwards,
      by simp [Wire.Instr.Lasts, Wire.Instr.blockType?], hkeeps⟩, hclose, forall_mem_nil _⟩, hclose,
      forall_mem_nil _⟩

/-- The code of a wrapper reads as a body that calls what the wrapper calls. -/
theorem Crafted.readsBody (ha : p.Altered p' κ new types more) (hp : p.Ordered)
    (hpaired : p'.Paired) (hsmall : p'.Small names) (hknown : ∀ t ∈ p'.types, t.IsKnown)
    (hc : Crafted tag handles p'.types p'.locals id g r defaults seqs)
    (hwrites : p'.WritesBody extra func ⟨r.params, [r.exn, r.slot], seqs, 0⟩ code)
    (hlength : code.code.length < 2 ^ 32) {q : Program} (hq : Receives p' q extra)
    (hsize : q.types.length < 2 ^ 31) (htype : q.typeOf func = g.type) (start : Nat) : Lasting code ∧ ∃ declared b,
      q.ReadsBody func start code declared b ∧
      ∀ callee, b.Calls callee ↔ Body.Calls ⟨r.params, [r.exn, r.slot], seqs, 0⟩ callee := by
  have hroom : p'.types.length + extra.length = q.types.length := by
    rw [hq.types, typesWith, length_append, length_map]
  have hcount : ∀ space, p'.count space ≤ 2 ^ 32 := by
    intro space
    cases space with
    | func => exact hsmall.funcs
    | table => exact hsmall.tables
    | tag => exact hsmall.tags
  have hsized := hc.sized hsmall (by omega)
  have hclean : ∀ s ∈ seqs, ∀ i ∈ s.instrs, i.Clean := fun s hs i hi => (hc.clean hs hi).1
  obtain ⟨sig, hsig, -⟩ := hc.type
  have hlt := lt_of_getElem? hsig
  obtain ⟨declared, b, hreads⟩ := (hq.readsBody_iff hpaired hcount hsize hsized hclean hwrites
    hlength func (htype ▸ hlt) start).mpr (htype ▸ hc.legible hknown (by omega))
  obtain ⟨hlocals, ws, hencode, hws⟩ := hc.written hwrites
  obtain ⟨is, hdecode, hread⟩ := Body.seqsOfCode_eq_ok_iff.mp hreads.seqs
  have hspelled := Wire.decodeInstrs_spelled hdecode
  have hcode : Emitting.Codes ⟨p'.numbering, p'.types, func, ⟨r.params, [r.exn, r.slot], seqs, 0⟩,
      Body.slots ⟨r.params, [r.exn, r.slot], seqs, 0⟩⟩ (p'.typesWith extra) (seqs.length + 1) [0] 0 ws := by
    rw [hc.slots, hc.length]
    exact hws
  cases hdecode.symm.trans (hq.decodeInstrs_eq hpaired hcount hsize hsized hclean hcode hencode hlength)
  have hlasts := hc.lasts hknown rfl (hq.types ▸ hsize) hws
  have hsame : (ws ++ [Emitting.close]).map (·.renumber .same) = ws ++ [Emitting.close] := by
    refine (map_congr_left fun i hi => ?_).trans (map_id _)
    exact Wire.Instr.renumber_same (hspelled i hi) (hlasts i hi).2
  have hdeclared : ∀ v ∈ [ValType.externRef, .i32], v.IsKnown := by
    simp [ValType.IsKnown, ValType.externRef]
  refine ⟨⟨⟨_, hdecode, ?_⟩, _, hlocals, fun scope => ?_⟩, declared, b, hreads, fun callee => ?_⟩
  · rw [Wire.dropEmptyElse_of_forall fun i hi => (hlasts i hi).1, hsame, hencode]
  · rw [hlocals]
    exact declaredTypes_runs hdeclared (by simp)
  · refine Emitting.calls_iff hcode hclean (fun f k hk => ?_) hreads.entry hspelled hread
    exact ha.funcRef hp hsmall rfl hk hq.funcs

end Reread

end Wrapper

end Program

end HostCatch
