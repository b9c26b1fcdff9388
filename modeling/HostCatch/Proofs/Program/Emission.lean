import HostCatch.Proofs.Program.Bodies
import HostCatch.Proofs.Program.Progress

namespace HostCatch

open List

variable {ε σ α β : Type} {f : α → StateT σ (Except ε) β} {as : List α} {bs : List β}

theorem run_mapM_eq_ok {s : σ} {t : σ} (h : (as.mapM f).run s = .ok (bs, t)) :
    Forall₂ (fun a b => ∃ s t, (f a).run s = .ok (b, t)) as bs := by
  induction as generalizing s bs with
  | nil =>
    cases h
    exact .nil
  | cons a as ih =>
    rw [mapM_cons] at h
    obtain ⟨b, u, hb, h⟩ := run_bind_eq_ok_iff.mp h
    obtain ⟨rest, v, hrest, h⟩ := run_bind_eq_ok_iff.mp h
    cases h
    exact .cons ⟨s, u, hb⟩ (ih hrest)

theorem run_mapM_append_eq_ok {as' : List α} {s t : σ}
    (h : ((as ++ as').mapM f).run s = .ok (bs, t)) :
    ∃ cs cs' u, (as.mapM f).run s = .ok (cs, u) ∧ (as'.mapM f).run u = .ok (cs', t) ∧
      bs = cs ++ cs' := by
  rw [mapM_append] at h
  obtain ⟨cs, u, hcs, h⟩ := run_bind_eq_ok_iff.mp h
  obtain ⟨cs', v, hcs', h⟩ := run_bind_eq_ok_iff.mp h
  cases h
  exact ⟨cs, cs', u, hcs, hcs', rfl⟩

theorem run_mapM_state {s t : σ} (hkept : ∀ a ∈ as, ∀ u b v, (f a).run u = .ok (b, v) → v = u)
    (h : (as.mapM f).run s = .ok (bs, t)) : t = s := by
  induction as generalizing s bs with
  | nil =>
    cases h
    rfl
  | cons a as ih =>
    rw [mapM_cons] at h
    obtain ⟨b, u, hb, h⟩ := run_bind_eq_ok_iff.mp h
    obtain ⟨rest, v, hrest, h⟩ := run_bind_eq_ok_iff.mp h
    cases h
    rw [ih (fun a ha => hkept a (mem_cons_of_mem _ ha)) hrest]
    exact hkept a mem_cons_self _ _ _ hb

theorem run_mapM_grows {γ : Type} {f : α → StateT (List γ) (Except ε) β} {Q : γ → Prop}
    {s t : List γ}
    (hstep : ∀ a ∈ as, ∀ u b v, (f a).run u = .ok (b, v) → ∃ added, v = u ++ added ∧ ∀ x ∈ added, Q x)
    (h : (as.mapM f).run s = .ok (bs, t)) : (∃ added, t = s ++ added ∧ ∀ x ∈ added, Q x) ∧
      Forall₂ (fun a b => ∃ u v, (f a).run u = .ok (b, v) ∧ v <+: t) as bs := by
  induction as generalizing s bs with
  | nil =>
    cases h
    exact ⟨⟨[], by simp, nofun⟩, .nil⟩
  | cons a as ih =>
    rw [mapM_cons, run_bind_eq_ok_iff] at h
    obtain ⟨b, u, hb, h⟩ := h
    obtain ⟨others, _, hothers, h⟩ := run_bind_eq_ok_iff.mp h
    cases h
    obtain ⟨first, rfl, hfirst⟩ := hstep a (by simp) s b u hb
    obtain ⟨⟨rest, rfl, hrest⟩, hall⟩ := ih (fun a' ha' => hstep a' (mem_cons_of_mem _ ha')) hothers
    refine ⟨⟨first ++ rest, append_assoc .., ?_⟩, .cons ⟨s, _, hb, prefix_append _ _⟩ hall⟩
    exact fun x hx => (mem_append.mp hx).elim (hfirst x) (hrest x)

namespace Numbering

theorem indexIn_of_getElem? {order : List Nat} (h : order.Nodup) {n id : Nat}
    (hid : order[n]? = some id) : indexIn order id = UInt32.ofNat n := by
  obtain ⟨hlt, hget⟩ := List.getElem?_eq_some_iff.mp hid
  rw [indexIn, ← hget, h.idxOf_getElem n hlt]

theorem indexIn_range {n k : Nat} (h : k < n) : indexIn (List.range n) k = UInt32.ofNat k :=
  indexIn_of_getElem? nodup_range (getElem?_range h)

theorem index_range {n k : Nat} (h : k < n) : index (List.range n) k = .ok (UInt32.ofNat k) := by
  rw [index, length_range, if_pos h, indexIn_range h]

theorem follow_range (n : Nat) (i : UInt32) : follow (List.range n) i = i := by
  unfold follow
  split
  next hlt =>
    rw [length_range] at hlt
    rw [indexIn_range hlt, UInt32.ofNat_toNat]
  next => rfl

end Numbering

theorem Body.slots_eq {b : Body} (h : (b.params ++ b.locals).Nodup) : b.slots = b.params ++ b.locals := by
  obtain ⟨params, locals, seqs, entry⟩ := b
  unfold slots
  dsimp only at h ⊢
  induction locals generalizing params with
  | nil => simp
  | cons var locals ih =>
    have hfresh : var ∉ params := fun hvar =>
      (nodup_append.mp h).2.2 var hvar var (by simp) rfl
    rw [foldl_cons, if_neg hfresh, ih _ (by simpa using h)]
    simp

namespace Emitting

variable {w : Emitting} {scope : Scope} {κ : FuncId → FuncId}

theorem slot_eq (hnodup : w.slots.Nodup) {var : LocalId} {n : Nat} (h : w.slots[n]? = some var) :
    w.slot var = .ok (UInt32.ofNat n) := by
  obtain ⟨hlt, hget⟩ := List.getElem?_eq_some_iff.mp h
  have hfind : w.slots.reverse.findIdx? (· = var) = some (w.slots.length - 1 - n) := by
    refine List.findIdx?_eq_some_iff_getElem.mpr ⟨by simp; omega, ?_, ?_⟩
    · simp only [List.getElem_reverse, decide_eq_true_eq]
      rw [← hget]
      congr 1
      omega
    · intro j hj
      rw [decide_eq_true_eq, getElem_reverse, ← hget]
      intro heq
      have := hnodup.getElem_inj_iff.mp heq
      omega
  have hback : w.slots.length - 1 - (w.slots.length - 1 - n) = n := by omega
  simp [slot, hfind, hback]

theorem slot_localRef (hslots : w.slots = scope.locals) (hnodup : scope.locals.Nodup) {i : UInt32}
    {var : LocalId} (hvar : scope.localRef i = .ok var) : w.slot var = .ok i := by
  unfold Scope.localRef at hvar
  split at hvar
  next found hfound =>
    cases hvar
    rw [← hslots] at hfound hnodup
    rw [slot_eq hnodup hfound, UInt32.ofNat_toNat]
  next hnone =>
    have hlt := (Scope.check_eq_ok hvar).2
    rw [getElem?_eq_none_iff] at hnone
    omega

theorem follows_of_range {ρ : Renumbering} {n : Nat} (hfuncs : w.numbering.funcs = List.range n)
    (hn : scope.funcs ≤ n) (hκ : ∀ f, f < scope.funcs → κ f < n)
    (hcall : ∀ i : UInt32, i.toNat < scope.funcs → ρ.call i = UInt32.ofNat (κ i.toNat))
    (hfunc : ∀ i, ρ.func i = i) (htables : w.numbering.tables = List.range scope.tables)
    (htable : ∀ i, ρ.table i = i)
    (htags : ∀ i : UInt32, i.toNat < scope.tags → w.numbering.tag i.toNat = .ok (ρ.tag i))
    (hslots : w.slots = scope.locals) (hnodup : scope.locals.Nodup) : w.Follows scope κ ρ where
  call := by
    intro i id hid
    obtain ⟨rfl, hlt⟩ := Scope.check_eq_ok hid
    have hκlt := hκ _ hlt
    simp [funcIndex, hfuncs, hκlt, Numbering.indexIn_range hκlt, hcall i hlt]
  func := by
    intro i id hid
    obtain ⟨rfl, hlt⟩ := Scope.check_eq_ok hid
    have hlt' := Nat.lt_of_lt_of_le hlt hn
    simp [funcIndex, hfuncs, hlt', Numbering.indexIn_range hlt', hfunc]
  tag := by
    intro i id hid
    obtain ⟨rfl, hlt⟩ := Scope.check_eq_ok hid
    exact htags i hlt
  table := by
    intro i id hid
    obtain ⟨rfl, hlt⟩ := Scope.check_eq_ok hid
    rw [Numbering.table, htables, Numbering.index_range hlt, UInt32.ofNat_toNat, htable]
  var := fun _ _ hvar => slot_localRef hslots hnodup hvar

/-- A body that was read is written as it was read, but for alternatives that hold nothing. -/
theorem code_of_read {ρ : Renumbering} (hw : w.Follows scope κ ρ) {type : TypeId}
    {is : List Wire.Instr} {seqs : List Seq}
    (hread : Reading.run scope ⟨[⟨.multi type, []⟩], [⟨0, .entry⟩]⟩ is = .ok seqs)
    (hbody : w.body.seqs = seqs.map (Seq.redirect κ)) (hentry : w.body.entry = 0) :
    ∃ ws, (Wire.dropEmptyElse is).map (·.renumber ρ) = ws ++ [close] ∧
      Emit.Gives (w.code (w.body.seqs.length + 1) [w.body.entry] w.body.entry) ws := by
  have hstart : w.Progress κ [⟨.multi type, []⟩] [⟨0, .entry⟩] [] := .entry rfl (Writes.nil _)
  obtain ⟨ws, hws, hcode⟩ := hstart.run hw hbody (r := ⟨[⟨.multi type, []⟩], [⟨0, .entry⟩]⟩)
    (Reading.start_sound type) hread (by simp)
  refine ⟨ws, hws, ?_⟩
  rw [hentry]
  exact hcode _ (by simp)

end Emitting

namespace Program

variable {numbering : Numbering} {b : Body} {u v : List ValType} {p : Program}

/-- A body that can be written is written as its code and the types of its variables. -/
theorem emitBody_eq_ok {func : FuncId} {out : Wire.FuncBody}
    (h : (p.emitBody numbering func b).run u = .ok (out, v)) :
    ∃ types ws, p.declaredTypesOf ⟨numbering, p.types, func, b, b.slots⟩ = .ok types ∧
      ((⟨numbering, p.types, func, b, b.slots⟩ : Emitting).code (b.seqs.length + 1) [b.entry]
        b.entry).run u = .ok (ws, v) ∧
      Wire.encodeInstrs (ws ++ [Emitting.close]) = .ok out.code ∧
      out.locals = (runs types).map localEntry := by
  obtain ⟨types, u', htypes, h⟩ := run_bind_eq_ok_iff.mp h
  obtain ⟨found, hfound, heq⟩ := run_lift_eq_ok_iff.mp htypes
  cases heq
  obtain ⟨ws, v', hws, h⟩ := run_bind_eq_ok_iff.mp h
  obtain ⟨code, v'', hencode, h⟩ := run_bind_eq_ok_iff.mp h
  obtain ⟨bytes, hbytes, heq⟩ := run_liftAbort_eq_ok_iff.mp hencode
  cases heq
  cases h
  exact ⟨types, ws, hfound, hws, hbytes, rfl⟩

theorem emitFunction_eq_ok {id : FuncId} {f : Function} (hf : p.funcs[id]? = some f)
    (hb : f.kind = .defined b) {out : UInt32 × Wire.FuncBody}
    (h : (p.emitFunction numbering id).run u = .ok (out, v)) :
    f.type < p.types.length ∧ out.1 = UInt32.ofNat f.type ∧
      (p.emitBody numbering id b).run u = .ok (out.2, v) := by
  have hbody : f.body? = some b := by simp [Function.body?, hb]
  simp only [emitFunction, hf, Option.map_some, Option.getD_some, Option.bind_some, hbody] at h
  split at h
  next => cases h
  next hlt =>
    obtain ⟨body, u', hemit, h⟩ := run_bind_eq_ok_iff.mp h
    cases h
    exact ⟨Nat.lt_of_not_le hlt, rfl, hemit⟩

theorem emitting_eq_ok_iff {what : String} {x : Except Failure α} {a : α} :
    emitting what x = .ok a ↔ x = .ok a := by
  unfold emitting
  split
  next => simp
  next => rfl

/-- A program can be written as a module: these are the functions with bodies, the types that are
asked for, and the section of names. -/
structure Emits (p : Program) (out : Wire.Module) (bodies : List (UInt32 × Wire.FuncBody))
    (extra : List ValType) (names : List Wire.Custom) : Prop where
  run : (p.definedFuncs.mapM (p.emitFunction p.numbering)).run [] = .ok (bodies, extra)
  imports : p.importsToWire = .ok out.imports
  globals : (p.globals.zipIdx.mapM fun (g, i) => emitGlobal p.numbering i g) = .ok out.globals
  elements : (p.elements.zipIdx.mapM fun (e, i) => emitElement p.numbering i e) = .ok out.elements
  exports : p.exportsToWire p.numbering = .ok out.exports
  start : p.startIndex p.numbering = .ok out.start
  naming : p.nameSection p.numbering = .ok names
  types : out.types = (p.types ++ extra.map (Signature.mk [] [·])).map Signature.toWire
  typeDefs : out.typeDefs = out.types.map fun t => .func (some t)
  funcs : out.funcs = bodies.map Prod.fst
  tables : out.tables = (p.definedTables.filterMap (p.tables[·]?)).map tableToWire
  memories : out.memories = p.memories
  tags : out.tags = (p.definedTags.filterMap (p.tags[·]?)).map tagToWire
  dataCount : out.dataCount = p.dataCount
  code : out.code = bodies.map Prod.snd
  data : out.data = p.data
  customs : out.customs = names ++ p.customs

/-- What writing a program gives, section by section. -/
theorem toModule_eq_ok_iff {out : Wire.Module} :
    p.toModule = .ok out ↔ ∃ bodies extra names, p.Emits out bodies extra names := by
  unfold toModule
  constructor
  · intro h
    obtain ⟨⟨bodies, extra⟩, hrun, h⟩ := of_bind h
    obtain ⟨imports, himports, h⟩ := of_bind h
    obtain ⟨globals, hglobals, h⟩ := of_bind h
    obtain ⟨elements, helements, h⟩ := of_bind h
    obtain ⟨exports, hexports, h⟩ := of_bind h
    obtain ⟨start, hstart, h⟩ := of_bind h
    obtain ⟨names, hnames, h⟩ := of_bind h
    cases h
    refine ⟨bodies, extra, names, hrun, liftM_abort_eq_ok_iff.mp himports, hglobals, helements,
      liftM_abort_eq_ok_iff.mp hexports, liftM_abort_eq_ok_iff.mp hstart, ?_, rfl, rfl, rfl, rfl,
      rfl, rfl, rfl, rfl, rfl, rfl⟩
    exact liftM_fault_eq_ok_iff.mp (emitting_eq_ok_iff.mp hnames)
  · rintro ⟨bodies, extra, names, h⟩
    refine bind_eq_ok_iff.mpr ⟨(bodies, extra), h.run, ?_⟩
    refine bind_eq_ok_iff.mpr ⟨out.imports, liftM_abort_eq_ok_iff.mpr h.imports, ?_⟩
    refine bind_eq_ok_iff.mpr ⟨out.globals, h.globals, ?_⟩
    refine bind_eq_ok_iff.mpr ⟨out.elements, h.elements, ?_⟩
    refine bind_eq_ok_iff.mpr ⟨out.exports, liftM_abort_eq_ok_iff.mpr h.exports, ?_⟩
    refine bind_eq_ok_iff.mpr ⟨out.start, liftM_abort_eq_ok_iff.mpr h.start, ?_⟩
    refine bind_eq_ok_iff.mpr ⟨names, ?_, ?_⟩
    · exact emitting_eq_ok_iff.mpr (liftM_fault_eq_ok_iff.mpr h.naming)
    · rw [pure_eq_ok_iff]
      rw [← h.types, ← h.typeDefs, ← h.funcs, ← h.tables, ← h.memories, ← h.tags, ← h.dataCount,
        ← h.code, ← h.data, ← h.customs]

theorem Ordered.follows (h : p.Ordered) (func : FuncId) (hnodup : (b.params ++ b.locals).Nodup) :
    Emitting.Follows ⟨p.numbering, p.types, func, b, b.slots⟩
      (p.scope func (b.params ++ b.locals)) id .same := by
  refine Emitting.follows_of_range (n := p.funcs.length) ?_ (Nat.le_refl _) (fun _ hf => hf) ?_
    (fun _ => rfl) ?_ (fun _ => rfl) ?_ ?_ hnodup
  · rw [h.numbering]
  · exact fun i _ => UInt32.ofNat_toNat.symm
  · rw [h.numbering]
    rfl
  · intro i hi
    have htag := Numbering.index_range (n := p.tags.length) hi
    rw [UInt32.ofNat_toNat] at htag
    rw [h.numbering]
    exact htag
  · exact Body.slots_eq hnodup

section Written

variable {m : Wire.Module} {p q s : Program} {tables : List Table} {exports : List Export}

/-- A body that was read is written as its code, without empty alternatives. -/
theorem ReadFrom.rewritten (h : ReadFrom m p q s tables exports) {i : Nat} {code : Wire.FuncBody}
    (hcode : m.code[i]? = some code) {out : UInt32 × Wire.FuncBody}
    (hout : (p.emitFunction p.numbering (q.funcs.length + i)).run u = .ok (out, v)) :
    ∃ is, Wire.decodeInstrs code.code = .ok is ∧
      Wire.encodeInstrs ((Wire.dropEmptyElse is).map (·.renumber .same)) = .ok out.2.code := by
  obtain ⟨start, declared, b, f, hf, hkind, hread, -⟩ := h.body hcode
  obtain ⟨is, his, hrun⟩ := Body.seqsOfCode_eq_ok_iff.mp hread.seqs
  obtain ⟨-, -, hemit⟩ := emitFunction_eq_ok hf hkind hout
  have hnodup : (b.params ++ b.locals).Nodup := by
    rw [hread.vars]
    exact nodup_range'
  have hsame : b.seqs = b.seqs.map (Seq.redirect id) := by
    rw [Seq.redirect_id, map_id]
  obtain ⟨ws, hws, hgives⟩ := Emitting.code_of_read (h.ordered.follows _ hnodup) hrun hsame hread.entry
  obtain ⟨_, _, -, hcode, hencode, -⟩ := emitBody_eq_ok hemit
  cases (hgives u).symm.trans hcode
  exact ⟨is, his, hws ▸ hencode⟩

theorem ReadFrom.written (h : ReadFrom m p q s tables exports) {out : Wire.Module}
    {bodies : List (UInt32 × Wire.FuncBody)} {extra : List ValType} {names : List Wire.Custom}
    (hout : p.Emits out bodies extra names) : bodies.length = m.code.length ∧
      ∀ i body, bodies[i]? = some body →
        ∃ u v, (p.emitFunction p.numbering (q.funcs.length + i)).run u = .ok (body, v) := by
  have hdefined : p.definedFuncs = List.range' q.funcs.length m.code.length := by
    rw [h.ordered.definedFuncs, h.imported, h.length, Nat.add_sub_cancel_left]
  have hall := run_mapM_eq_ok hout.run
  rw [hdefined] at hall
  refine ⟨by simpa using hall.length_eq.symm, fun i body hbody => ?_⟩
  obtain ⟨id, hid, hemit⟩ := forall₂_getElem? hall.flip hbody
  obtain ⟨hlt, hget⟩ := List.getElem?_eq_some_iff.mp hid
  rw [List.getElem_range', Nat.one_mul] at hget
  exact hget ▸ hemit

end Written

/-- Writing a module that was read gives the code of every function back, without each `else` that
its `end` follows at once. -/
theorem toModule_code {m out : Wire.Module} {p : Program} (hp : ofModule m = .ok p)
    (hout : p.toModule = .ok out)
    (hshort : ∀ body ∈ m.code, ∀ is, Wire.decodeInstrs body.code = .ok is →
      ∀ i ∈ is, ∀ t ∈ i.blockType?, -128 ≤ t) :
    List.Forall₂ (fun body written => ∃ is, Wire.decodeInstrs body.code = .ok is ∧
      Wire.decodeInstrs written.code = .ok (Wire.dropEmptyElse is)) m.code out.code := by
  obtain ⟨q, s, tables, exports, h⟩ := ofModule_eq_ok hp
  obtain ⟨bodies, extra, names, hemits⟩ := toModule_eq_ok_iff.mp hout
  obtain ⟨hlength, hwritten⟩ := h.written hemits
  rw [hemits.code, forall₂_map_right_iff, forall₂_iff_get]
  refine ⟨hlength.symm, fun i hi hi' => ?_⟩
  obtain ⟨u, v, hemit⟩ := hwritten i _ (getElem?_eq_getElem hi')
  obtain ⟨is, his, hencode⟩ := h.rewritten (getElem?_eq_getElem hi) hemit
  refine ⟨is, his, ?_⟩
  have hspelled : ∀ i ∈ Wire.dropEmptyElse is, i.Spelled := fun i hi =>
    Wire.decodeInstrs_spelled his i (Wire.mem_of_mem_dropEmptyElse hi)
  have hsame : (Wire.dropEmptyElse is).map (·.renumber .same) = Wire.dropEmptyElse is := by
    refine (map_congr_left fun i hi => ?_).trans (map_id _)
    exact Wire.Instr.renumber_same (hspelled i hi)
      (hshort _ (get_mem _ _) is his i (Wire.mem_of_mem_dropEmptyElse hi))
  obtain ⟨w, hw, hdecode⟩ := Wire.decodeInstrs_encodeInstrs hspelled
  rw [hsame] at hencode
  cases hw.symm.trans hencode
  exact hdecode

/-- Branches out of a block and out of a handler; the `else` before the first of them holds
nothing. -/
def emptyElse : Wire.Module where
  types := [⟨[], [], [], []⟩]
  funcs := [0]
  code := [⟨[], [0x02, 0x40, 0x41, 0x00, 0x04, 0x40, 0x05, 0x0B, 0x0C, 0x00, 0x0B,
    0x06, 0x40, 0x19, 0x0C, 0x01, 0x0B, 0x0B]⟩]

theorem emptyElse_code : ∃ p out, ofModule emptyElse = .ok p ∧ p.toModule = .ok out ∧
    List.Forall₂ (fun body written => ∃ is, Wire.decodeInstrs body.code = .ok is ∧
      Wire.decodeInstrs written.code = .ok (Wire.dropEmptyElse is)) emptyElse.code out.code := by
  have hrun : (match ofModule emptyElse with
      | .ok p => p.toModule.isOk
      | .error _ => false) = true := by rfl
  split at hrun
  next p hp =>
    cases hout : p.toModule with
    | error e =>
      rw [hout] at hrun
      cases hrun
    | ok out =>
      refine ⟨p, out, hp, hout, toModule_code hp hout fun body hbody is his => ?_⟩
      obtain rfl := mem_singleton.mp hbody
      obtain rfl : [⟨0x02, .block (-64)⟩, ⟨0x41, .i32 0⟩, ⟨0x04, .block (-64)⟩, ⟨0x05, .none⟩,
        ⟨0x0B, .none⟩, ⟨0x0C, .branch 0⟩, ⟨0x0B, .none⟩, ⟨0x06, .block (-64)⟩, ⟨0x19, .none⟩,
        ⟨0x0C, .branch 1⟩, ⟨0x0B, .none⟩, ⟨0x0B, .none⟩] = is := Except.ok.inj his
      simp [Wire.Instr.blockType?]
  next => cases hrun

end Program

end HostCatch
