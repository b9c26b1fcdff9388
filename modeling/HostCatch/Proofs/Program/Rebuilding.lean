import HostCatch.Proofs.Program.Coding
import HostCatch.Proofs.Program.Emission

namespace HostCatch

open List

/-- The numbers of other functions called and other tags. -/
def Renumbering.ofMaps (κ : FuncId → FuncId) (τ : TagId → TagId) : Renumbering :=
  ⟨fun func => .ofNat (κ func.toNat), fun func => func, fun table => table,
    fun tag => .ofNat (τ tag.toNat)⟩

/-- A body that calls other functions. -/
def Body.redirect (κ : FuncId → FuncId) (b : Body) : Body :=
  { b with seqs := b.seqs.map (Seq.redirect κ) }

def Body.relink (κ : FuncId → FuncId) (τ : TagId → TagId) (b : Body) : Body :=
  { b with seqs := b.seqs.map (Seq.relink κ τ) }

def Function.relink (κ : FuncId → FuncId) (τ : TagId → TagId) (f : Function) : Function :=
  { f with kind :=
      match f.kind with
      | .defined b => .defined (b.relink κ τ)
      | .imported entry => .imported entry }

namespace Program

variable {κ : FuncId → FuncId} {τ : TagId → TagId} {ρ : Renumbering}

/-- Code with new numbers, without alternatives that hold nothing, and variables of the same types.
-/
structure Recoded (ρ : Renumbering) (code code' : Wire.FuncBody) : Prop where
  instrs : ∀ is, Wire.decodeInstrs code.code = .ok is →
    Wire.decodeInstrs code'.code = .ok ((Wire.dropEmptyElse is).map (·.renumber ρ)) ∧
      Wire.encodeInstrs ((Wire.dropEmptyElse is).map (·.renumber ρ)) = .ok code'.code
  types : ∀ scope scope' declared, declaredTypes scope code.locals = .ok declared →
    declaredTypes scope' code'.locals = .ok declared ∧
      code'.locals = (runs declared).map localEntry

/-- Code with new numbers is read as the same body with new links. -/
theorem ReadsBody.recode {p q : Program} {func : FuncId} {start : Nat} {code code' : Wire.FuncBody}
    {declared : List ValType} {b : Body} (h : p.ReadsBody func start code declared b)
    (hcode : Recoded ρ code code')
    (hmaps : ∀ vars, (p.scope func vars).Maps (q.scope func vars) κ τ ρ)
    (htype : q.typeOf func = p.typeOf func)
    (hparams : q.params (p.typeOf func) = p.params (p.typeOf func)) :
    q.ReadsBody func start code' declared (b.relink κ τ) := by
  obtain ⟨is, his, hrun⟩ := Body.seqsOfCode_eq_ok_iff.mp h.seqs
  constructor
  · exact (hcode.types _ _ _ h.types).1
  · rw [htype, hparams]
    exact h.params
  · rw [htype, hparams]
    exact h.vars
  · rw [htype, Body.seqsOfCode_eq_ok_iff]
    exact ⟨_, (hcode.instrs is his).1,
      Reading.run_relink (hmaps _) (Reading.run_dropEmptyElse hrun)⟩
  · exact h.entry

theorem foldNumbered_sim {α : Type} {f : Program → Nat → α → Except Fault Program}
    {R : Program → Program → Prop} {as as' : List α} (hlength : as'.length = as.length)
    (hstep : ∀ i a a' u u' v, as[i]? = some a → as'[i]? = some a' → R u u' → f u i a = .ok v →
      ∃ v', f u' i a' = .ok v' ∧ R v v') {p p' r : Program} (hp : R p p')
    (h : foldNumbered f p as = .ok r) : ∃ r', foldNumbered f p' as' = .ok r' ∧ R r r' := by
  -- the rest of both lists is read from `start` on
  have hrest : ∀ (rest rest' : List α) start p p', (∀ i, rest[i]? = as[start + i]?) →
      (∀ i, rest'[i]? = as'[start + i]?) → rest'.length = rest.length → R p p' →
      (rest.zipIdx start).foldlM (fun p e => f p e.2 e.1) p = .ok r →
      ∃ r', (rest'.zipIdx start).foldlM (fun p e => f p e.2 e.1) p' = .ok r' ∧ R r r' := by
    intro rest
    induction rest with
    | nil =>
      intro rest' start p p' _ _ hlength hp h
      cases h
      rw [length_eq_zero_iff.mp hlength]
      exact ⟨p', rfl, hp⟩
    | cons a rest ih =>
      intro rest' start p p' hget hget' hlength hp h
      cases rest' with
      | nil => cases hlength
      | cons a' rest' =>
        have hnext : ∀ {as rest : List α} {a : α}, (∀ i, (a :: rest)[i]? = as[start + i]?) →
            ∀ i, rest[i]? = as[start + 1 + i]? := by
          intro as rest a hget i
          rw [Nat.add_assoc, Nat.add_comm 1, ← hget, getElem?_cons_succ]
        obtain ⟨q, hq, h⟩ := of_bind h
        obtain ⟨q', hq', hqq'⟩ := hstep start a a' p p' q (hget 0).symm (hget' 0).symm hp hq
        obtain ⟨r', hr', hrr'⟩ := ih rest' (start + 1) q q' (hnext hget) (hnext hget')
          (Nat.succ.inj hlength) hqq' h
        exact ⟨r', bind_eq_ok_iff.mpr ⟨q', hq', hr'⟩, hrr'⟩
  exact hrest as as' 0 p p' (by simp) (by simp) hlength hp h

section Rebuilt

variable {κ : FuncId → FuncId → FuncId} {ρ : FuncId → Renumbering}

/-- A program in the place of another: what it has for itself, then the functions of the other with
new links and `more` functions, and the variables of the other. -/
def rebuilt (q : Program) (κ : FuncId → FuncId → FuncId) (τ : TagId → TagId)
    (more : List Function) (u : Program) : Program :=
  { q with
    funcs := u.funcs.mapIdx (fun id f => f.relink (κ id) τ) ++ more
    locals := u.locals }

theorem rebuilt_setBody (q : Program) (more : List Function) (u : Program) {func : FuncId}
    (hfunc : func < u.funcs.length) (b : Body) :
    (rebuilt q κ τ more u).setBody func (b.relink (κ func) τ) =
      rebuilt q κ τ more (u.setBody func b) := by
  have hfuncs : (u.funcs.mapIdx (fun id f => f.relink (κ id) τ) ++ more).modify func
        (fun f => { f with kind := .defined (b.relink (κ func) τ) }) =
      (u.funcs.modify func fun f => { f with kind := .defined b }).mapIdx
        (fun id f => f.relink (κ id) τ) ++ more := by
    refine ext_getElem? fun k => ?_
    simp only [getElem?_modify, getElem?_append, length_mapIdx, length_modify, getElem?_mapIdx]
    by_cases hk : k < u.funcs.length
    · simp only [if_pos hk]
      by_cases hfk : func = k
      · subst hfk
        cases u.funcs[func]? <;> simp [Function.relink]
      · simp [hfk]
    · have hne : func ≠ k := fun heq => hk (heq ▸ hfunc)
      simp [if_neg hk, hne]
  simp only [setBody, rebuilt, hfuncs]

/-- The bodies of `s` can be read in place of it in `q`, with new numbers. -/
structure Hosts (s q : Program) (κ : FuncId → FuncId → FuncId) (τ : TagId → TagId)
    (ρ : FuncId → Renumbering) (more : List Function) : Prop where
  maps : ∀ func vars, func < s.funcs.length → (s.scope func vars).Maps
    ⟨func, vars, q.types.length, s.funcs.length + more.length, q.tables.length, q.tags.length⟩
    (κ func) τ (ρ func)
  params : ∀ func, func < s.funcs.length → q.params (s.typeOf func) = s.params (s.typeOf func)

/-- One body with new numbers is read in place of the old one. -/
theorem takeBody_rebuilt {s u v q : Program} {more : List Function} (h : s.Hosts q κ τ ρ more)
    (hu : Bodied s u) {func : FuncId} (hfunc : func < s.funcs.length) {code code' : Wire.FuncBody}
    (hcode : Recoded (ρ func) code code') (hv : u.takeBody func code = .ok v) :
    Bodied s v ∧ (rebuilt q κ τ more u).takeBody func code' = .ok (rebuilt q κ τ more v) := by
  obtain ⟨declared, b, hread, rfl⟩ := takeBody_eq_ok_iff.mp hv
  refine ⟨hu.setBody _ _ _, ?_⟩
  have hlt : func < u.funcs.length := hu.length ▸ hfunc
  have htype : (rebuilt q κ τ more u).typeOf func = u.typeOf func := by
    unfold typeOf rebuilt
    rw [getElem?_append_left (by simpa using hlt), getElem?_mapIdx, Option.map_map]
    rfl
  have hparams : (rebuilt q κ τ more u).params (u.typeOf func) = u.params (u.typeOf func) := by
    rw [hu.typeOf, hu.rest]
    exact h.params func hfunc
  have hagain : (rebuilt q κ τ more u).ReadsBody func (rebuilt q κ τ more u).locals.length code'
      declared (b.relink (κ func) τ) := by
    refine hread.recode hcode (fun vars => ?_) htype hparams
    have hscope : u.scope func vars = s.scope func vars := by
      rw [scope, scope, hu.length, hu.rest]
    have hscope' : (rebuilt q κ τ more u).scope func vars = ⟨func, vars, q.types.length,
        s.funcs.length + more.length, q.tables.length, q.tags.length⟩ := by
      simp [scope, rebuilt, hu.length]
    rw [hscope, hscope']
    exact h.maps func vars hfunc
  rw [takeBody_eq_ok_iff]
  refine ⟨declared, b.relink (κ func) τ, hagain, ?_⟩
  rw [htype, hparams]
  exact (rebuilt_setBody q more
    { u with locals := u.locals ++ u.params (u.typeOf func) ++ declared } hlt b).symm

theorem takeBodies_rebuilt {s p q : Program} {more : List Function} (h : s.Hosts q κ τ ρ more)
    {first : Nat} {codes codes' : List Wire.FuncBody}
    (hbound : first + codes.length ≤ s.funcs.length) (hlength : codes'.length = codes.length)
    (hcodes : ∀ i code code', codes[i]? = some code → codes'[i]? = some code' →
      Recoded (ρ (first + i)) code code')
    (hp : foldNumbered (fun p i code => p.takeBody (first + i) code) s codes = .ok p) :
    foldNumbered (fun p i code => p.takeBody (first + i) code) (rebuilt q κ τ more s) codes' =
      .ok (rebuilt q κ τ more p) := by
  have hsim := foldNumbered_sim (f := fun p i code => p.takeBody (first + i) code)
    (R := fun u u' => Bodied s u ∧ u' = rebuilt q κ τ more u) hlength ?_ ⟨⟨rfl, rfl⟩, rfl⟩ hp
  · obtain ⟨_, hagain, -, rfl⟩ := hsim
    exact hagain
  · rintro i code code' u _ v hi hi' ⟨hu, rfl⟩ hv
    have hlt : first + i < s.funcs.length := by
      have := lt_of_getElem? hi
      omega
    obtain ⟨hbodied, hagain⟩ := takeBody_rebuilt h hu hlt (hcodes i code code' hi hi') hv
    exact ⟨_, hagain, hbodied, rfl⟩

end Rebuilt

variable {scope : Scope} {entries : List Wire.LocalEntry}

theorem declaredTypes_known {declared : List ValType}
    (h : declaredTypes scope entries = .ok declared) : ∀ v ∈ declared, v.IsKnown := by
  obtain ⟨groups, hgroups, h⟩ := of_bind h
  cases h
  intro v hv
  obtain ⟨group, hgroup, hv⟩ := mem_flatten.mp hv
  obtain ⟨e, -, he⟩ := forall₂_mem_right (mapM_eq_ok_iff.mp hgroups) hgroup
  obtain ⟨type, htype, he⟩ := of_bind he
  cases he
  obtain rfl := eq_of_mem_replicate hv
  have hread := Scope.restate_eq_ok htype
  split at hread
  next => exact ValType.ofExt_known hread
  next => exact ValType.ofCode_known hread

theorem declaredTypes_congr {scope' : Scope} {declared : List ValType}
    (h : declaredTypes scope entries = .ok declared) :
    declaredTypes scope' entries = .ok declared := by
  obtain ⟨groups, hgroups, h⟩ := of_bind h
  refine bind_eq_ok_iff.mpr ⟨groups, ?_, h⟩
  refine mapM_eq_ok_iff.mpr ((mapM_eq_ok_iff.mp hgroups).imp fun e group he => ?_)
  obtain ⟨type, htype, he⟩ := of_bind he
  exact bind_eq_ok_iff.mpr ⟨type, Scope.restate_ok (Scope.restate_eq_ok htype), he⟩

section Emitted

variable {p p' : Program} {func : FuncId} {start : Nat} {code : Wire.FuncBody}
variable {declared : List ValType} {b : Body}

theorem ReadsBody.declaredTypesOf (h : p.ReadsBody func start code declared b)
    (hlocals : ∀ (j : Nat) (v : ValType),
      (p.params (p.typeOf func) ++ declared)[j]? = some v → p'.locals[start + j]? = some v)
    {w : Emitting} (hparams : w.body.params = b.params) (hvars : w.body.locals = b.locals) :
    p'.declaredTypesOf w = .ok declared := by
  have hnodup : (b.params ++ b.locals).Nodup := by
    rw [h.vars]
    exact nodup_range'
  have hdeclared : w.body.declared = b.locals := by
    rw [Body.declared, Body.slots_eq (by rwa [hparams, hvars]), hparams, hvars, drop_left]
  have hrange : b.locals = List.range' (start + (p.params (p.typeOf func)).length) declared.length := by
    have hdrop := congrArg (List.drop b.params.length) h.vars
    rw [drop_left, h.params, drop_range'] at hdrop
    simpa using hdrop
  unfold Program.declaredTypesOf
  rw [hdeclared, hrange, mapM_eq_ok_iff, forall₂_iff_get]
  refine ⟨by simp, fun j hj hj' => ?_⟩
  have hget := hlocals ((p.params (p.typeOf func)).length + j) declared[j] <| by
    rw [getElem?_append_right (Nat.le_add_right _ _), Nat.add_sub_cancel_left]
    exact getElem?_eq_getElem hj'
  rw [← Nat.add_assoc] at hget
  simp [hget]

/-- What is written for a body that was read, with other functions called and other numbers, is its
code with these numbers. -/
theorem ReadsBody.recoded (h : p.ReadsBody func start code declared b)
    (hlocals : ∀ (j : Nat) (v : ValType),
      (p.params (p.typeOf func) ++ declared)[j]? = some v → p'.locals[start + j]? = some v)
    {numbering : Numbering} {b' : Body} (hb' : b' = b.redirect κ)
    (hfollows : Emitting.Follows ⟨numbering, p'.types, func, b', b'.slots⟩
      (p.scope func (b.params ++ b.locals)) κ ρ)
    (hlength : b.locals.length < 2 ^ 32) {u v : List ValType} {out : Wire.FuncBody}
    (hout : (p'.emitBody numbering func b').run u = .ok (out, v)) :
    v = u ∧ Recoded ρ code out := by
  obtain ⟨is, his, hrun⟩ := Body.seqsOfCode_eq_ok_iff.mp h.seqs
  obtain ⟨ws, hws, hgives⟩ := Emitting.code_of_read hfollows hrun (by rw [hb']; rfl)
    (by rw [hb']; exact h.entry)
  obtain ⟨types, _, htypes, hcode, hencode, hlocalsOut⟩ := emitBody_eq_ok hout
  cases (hgives u).symm.trans hcode
  have hdeclared : p'.declaredTypesOf ⟨numbering, p'.types, func, b', b'.slots⟩ = .ok declared :=
    h.declaredTypesOf hlocals (by rw [hb']; rfl) (by rw [hb']; rfl)
  cases hdeclared.symm.trans htypes
  refine ⟨rfl, fun found hfound => ?_, fun scope scope' found hfound => ?_⟩
  · cases his.symm.trans hfound
    have hspelled : ∀ i ∈ (Wire.dropEmptyElse is).map (·.renumber ρ), i.Spelled := by
      intro i hi
      obtain ⟨j, hj, rfl⟩ := mem_map.mp hi
      exact (Wire.decodeInstrs_spelled his j (Wire.mem_of_mem_dropEmptyElse hj)).renumber ρ
    obtain ⟨w, hw, hdecode⟩ := Wire.decodeInstrs_encodeInstrs hspelled
    rw [← hws] at hencode
    cases hw.symm.trans hencode
    exact ⟨hdecode, hencode⟩
  · cases (declaredTypes_congr h.types).symm.trans hfound
    have hcount : declared.length = b.locals.length := by
      have := congrArg List.length h.vars
      simp only [length_append, length_range', h.params] at this
      omega
    rw [hlocalsOut]
    exact ⟨declaredTypes_runs (declaredTypes_known h.types) (hcount ▸ hlength), rfl⟩

/-- A function that was read can be written if its code can. -/
theorem ReadFrom.emitFunction_gives {m : Wire.Module} {q s : Program} {tables : List Table}
    {exports : List Export} (h : ReadFrom m p q s tables exports) {i : Nat}
    (hcode : m.code[i]? = some code) : ∃ f scope declared is,
      p.funcs[q.funcs.length + i]? = some f ∧ declaredTypes scope code.locals = .ok declared ∧
      Wire.decodeInstrs code.code = .ok is ∧ ∀ w,
        Wire.encodeInstrs ((Wire.dropEmptyElse is).map (·.renumber .same)) = .ok w →
        Emit.Gives (p.emitFunction p.numbering (q.funcs.length + i))
          (UInt32.ofNat f.type, ⟨(runs declared).map localEntry, w⟩) := by
  obtain ⟨start, declared, b, f, hf, hkind, hread, hvars⟩ := h.body hcode
  have hnodup : (b.params ++ b.locals).Nodup := by
    rw [hread.vars]
    exact nodup_range'
  have hsame : b.seqs = b.seqs.map (Seq.redirect id) := by
    rw [Seq.redirect_id, map_id]
  obtain ⟨is, his, hrun⟩ := Body.seqsOfCode_eq_ok_iff.mp hread.seqs
  obtain ⟨ws, hws, hgives⟩ := Emitting.code_of_read (h.ordered.follows _ hnodup) hrun hsame hread.entry
  refine ⟨f, _, declared, is, hf, hread.types, his, fun w hw => ?_⟩
  rw [hws] at hw
  have hlt := h.funcTypes f (mem_of_getElem? hf)
  have hbody : f.body? = some b := by simp [Function.body?, hkind]
  unfold emitFunction
  simp only [hf, Option.map_some, Option.getD_some, if_neg (Nat.not_le.mpr hlt), Option.bind_some,
    hbody]
  refine Emit.Gives.bind_pure (Emit.Gives.bind (.lift (hread.declaredTypesOf hvars rfl rfl)) ?_)
  exact hgives.bind (Emit.Gives.bind (.liftAbort hw) (.done _))

end Emitted

theorem emitFunction_coded {p : Program} {numbering : Numbering} {id : FuncId} {u v : List ValType}
    {out : UInt32 × Wire.FuncBody} (h : (p.emitFunction numbering id).run u = .ok (out, v)) :
    ∀ l ∈ out.2.locals, l.Coded := by
  unfold emitFunction at h
  dsimp only at h
  split at h
  next => cases h
  next =>
    obtain ⟨body, u', hemit, h⟩ := run_bind_eq_ok_iff.mp h
    cases h
    obtain ⟨types, -, -, -, -, hlocals⟩ := emitBody_eq_ok hemit
    intro l hl
    rw [hlocals] at hl
    obtain ⟨r, -, rfl⟩ := mem_map.mp hl
    exact localEntry_coded r

section Written

variable {p : Program} {out : Wire.Module} {bodies : List (UInt32 × Wire.FuncBody)}
  {extra : List ValType} {names : List Wire.Custom} (h : p.Emits out bodies extra names)

include h

theorem Emits.types_coded : ∀ t ∈ out.types, t.Coded := by
  intro t ht
  rw [h.types] at ht
  obtain ⟨sig, -, rfl⟩ := mem_map.mp ht
  exact sig.toWire_coded

theorem Emits.code_coded : ∀ b ∈ out.code, ∀ l ∈ b.locals, l.Coded := by
  intro code hcode
  rw [h.code] at hcode
  obtain ⟨body, hbody, rfl⟩ := mem_map.mp hcode
  obtain ⟨id, -, u, v, hrun⟩ := forall₂_mem_right (run_mapM_eq_ok h.run) hbody
  exact emitFunction_coded hrun

end Written

end Program

end HostCatch
