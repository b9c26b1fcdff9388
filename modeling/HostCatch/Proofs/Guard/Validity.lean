import HostCatch.Proofs.Guard.Catching
import HostCatch.Proofs.Program.Typing

namespace HostCatch

open List

/-- The type of the default of a type: no default is a reference that is not null. -/
def ValType.ofDefault : ValType → ValType
  | .ref type => .ref ⟨true, type.heap⟩
  | v => v

variable {heap : HeapType → HeapType → Prop} {p : Program}

theorem ValType.ofDefault_sub_iff {v : ValType} (h : p.ValidType v) :
    Sub heap v.ofDefault v ↔ v.isDefaultable = true := by
  cases v with
  | ref type =>
    obtain ⟨nullable, target⟩ := type
    constructor
    · intro hsub
      cases hsub with
      | same => rfl
      | ref hnull => exact hnull rfl
    · rintro ⟨⟩
      exact .same _
  | unknown => cases h
  | _ => exact ⟨fun _ => rfl, fun _ => .same _⟩

variable {b : Body} {vars : List LocalId} {labels : Labels} {results : List ValType}

theorem defaultValue_assigned {v : ValType} {i : Instr} (h : defaultValue v = .ok i) :
    i.assigned = [] := by
  cases v <;> cases h <;> rfl

theorem defaultValue_plainType? {v : ValType} {i : Instr} (h : defaultValue v = .ok i) :
    (p.ValidType v ∧ p.plainType? b vars i = some ⟨[], [v.ofDefault]⟩) ∨
      (¬ p.ValidType v ∧ ∀ ts us, ¬ Typed heap p b results vars labels i ts us) := by
  cases v with
  | ref type =>
    cases h
    by_cases hvalid : p.ValidHeap type.heap
    · exact .inl ⟨hvalid, if_pos hvalid⟩
    · refine .inr ⟨hvalid, fun ts us htyped => ?_⟩
      cases htyped with
      | plain hplain => simp [Program.plainType?, hvalid] at hplain
  | i32 | i64 | f32 | f64 =>
    cases h
    exact .inl ⟨trivial, rfl⟩
  | v128 | unknown => cases h

theorem CodeTyped.defaults_iff {types out : List ValType} {defaults : List Instr}
    (h : Forall₂ (fun v i => defaultValue v = .ok i) types defaults) (stack : List ValType) :
    CodeTyped heap (Typed heap p b results) vars labels defaults stack out ↔
      (∀ v ∈ types, p.ValidType v) ∧ SubEach heap (stack ++ types.map ValType.ofDefault) out := by
  induction h generalizing stack with
  | nil => simp [nil_iff]
  | @cons v i types defaults hfirst _ ih =>
    rcases defaultValue_plainType? hfirst with ⟨hvalid, htype⟩ | ⟨hinvalid, hnone⟩
    · have hpush : CodeTyped heap (Typed heap p b results) vars labels (i :: defaults) (stack ++ [])
          out ↔ CodeTyped heap (Typed heap p b results) (i.assigned ++ vars) labels defaults
            (stack ++ [v.ofDefault]) out := plain_iff stack htype
      rw [append_nil, defaultValue_assigned hfirst, nil_append] at hpush
      simp [hpush, ih, hvalid]
    · constructor
      · intro htyped
        obtain ⟨below, ts, us, -, hi, -⟩ := cons_iff.mp htyped
        exact absurd hi (hnone ts us)
      · rintro ⟨hall, -⟩
        exact absurd (hall v mem_cons_self) hinvalid

theorem CodeTyped.defaults_self_iff {types : List ValType} {defaults : List Instr}
    (h : types.mapM defaultValue = .ok defaults) :
    CodeTyped heap (Typed heap p b results) vars labels defaults [] types ↔
      ∀ v ∈ types, p.ValidType v ∧ v.isDefaultable = true := by
  rw [defaults_iff (mapM_eq_ok_iff.mp h), nil_append, SubEach, forall₂_map_left_iff,
    forall₂_same, ← forall₂_and]
  refine forall₂_congr fun v _ => and_congr_right fun hvalid => ?_
  exact ValType.ofDefault_sub_iff hvalid

/-- What a recipe refers to is there in a program, with the types that it relies on. -/
structure Recipe.Placed (r : Recipe) (p : Program) (sig : Signature) (t : Table) : Prop
    extends r.Fitting p sig where
  vars : r.params.map (p.locals[·]?) = sig.params.map some
  exn : p.locals[r.exn]? = some .externRef
  slot : p.locals[r.slot]? = some .i32
  table : p.tables[r.handles.table]? = some t
  elem : t.elem = .host

namespace Recipe.Placed

variable {r : Recipe} {sig : Signature} {t : Table} {defaults : List Instr} {seqs : List Seq}

theorem tableSet_iff (h : r.Placed p sig t) {is : List Instr} (out : List ValType) :
    CodeTyped heap (Typed heap p b results) vars labels (.tableSet r.handles.table :: is)
        [.i32, .externRef] out ↔
      t.indexType = .i32 ∧ CodeTyped heap (Typed heap p b results) vars labels is [] out := by
  have htype : p.plainType? b vars (.tableSet r.handles.table) =
      some ⟨[t.indexType, .externRef], []⟩ := by
    simp [Program.plainType?, h.table, h.elem, ValType.externRef]
  by_cases hindex : t.indexType = .i32
  · rw [hindex] at htype
    have hset : CodeTyped heap (Typed heap p b results) vars labels (.tableSet r.handles.table :: is)
        [.i32, .externRef] out ↔ CodeTyped heap (Typed heap p b results) vars labels is [] out :=
      CodeTyped.plain_iff [] htype
    rw [hset, and_iff_right hindex]
  · refine iff_of_false (fun htyped => hindex ?_) fun hboth => hindex hboth.1
    obtain ⟨below, ts, us, hstack, hset, -⟩ := CodeTyped.cons_iff.mp htyped
    obtain ⟨rfl, -⟩ := (Typed.plain_iff htype).mp hset
    have hbelow : below = [] := by
      have hlength := hstack.length_eq
      simp only [length_append, length_cons, length_nil] at hlength
      exact length_eq_zero_iff.mp (by omega)
    subst hbelow
    cases hstack with
    | cons hplace =>
      generalize t.indexType = place at hplace
      cases hplace
      rfl

section Code

variable (h : r.Placed p sig t) (hlocals : b.locals = [r.exn, r.slot])

include h hlocals

/-- The handler is valid where its table has small places and each result has a default. -/
theorem handler_iff (hdefaults : r.results.mapM defaultValue = .ok defaults) :
    CodeTyped heap (Typed heap p b results) vars labels (r.keeping ++ defaults) [.externRef]
        r.results ↔
      t.indexType = .i32 ∧ ∀ v ∈ r.results, p.ValidType v ∧ v.isDefaultable = true := by
  have hset : p.plainType? b vars (.localSet r.exn) = some ⟨[.externRef], []⟩ := by
    simp [Program.plainType?, hlocals, h.exn]
  have halloc (vars : List LocalId) : p.plainType? b vars (.call r.handles.alloc) =
      some ⟨[], [.i32]⟩ := h.alloc
  have htee (vars : List LocalId) : p.plainType? b vars (.localTee r.slot) =
      some ⟨[.i32], [.i32]⟩ := by
    simp [Program.plainType?, hlocals, h.slot]
  have hexn : p.plainType? b (r.slot :: r.exn :: vars) (.localGet r.exn) =
      some ⟨[], [.externRef]⟩ := by
    simp [Program.plainType?, h.exn]
  have hslot : p.plainType? b (r.slot :: r.exn :: vars) (.localGet r.slot) = some ⟨[], [.i32]⟩ := by
    simp [Program.plainType?, h.slot]
  have hstore (vars : List LocalId) : p.plainType? b vars (.call r.handles.store) =
      some ⟨[.i32], []⟩ := h.store
  calc CodeTyped heap (Typed heap p b results) vars labels (r.keeping ++ defaults) [.externRef]
        r.results
    _ ↔ CodeTyped heap (Typed heap p b results) (r.exn :: vars) labels
        (.call r.handles.alloc :: .localTee r.slot :: .localGet r.exn ::
          .tableSet r.handles.table :: .localGet r.slot :: .call r.handles.store :: defaults)
        [] r.results := CodeTyped.plain_iff [] hset
    _ ↔ CodeTyped heap (Typed heap p b results) (r.exn :: vars) labels
        (.localTee r.slot :: .localGet r.exn :: .tableSet r.handles.table :: .localGet r.slot ::
          .call r.handles.store :: defaults) [.i32] r.results := CodeTyped.plain_iff [] (halloc _)
    _ ↔ CodeTyped heap (Typed heap p b results) (r.slot :: r.exn :: vars) labels
        (.localGet r.exn :: .tableSet r.handles.table :: .localGet r.slot ::
          .call r.handles.store :: defaults) [.i32] r.results := CodeTyped.plain_iff [] (htee _)
    _ ↔ CodeTyped heap (Typed heap p b results) (r.slot :: r.exn :: vars) labels
        (.tableSet r.handles.table :: .localGet r.slot :: .call r.handles.store :: defaults)
        [.i32, .externRef] r.results := CodeTyped.plain_iff [.i32] hexn
    _ ↔ t.indexType = .i32 ∧ CodeTyped heap (Typed heap p b results)
        (r.slot :: r.exn :: vars) labels
        (.localGet r.slot :: .call r.handles.store :: defaults) [] r.results := h.tableSet_iff _
    _ ↔ t.indexType = .i32 ∧ CodeTyped heap (Typed heap p b results)
        (r.slot :: r.exn :: vars) labels (.call r.handles.store :: defaults) [.i32] r.results :=
      and_congr_right fun _ => CodeTyped.plain_iff [] hslot
    _ ↔ t.indexType = .i32 ∧ CodeTyped heap (Typed heap p b results)
        (r.slot :: r.exn :: vars) labels defaults [] r.results :=
      and_congr_right fun _ => CodeTyped.plain_iff [] (hstore _)
    _ ↔ t.indexType = .i32 ∧ ∀ v ∈ r.results, p.ValidType v ∧ v.isDefaultable = true :=
      and_congr_right fun _ => CodeTyped.defaults_self_iff hdefaults

omit hlocals in
theorem forwarding_iff (hvars : ∀ var ∈ r.params, var ∈ vars) {is : List Instr}
    (out : List ValType) :
    CodeTyped heap (Typed heap p b results) vars labels (r.forwarding ++ is) [] out ↔
      CodeTyped heap (Typed heap p b results) vars labels is r.results out := by
  have hread : Forall₂ (fun var t => var ∈ vars ∧ p.locals[var]? = some t) r.params
      sig.params := by
    have hlookup : Forall₂ (fun var t => p.locals[var]? = some t) r.params sig.params := by
      have hsame := forall₂_eq_eq_eq ▸ h.vars
      rwa [forall₂_map_left_iff, forall₂_map_right_iff] at hsame
    exact (forall₂_and_left _ _).mpr ⟨hvars, hlookup⟩
  have hcall : CodeTyped heap (Typed heap p b results) vars labels (.call r.callee :: is) sig.params
      out ↔ CodeTyped heap (Typed heap p b results) vars labels is sig.results out :=
    CodeTyped.plain_iff [] h.callee
  rw [Recipe.forwarding, append_assoc, CodeTyped.gets_iff hread, h.results]
  exact hcall

end Code

section Modern

variable {type : TypeId} (h : r.Placed p sig t) (hb : b.seqs = r.modernSeqs type defaults)

include h hb

theorem block_iff (hvars : ∀ var ∈ r.params, var ∈ vars) {ts us : List ValType} :
    Typed heap p b r.results vars labels (.block 1) ts us ↔ ts = [] ∧ us = [.externRef] := by
  obtain ⟨-, hseq₁, hseq₂⟩ := Env.modern_seqs hb
  constructor
  · intro htyped
    cases htyped with
    | plain hplain => cases hplain
    | block hseq _ hsig =>
      cases hseq₁.symm.trans hseq
      cases hsig
      exact ⟨rfl, rfl⟩
  · rintro ⟨rfl, rfl⟩
    have hret : Typed heap p b r.results vars ((2, []) :: (1, [.externRef]) :: labels) .ret
      ([] ++ r.results) [] := .ret
    have htry : Typed heap p b r.results vars ((1, [.externRef]) :: labels)
        (.tryTable 2 [⟨0x00, r.tag, 1⟩]) [] [] := by
      refine .tryTable hseq₂ trivial rfl ?_ fun c hc => ?_
      · exact (h.forwarding_iff hvars []).mpr (.cons [] hret (.nil _ _ _))
      · cases mem_singleton.mp hc
        exact ⟨rfl, _, _, h.tag, mem_cons_self, .refl _⟩
    exact .block hseq₁ (.inl rfl) rfl (.cons [] htry (.cons [] .unreachable (.nil _ _ _)))

theorem modern_iff (hlocals : b.locals = [r.exn, r.slot]) (hvars : ∀ var ∈ r.params, var ∈ vars)
    (hdefaults : r.results.mapM defaultValue = .ok defaults) :
    CodeTyped heap (Typed heap p b r.results) vars labels (.block 1 :: (r.keeping ++ defaults)) []
        r.results ↔
      t.indexType = .i32 ∧ ∀ v ∈ r.results, p.ValidType v ∧ v.isDefaultable = true := by
  have hblock : CodeTyped heap (Typed heap p b r.results) vars labels
      (.block 1 :: (r.keeping ++ defaults)) [] r.results ↔
    CodeTyped heap (Typed heap p b r.results) vars labels (r.keeping ++ defaults) [.externRef]
      r.results := CodeTyped.fixed_iff [] (h.block_iff hb hvars)
  rw [hblock, h.handler_iff hlocals hdefaults]

end Modern

section Legacy

variable {type handlerType : TypeId} {tried : BlockType} (h : r.Placed p sig t)
  (hb : b.seqs = r.legacySeqs type handlerType tried defaults)
  (htried : tried.Describes p.types r.results)

include h hb htried

theorem legacy_iff (hlocals : b.locals = [r.exn, r.slot]) (hvars : ∀ var ∈ r.params, var ∈ vars)
    (hdefaults : r.results.mapM defaultValue = .ok defaults) :
    CodeTyped heap (Typed heap p b r.results) vars labels [.tryCatch 2 [⟨some r.tag, 1⟩] none] []
        r.results ↔
      t.indexType = .i32 ∧ ∀ v ∈ r.results, p.ValidType v ∧ v.isDefaultable = true := by
  obtain ⟨-, hseq₁, hseq₂⟩ := Env.legacy_seqs hb
  have hhanded : p.handed? ⟨some r.tag, 1⟩ = some [.externRef] := by
    simp [Program.handed?, h.tag]
  constructor
  · intro htyped
    obtain ⟨below, ts, us, -, hi, -⟩ := CodeTyped.cons_iff.mp htyped
    cases hi with
    | plain hplain => cases hplain
    | tryCatch hseq _ hsig _ _ hhandlers =>
      cases hseq₂.symm.trans hseq
      cases htried.signature.symm.trans hsig
      exact (h.handler_iff hlocals hdefaults).mp
        (hhandlers _ (mem_singleton_self _) _ _ hseq₁ hhanded)
  · intro hvalid
    have hblock : p.ValidBlock tried := by
      cases tried with
      | single result =>
        have hresult : r.results = [result] := htried
        exact (hvalid.2 result (by simp [hresult])).1
      | _ => trivial
    refine .cons [] (.tryCatch hseq₂ hblock htried.signature ?_ ?_ ?_) (.nil _ _ _)
    · rw [← append_nil r.forwarding]
      exact (h.forwarding_iff hvars r.results).mpr (.nil _ _ _)
    · intro handler hmem
      cases mem_singleton.mp hmem
      simp [hseq₁, hhanded]
    · intro handler hmem s taken hs htaken
      cases mem_singleton.mp hmem
      cases hseq₁.symm.trans hs
      cases hhanded.symm.trans htaken
      exact (h.handler_iff hlocals hdefaults).mpr hvalid

end Legacy

/-- Whichever way a wrapper is made, it is valid just if the table has small places and each result
has a default. -/
theorem bodyTyped_iff (h : r.Placed p sig t) {type : TypeId} (htype : p.types[type]? = some sig)
    (hdefaults : r.results.mapM defaultValue = .ok defaults)
    (hcode : seqs = r.modernSeqs type defaults ∨ ∃ handlerType tried,
      seqs = r.legacySeqs type handlerType tried defaults ∧ tried.Describes p.types r.results) :
    p.BodyTyped heap type ⟨r.params, [r.exn, r.slot], seqs, 0⟩ ↔
      t.indexType = .i32 ∧ ∀ v ∈ sig.results, p.ValidType v ∧ v.isDefaultable = true := by
  let b : Body := ⟨r.params, [r.exn, r.slot], seqs, 0⟩
  have hvars : ∀ var ∈ r.params, var ∈ p.initialised b := fun var hvar =>
    mem_append_left _ hvar
  have hlocals : ∀ var ∈ b.locals, ∃ t, p.locals[var]? = some t ∧ p.ValidType t := by
    intro var hvar
    rcases mem_pair.mp hvar with rfl | rfl
    · exact ⟨_, h.exn, .inl rfl⟩
    · exact ⟨_, h.slot, trivial⟩
  have hentry : ∃ s, seqs[0]? = some s ∧ ∀ labels,
      (CodeTyped heap (Typed heap p b r.results) (p.initialised b) labels s.instrs [] r.results ↔
        t.indexType = .i32 ∧ ∀ v ∈ r.results, p.ValidType v ∧ v.isDefaultable = true) := by
    rcases hcode with hseqs | ⟨handlerType, tried, hseqs, htried⟩
    · exact ⟨_, (Env.modern_seqs (b := b) hseqs).1, fun labels =>
        h.modern_iff hseqs rfl hvars hdefaults⟩
    · exact ⟨_, (Env.legacy_seqs (b := b) hseqs).1, fun labels =>
        h.legacy_iff hseqs htried rfl hvars hdefaults⟩
  obtain ⟨s, hs, hcodeTyped⟩ := hentry
  rw [← h.results]
  constructor
  · intro htyped
    obtain ⟨sig', s', htype', -, hs', hcode'⟩ := htyped.code
    cases htype.symm.trans htype'
    cases hs.symm.trans hs'
    rw [← h.results] at hcode'
    exact (hcodeTyped _).mp hcode'
  · intro hvalid
    refine ⟨hlocals, sig, s, htype, h.vars, hs, ?_⟩
    rw [← h.results]
    exact (hcodeTyped _).mpr hvalid

end Recipe.Placed

theorem Function.Retargeted.type_eq {t : Targets} {id : FuncId} {f g : Function}
    (h : Function.Retargeted t id f g) : g.type = f.type := by
  cases h <;> rfl

namespace Program

section Wraps

variable {strategy : Strategy} {tag : TagId} {handles : Handles} {existing targets : Targets}
variable {ids : List FuncId} {q : Program}

theorem Wraps.made_crafted (h : Wraps strategy tag handles existing ids p targets q)
    (hids : ∀ id ∈ ids, p.Wrappable id) {id w : FuncId} (hw : (id, w) ∈ targets)
    (hnone : existing.get? id = none) :
    ∃ f sig g r defaults seqs, p.funcs[id]? = some f ∧ p.types[f.type]? = some sig ∧
      q.funcs[w]? = some g ∧ g.type = f.type ∧
      Crafted tag handles q.types q.locals id g r defaults seqs ∧
      r.params.map (q.locals[·]?) = sig.params.map some := by
  rcases h.each hw with hold | ⟨-, now, f, sig, defaults, types, seqs, hmade⟩
  · rw [hnone] at hold
    cases hold
  · obtain ⟨hf, hsig⟩ := hmade.source (hids id (h.keys ▸ mem_map_of_mem hw))
    exact ⟨f, sig, _, _, defaults, seqs, hf, hsig, hmade.found, rfl, hmade.crafted, hmade.params⟩

end Wraps

section Stages

variable {strategy : Strategy} {flagged : List FuncId} {tag : TagId} {handles : Handles}
variable {existing wrappers : Targets} {q r s : Program}

section Staged

variable (st : Stages strategy p flagged tag handles existing wrappers q r s)

include st

theorem Stages.funcSignature? (hp : p.Linked) {func : FuncId} {sig : Signature}
    (h : p.funcSignature? func = some sig) : s.funcSignature? func = some sig := by
  obtain ⟨f, hf, htype⟩ := Option.bind_eq_some_iff.mp h
  obtain ⟨g, hg, hfg⟩ := st.function hf
  refine Option.bind_eq_some_iff.mpr ⟨g, hg, ?_⟩
  rw [hfg.type_eq]
  exact getElem?_of_isPrefix (st.extends hp).types htype

theorem Stages.wrappable (hp : p.WellFormed) : ∀ id ∈ flagged, q.Wrappable id := by
  intro id hid
  obtain ⟨f, hf, -⟩ := st.imported id hid
  have hlt := hp.funcTypes f (mem_of_getElem? hf)
  rcases (hostTag_eq_ok hp.linked st.tagged).2 with rfl | ⟨types, type, rfl⟩
  · exact ⟨f, hf, hlt⟩
  · exact ⟨f, hf, Nat.lt_of_lt_of_le hlt (by simp)⟩

/-- What is made for an import, in the program that the pass leaves. Types are only added, so the import
and its wrapper have one signature throughout. -/
theorem Stages.crafted (hp : p.WellFormed)
    (hwraps : Wraps strategy tag handles existing flagged q wrappers r) {id w : FuncId}
    (hw : (id, w) ∈ wrappers) (hnone : existing.get? id = none) :
    ∃ f sig g recipe defaults seqs, p.funcs[id]? = some f ∧ p.types[f.type]? = some sig ∧
      s.types[g.type]? = some sig ∧ s.funcs[w]? = some g ∧ g.type = f.type ∧
      Crafted tag handles s.types s.locals id g recipe defaults seqs ∧
      recipe.params.map (s.locals[·]?) = sig.params.map some := by
  obtain ⟨f, sig, g, recipe, defaults, seqs, hf, hsig, hg, htype, hcrafted, hparams⟩ :=
    hwraps.made_crafted (st.wrappable hp) hw hnone
  rw [st.funcs_tagged] at hf
  obtain ⟨funcs, hs, -⟩ := st.retargeted
  have hstypes : s.types = r.types := by rw [hs]
  have hslocals : s.locals = r.locals := by rw [hs]
  have hsame : s.types[f.type]? = some sig := by
    rw [hstypes]
    exact getElem?_of_isPrefix st.gains.types hsig
  have hfound : p.types[f.type]? = some sig := by
    have hlt := hp.funcTypes f (mem_of_getElem? hf)
    have hkept := getElem?_of_isPrefix (st.extends hp.linked).types (getElem?_eq_getElem hlt)
    rw [getElem?_eq_getElem hlt, ← hkept, hsame]
  rw [← hstypes, ← hslocals] at hcrafted
  rw [← hslocals] at hparams
  exact ⟨f, sig, g, recipe, defaults, seqs, hf, hfound, htype ▸ hsame,
    st.wrapper_kept (Targets.hasTarget_of_mem hw) hg, htype, hcrafted, hparams⟩

end Staged

end Stages

theorem checkHandles_eq {md : Metadata} {flagged : List FuncId} {handles : Handles}
    (h : p.checkHandles md flagged = .ok handles) :
    handles = ⟨md.table.getD 0, md.alloc.getD 0, md.store.getD 0⟩ := by
  obtain ⟨_, -, h⟩ := of_bind h
  exact (pure_eq_ok_iff.mp h).symm

theorem IsHostTag.signature {tag : TagId} (h : p.IsHostTag tag) :
    p.tagSignature? tag = some ⟨[.externRef], []⟩ := by
  obtain ⟨t, entry, ht, -, -, htype⟩ := h
  exact Option.bind_eq_some_iff.mpr ⟨t, ht, htype⟩

/-- The wrapper that the pass makes for an import has all that its code relies on. -/
theorem guardImports_placed (hp : p.WellFormed) {md : Metadata} {adapters : List Adapter}
    {strategy : Strategy} {o : Outcome}
    (h : p.guardImports (some md) adapters strategy = .ok o) {t : Table}
    (htable : md.table.bind (p.tables[·]?) = some t) (helem : t.elem = .host)
    (halloc : md.alloc.bind p.funcSignature? = some ⟨[], [.i32]⟩)
    (hstore : md.store.bind p.funcSignature? = some ⟨[.i32], []⟩) {id w : FuncId}
    (hw : (id, w) ∈ o.wrappers) (hnew : id ∉ o.reused) :
    ∃ f sig g r tag handles defaults seqs, p.funcs[id]? = some f ∧ p.types[f.type]? = some sig ∧
      o.program.types[g.type]? = some sig ∧ o.program.funcs[w]? = some g ∧ g.type = f.type ∧
      Crafted tag handles o.program.types o.program.locals id g r defaults seqs ∧
      r.Placed o.program sig t := by
  by_cases hflagged : md.flagged adapters = []
  · simp only [guardImports, hflagged, ↓reduceIte, pure_eq_ok_iff] at h
    cases h
    cases hw
  obtain ⟨handles, tag, q, existing, wrappers, r, count, s, hhandles, htag, hexisting, hwrap,
    hcalls, rfl⟩ := guardImports_eq_ok hflagged h
  have st := stages_of_ok hp hflagged hhandles htag hexisting hwrap hcalls
  have hid : id ∈ md.flagged adapters := by
    rw [← st.keys]
    exact mem_map_of_mem hw
  have hnone : existing.get? id = none := by
    simpa [hid] using hnew
  obtain ⟨f, sig, g, recipe, defaults, seqs, hf, hfound, hsame, hg, htype, hcrafted, hparams⟩ :=
    st.crafted hp (wrapAll_eq_ok_iff.mp hwrap) hw hnone
  obtain ⟨sig', hsig', hresults, hlength⟩ := hcrafted.type
  cases hsame.symm.trans hsig'
  obtain ⟨table, hmdTable, ht⟩ := Option.bind_eq_some_iff.mp htable
  obtain ⟨alloc, hmdAlloc, halloc⟩ := Option.bind_eq_some_iff.mp halloc
  obtain ⟨store, hmdStore, hstore⟩ := Option.bind_eq_some_iff.mp hstore
  have hgiven : recipe.handles = ⟨table, alloc, store⟩ := by
    rw [hcrafted.handles, checkHandles_eq hhandles, hmdTable, hmdAlloc, hmdStore]
    rfl
  have hcallee : s.funcSignature? id = some sig :=
    st.funcSignature? hp.linked (Option.bind_eq_some_iff.mpr ⟨f, hf, hfound⟩)
  exact ⟨f, sig, g, recipe, tag, handles, defaults, seqs, hf, hfound, hsame, hg, htype, hcrafted, {
      callee := hcrafted.callee ▸ hcallee
      params := hlength
      results := hresults
      alloc := hgiven ▸ st.funcSignature? hp.linked halloc
      store := hgiven ▸ st.funcSignature? hp.linked hstore
      tag := hcrafted.tag ▸ (st.hostTag hp.linked).1.signature
      vars := hparams
      exn := hcrafted.exn
      slot := hcrafted.slot
      table := by rw [hgiven, (st.extends hp.linked).tables, ht]
      elem := helem }⟩

/-- Where the pass wraps an import, with a table of host values, a function that finds a place in it
and one that is told the place, the wrapper is valid for the type of the import just if the table has
small places and every result of the import has a default: a result may be a number or a reference
that may be null. -/
theorem guardImports_typed_iff (hp : p.WellFormed) {md : Metadata} {adapters : List Adapter}
    {strategy : Strategy} {o : Outcome}
    (h : p.guardImports (some md) adapters strategy = .ok o) {t : Table}
    (htable : md.table.bind (p.tables[·]?) = some t) (helem : t.elem = .host)
    (halloc : md.alloc.bind p.funcSignature? = some ⟨[], [.i32]⟩)
    (hstore : md.store.bind p.funcSignature? = some ⟨[.i32], []⟩) {id w : FuncId}
    (hw : (id, w) ∈ o.wrappers) (hnew : id ∉ o.reused) (heap : HeapType → HeapType → Prop) :
    ∃ f sig g b, p.funcs[id]? = some f ∧ p.types[f.type]? = some sig ∧
      o.program.funcs[w]? = some g ∧ g.type = f.type ∧ g.kind = .defined b ∧
      (o.program.BodyTyped heap g.type b ↔ t.indexType = .i32 ∧
        ∀ v ∈ sig.results, o.program.ValidType v ∧ v.isDefaultable = true) := by
  obtain ⟨f, sig, g, r, tag, handles, defaults, seqs, hf, hsig, hsame, hg, htype, hcrafted,
    hplaced⟩ := guardImports_placed hp h htable helem halloc hstore hw hnew
  exact ⟨f, sig, g, _, hf, hsig, hg, htype, hcrafted.kind,
    hplaced.bodyTyped_iff hsame hcrafted.values hcrafted.code⟩

/-- An import that gives a number and a reference to something of the host. -/
def lending (nullable : Bool) : Program where
  types := [⟨[.i64], [.f64, .ref ⟨nullable, HeapType.host⟩]⟩, ⟨[], [.i32]⟩, ⟨[.i32], []⟩]
  funcs := [⟨[], 0, .imported 0⟩, ⟨[], 1, .imported 1⟩, ⟨[], 2, .imported 2⟩]
  tables := [⟨.host, tableLimits 2 none, [], none⟩]
  imports := [⟨"host", "lend", .func 0⟩, ⟨"host", "alloc", .func 1⟩, ⟨"host", "store", .func 2⟩]

def lendingMetadata : Metadata :=
  { catching := [7], table := some 0, alloc := some 1, store := some 2 }

theorem lending_wellFormed (nullable : Bool) : (lending nullable).WellFormed where
  funcTypes := by simp [lending]
  signatures := by simp [lending, ValType.IsKnown]
  locals := by simp [lending]
  linked := by
    refine ⟨?_, ?_, by simp [lending], ?_, ?_, ?_⟩
    · rintro (_ | _ | _ | id) f entry hf hkind <;> cases hf <;> cases hkind <;> exact ⟨_, rfl, rfl⟩
    · rintro (_ | id) t entry ht hentry <;> cases ht
      cases hentry
    · rintro (_ | _ | _ | entry) i id hi htarget <;> cases hi <;> cases htarget <;>
        exact ⟨_, rfl, rfl⟩
    all_goals rintro (_ | _ | _ | entry) i id hi htarget <;> cases hi <;> cases htarget
  bodies := by
    intro f hf b hb
    simp only [lending, mem_cons, not_mem_nil, or_false] at hf
    rcases hf with rfl | rfl | rfl <;> cases hb

theorem lending_guarded (nullable : Bool) :
    ∃ o, (lending nullable).guardImports (some lendingMetadata) [⟨0, 0, 7⟩] .modern = .ok o ∧
      (0, 3) ∈ o.wrappers ∧ 0 ∉ o.reused := by
  have hcheck : ((lending nullable).guardImports (some lendingMetadata) [⟨0, 0, 7⟩]
      .modern).toOption.any (fun o => (0, 3) ∈ o.wrappers && 0 ∉ o.reused) = true := by
    cases nullable <;> decide +kernel
  obtain ⟨o, hrun, hfound⟩ := any_toOption_iff.mp hcheck
  exact ⟨o, hrun, by simpa using hfound⟩

theorem lending_typed : ∃ o g b,
    (lending true).guardImports (some lendingMetadata) [⟨0, 0, 7⟩] .modern = .ok o ∧
      o.program.funcs[3]? = some g ∧ g.kind = .defined b ∧ o.program.BodyTyped Eq g.type b := by
  obtain ⟨o, hrun, hw, hnew⟩ := lending_guarded true
  obtain ⟨f, sig, g, b, hf, hsig, hg, -, hkind, htyped⟩ :=
    guardImports_typed_iff (lending_wellFormed true) hrun rfl rfl rfl rfl hw hnew Eq
  cases hf
  cases hsig
  refine ⟨o, g, b, hrun, hg, hkind, htyped.mpr ⟨rfl, ?_⟩⟩
  simp [ValidType, ValidHeap, ValType.isDefaultable, HeapType.isNamed, HeapType.host]

/-- A reference that may not be null has no default, but an import that gives one is wrapped all the
same. The wrapper is not valid even where every heap type is below every other. -/
theorem lending_untyped : ∃ o g b,
    (lending false).guardImports (some lendingMetadata) [⟨0, 0, 7⟩] .modern = .ok o ∧
      o.program.funcs[3]? = some g ∧ g.kind = .defined b ∧
      ¬ o.program.BodyTyped (fun _ _ => True) g.type b := by
  obtain ⟨o, hrun, hw, hnew⟩ := lending_guarded false
  obtain ⟨f, sig, g, r, tag, handles, defaults, seqs, hf, hsig, hsame, hg, -, hcrafted, hplaced⟩ :=
    guardImports_placed (lending_wellFormed false) hrun rfl rfl rfl rfl hw hnew
  cases hf
  cases hsig
  refine ⟨o, g, _, hrun, hg, hcrafted.kind, fun htyped => ?_⟩
  have hall := ((hplaced.bodyTyped_iff hsame hcrafted.values hcrafted.code).mp htyped).2
  have hdefault := (hall (.ref ⟨false, HeapType.host⟩) (by simp)).2
  cases hdefault

end Program

end HostCatch
