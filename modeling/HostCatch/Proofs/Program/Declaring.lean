import HostCatch.Proofs.Program.Refusing

namespace HostCatch

open List

namespace Body

/-- The variables that are accessed, in the order in which the accesses are met. -/
def accessed (visits : List Visit) : List LocalId :=
  visits.filterMap fun v => v.instr.localVar?

/-- Variables are those that are accessed and no parameters, each once, in the order of their first
accesses. -/
structure FirstUses (params accesses used : List LocalId) : Prop where
  mem_iff : ∀ var, var ∈ used ↔ var ∈ accesses ∧ var ∉ params
  order : used.Pairwise fun a b => accesses.idxOf a < accesses.idxOf b

namespace FirstUses

variable {params accesses used : List LocalId} {var : LocalId}

theorem nodup (h : FirstUses params accesses used) (hparams : params.Nodup) :
    (params ++ used).Nodup := by
  refine nodup_append.mpr ⟨hparams, h.order.imp fun hlt heq => ?_, fun a ha b hb heq => ?_⟩
  · exact Nat.ne_of_lt hlt (heq ▸ rfl)
  · exact ((h.mem_iff b).mp hb).2 (heq ▸ ha)

theorem order_append (h : FirstUses params accesses used) :
    used.Pairwise fun a b => (accesses ++ [var]).idxOf a < (accesses ++ [var]).idxOf b := by
  refine h.order.imp_of_mem fun {a b} ha hb hlt => ?_
  rwa [idxOf_append_of_mem ((h.mem_iff a).mp ha).1, idxOf_append_of_mem ((h.mem_iff b).mp hb).1]

theorem known (h : FirstUses params accesses used) (hvar : var ∈ params ∨ var ∈ used) :
    FirstUses params (accesses ++ [var]) used where
  mem_iff a := by
    rw [mem_append, mem_singleton]
    refine ⟨fun ha => ⟨.inl ((h.mem_iff a).mp ha).1, ((h.mem_iff a).mp ha).2⟩, ?_⟩
    rintro ⟨hmem | rfl, hparam⟩
    · exact (h.mem_iff a).mpr ⟨hmem, hparam⟩
    · exact hvar.resolve_left hparam
  order := h.order_append

theorem fresh (h : FirstUses params accesses used) (hparam : var ∉ params) (hused : var ∉ used) :
    FirstUses params (accesses ++ [var]) (used ++ [var]) where
  mem_iff a := by
    rw [mem_append, mem_append, mem_singleton, h.mem_iff, or_and_right]
    refine or_congr_right ⟨fun heq => ⟨heq, heq ▸ hparam⟩, And.left⟩
  order := by
    have hnone : var ∉ accesses := fun hmem => hused ((h.mem_iff var).mpr ⟨hmem, hparam⟩)
    refine pairwise_append.mpr ⟨h.order_append, pairwise_singleton _ _, fun a ha b hb => ?_⟩
    have hmem := ((h.mem_iff a).mp ha).1
    rw [mem_singleton.mp hb, idxOf_append_of_mem hmem, idxOf_append_of_notMem hnone,
      idxOf_cons_self]
    exact idxOf_lt_length_of_mem hmem

end FirstUses

theorem walkSeq_with (b : Body) (params locals : List LocalId) (bound : Nat) (id : SeqId) :
    walkSeq { b with params, locals } bound id = b.walkSeq bound id := by
  induction bound generalizing id with
  | zero => rfl
  | succ bound ih =>
    have hsame : walkSeq { b with params, locals } bound = b.walkSeq bound := funext ih
    rw [walkSeq, walkSeq, hsame]
    rfl

/-- The variables come in the order of their first uses. -/
theorem usedLocals_firstUses (params : List LocalId) (visits : List Visit) :
    FirstUses params (accessed visits) (usedLocals params visits) := by
  induction visits using List.reverseRecOn with
  | nil => exact ⟨fun var => by simp [usedLocals, accessed], .nil⟩
  | append_singleton visits v ih =>
    cases hvar : v.instr.localVar? with
    | none =>
      have haccessed : accessed (visits ++ [v]) = accessed visits := by simp [accessed, hvar]
      have hused : usedLocals params (visits ++ [v]) = usedLocals params visits := by
        simp [usedLocals, hvar]
      rwa [haccessed, hused]
    | some var =>
      have haccessed : accessed (visits ++ [v]) = accessed visits ++ [var] := by simp [accessed, hvar]
      have hused : usedLocals params (visits ++ [v]) =
          if var ∈ params ∨ var ∈ usedLocals params visits then usedLocals params visits
          else usedLocals params visits ++ [var] := by
        rw [usedLocals, foldl_append, foldl_cons, foldl_nil, hvar]
        rfl
      rw [haccessed, hused]
      split
      next hknown => exact ih.known hknown
      next hfresh => exact ih.fresh (fun h => hfresh (.inl h)) fun h => hfresh (.inr h)

end Body

/-- An access to a variable is written with the position of the variable among some. -/
def Instr.Accesses (vars : List LocalId) (i : Instr) (x : Wire.Instr) : Prop :=
  ∀ var, i.localVar? = some var → ∃ k, x = ⟨i.opcode, .localVar k⟩ ∧ vars[k.toNat]? = some var

/-- The variables of a run, one by one. -/
def Wire.LocalEntry.expand (e : Wire.LocalEntry) : List Wire.LocalEntry :=
  List.replicate e.count.toNat { e with count := 1 }

theorem Program.expand_runs {types : List ValType} (h : types.length < 2 ^ 32) :
    ((runs types).map localEntry).flatMap Wire.LocalEntry.expand =
      types.map fun type => localEntry (type, 1) := by
  have heach : ∀ r ∈ runs types, (localEntry r).expand =
      (List.replicate r.2 r.1).map fun type => localEntry (type, 1) := by
    intro r hr
    have hcount : (localEntry r).count.toNat = r.2 :=
      Reader.toNat_ofNat_size (Nat.lt_of_le_of_lt (count_le_of_mem_runs hr) h)
    rw [Wire.LocalEntry.expand, hcount, map_replicate]
    rfl
  rw [flatMap_map, flatMap_congr heach, ← map_flatMap, flatMap_runs]

namespace Emitting

variable {w : Emitting}

theorem getElem?_of_slot (hnodup : w.slots.Nodup) (hsize : w.slots.length ≤ 2 ^ 32) {var : LocalId}
    {k : UInt32} (h : w.slot var = .ok k) : w.slots[k.toNat]? = some var := by
  have hmem : var ∈ w.slots := by
    unfold slot at h
    split at h
    next n hfind =>
      obtain ⟨hlt, hget, -⟩ := findIdx?_eq_some_iff_getElem.mp hfind
      exact mem_reverse.mp (of_decide_eq_true hget ▸ getElem_mem hlt)
    next => cases h
  obtain ⟨n, hn⟩ := getElem?_of_mem hmem
  have hlt := lt_of_getElem? hn
  cases (slot_eq hnodup hn).symm.trans h
  rwa [Reader.toNat_ofNat_size (Nat.lt_of_lt_of_le hlt hsize)]

theorem Begins.accesses {types : List Signature} {i : Instr} {x : Wire.Instr}
    (h : w.Begins types i x) (hnodup : w.slots.Nodup) (hsize : w.slots.length ≤ 2 ^ 32) :
    i.Accesses w.slots x := by
  intro var hvar
  cases h with
  | plain h =>
    cases h with
    | @localGet _ k hk | @localSet _ k hk | @localTee _ k hk =>
      cases hvar
      exact ⟨k, rfl, getElem?_of_slot hnodup hsize hk⟩
    | _ => cases hvar
  | construct hchild =>
    cases i with
    | localGet | localSet | localTee => cases hchild
    | _ => cases hvar

end Emitting

namespace Program

/-- A module holds the code of a function, with an access to a variable for every one that is met, and
its declarations give the types of the variables one by one. -/
def WritesVars (q : Program) (id : FuncId) (visits : List Visit) (params used : List LocalId)
    (out : Wire.Module) : Prop :=
  ∃ k : Nat, ∃ body : Wire.FuncBody, ∃ ws types,
    q.definedFuncs[k]? = some id ∧ out.code[k]? = some body ∧
    Wire.encodeInstrs (ws ++ [Emitting.close]) = .ok body.code ∧
    Lists (Instr.Accesses (params ++ used)) (visits.map Visit.instr) ws ∧
    List.Forall₂ (fun var type => q.locals[var]? = some type) used types ∧
    (used.length < 2 ^ 32 →
      body.locals.flatMap Wire.LocalEntry.expand = types.map fun type => localEntry (type, 1))

/-- A function can fail to be written, but not because of its variables, and it is written with them
in their order. -/
structure Declares (q : Program) (id : FuncId) (visits : List Visit) (params used : List LocalId) :
    Prop where
  resolves : ∀ u d, (q.emitFunction q.numbering id).run u = .error (.fault (.diagnosed d)) →
    d.kind ≠ .notFound ∧ (d.kind = .outOfBounds → d.path ≠ Diagnostic.numbered "func" id ["local"])
  writes : ∀ out, q.toModule = .ok out → q.WritesVars id visits params used out

variable {p q : Program} {b : Body} {params used : List LocalId} {visits : List Visit} {id : FuncId}

section Declared

variable {f : Function} (hf : q.funcs[id]? = some f) (hkind : f.kind = .defined b)
  (hslots : b.slots = b.params ++ used) (hwalk : b.walk = .ok visits)

include hf hkind hslots hwalk

/-- Writing a function whose accesses are to its parameters and variables fails for other reasons
only. -/
theorem emitFunction_resolves (hvars : ∀ var ∈ used, var < q.locals.length)
    (haccessed : ∀ var ∈ Body.accessed visits, var ∈ b.slots) {u : List ValType} {d : Diagnostic}
    (h : (q.emitFunction q.numbering id).run u = .error (.fault (.diagnosed d))) :
    d.kind ≠ .notFound ∧
      (d.kind = .outOfBounds → d.path ≠ Diagnostic.numbered "func" id ["local"]) := by
  have hbody : f.body? = some b := by simp [Function.body?, hkind]
  simp only [emitFunction, hf, Option.map_some, Option.getD_some, Option.bind_some, hbody] at h
  have hends : Emit.Turns (fun e => ∀ d, e = .fault (.diagnosed d) → d.kind ≠ .notFound ∧
      (d.kind = .outOfBounds → d.path ≠ Diagnostic.numbered "func" id ["local"]))
      (q.emitBody q.numbering id b) fun _ => b.Enclosed := by
    refine emitBody_ends hwalk (fun var hvar hnone => ?_) fun v hv labels e _ hrefuses => ?_
    · rw [Body.declared, hslots, drop_left] at hvar
      exact absurd (hvars var hvar) (Nat.not_lt.mpr (getElem?_eq_none_iff.mp hnone))
    · cases hrefuses with
      | label _ _ hd =>
        rintro _ ⟨⟩
        simp [hd]
      | var hvar hnone => exact absurd (haccessed _ (mem_filterMap.mpr ⟨v, hv, hvar⟩)) hnone
      | operand _ hkind hpath =>
        rintro _ ⟨⟩
        exact ⟨hkind, fun _ => hpath⟩
      | entity =>
        rintro _ ⟨⟩
  split at h
  next =>
    cases h
    refine ⟨by simp [Diagnostic.outOfBounds], fun _ hpath => ?_⟩
    simp only [Diagnostic.outOfBounds, Diagnostic.numbered, List.cons.injEq, true_and,
      map_cons] at hpath
    exact absurd hpath.1 (by decide)
  next =>
    have hwhole := hends.bind (Q := fun _ => True) (f := fun body => pure (UInt32.ofNat f.type, body))
      fun _ _ => .pure trivial
    exact (hwhole u).failure _ h d rfl

/-- Variables are written with the types and places they are declared with. -/
theorem toModule_writesVars (hnodup : b.slots.Nodup) (hsize : b.slots.length ≤ 2 ^ 32)
    {out : Wire.Module} (hout : q.toModule = .ok out) : q.WritesVars id visits b.params used out := by
  rw [WritesVars, ← hslots]
  obtain ⟨bodies, extra, names, hemits⟩ := toModule_eq_ok_iff.mp hout
  have hdefined : id ∈ q.definedFuncs :=
    mem_positions.mpr ⟨f, hf, by simp [Function.isImported, Function.import?, hkind]⟩
  obtain ⟨k, hk⟩ := getElem?_of_mem hdefined
  obtain ⟨body, hbody, f', b', hf', hkind', -, -, hwrites⟩ := forall₂_getElem? hemits.functions hk
  cases hf.symm.trans hf'
  cases hkind.symm.trans hkind'
  obtain ⟨_, ws, hwalk', hencode, hlists⟩ := hwrites.lists
  cases hwalk.symm.trans hwalk'
  obtain ⟨types, hfound, hlocals⟩ := hwrites.vars
  rw [Body.declared, hslots, drop_left] at hfound
  refine ⟨k, body.2, ws, types, hk, ?_, hencode, hlists.imp fun i x h => h.accesses hnodup hsize,
    hfound, fun hcount => ?_⟩
  · rw [hemits.code, getElem?_map, hbody]
    rfl
  · rw [hlocals]
    exact expand_runs (hfound.length_eq ▸ hcount)

end Declared

/-- A complete body is finished with the variables that it accesses declared behind the parameters, in
the order of their first accesses. However the program goes on, no access of the function fails for the
lack of a variable, and it is written with every variable at the index of its position and with its
type. Variables have numbers of 32 bits. -/
theorem define_declares (name : Bytes) (type : TypeId) (hlocals : b.locals = [])
    (hwalk : b.walk = .ok visits) (hparams : params.Nodup)
    (hallocated : ∀ var, var ∈ params ∨ var ∈ Body.accessed visits → var < p.locals.length)
    (hids : p.locals.length ≤ 2 ^ 32) :
    ∃ used p', p.define name type params b = .ok (p.funcs.length, p') ∧
      Body.FirstUses params (Body.accessed visits) used ∧
      ∀ q : Program, q.funcs[p.funcs.length]? = p'.funcs[p.funcs.length]? → p'.locals <+: q.locals →
        q.Declares p.funcs.length visits params used := by
  have huses := Body.usedLocals_firstUses params visits
  set used := Body.usedLocals params visits
  have hfinish : b.finish params = .ok { b with params, locals := used } := by
    rw [Body.finish, hwalk, hlocals]
    rfl
  refine ⟨used, _, bind_eq_ok_iff.mpr ⟨_, hfinish, rfl⟩, huses, fun q hf hkept => ?_⟩
  have hnodup := huses.nodup hparams
  have hslots := Body.slots_eq (b := { b with params, locals := used }) hnodup
  have hget : q.funcs[p.funcs.length]? =
      some ⟨name, type, .defined { b with params, locals := used }⟩ :=
    hf.trans getElem?_concat_length
  have hused : ∀ var ∈ used, var < p.locals.length := fun var hvar =>
    hallocated var (.inr ((huses.mem_iff var).mp hvar).1)
  have hsize : (params ++ used).length ≤ 2 ^ 32 := by
    have hrange : params ++ used ⊆ List.range p.locals.length := fun var hvar =>
      mem_range.mpr ((mem_append.mp hvar).elim (fun h => hallocated var (.inl h)) (hused var))
    have hle := (hnodup.subperm hrange).length_le
    rw [length_range] at hle
    exact Nat.le_trans hle hids
  have hbuilt : Body.walk { b with params, locals := used } = .ok visits := by
    rwa [Body.walk, Body.walkSeq_with]
  refine ⟨fun u d h => ?_, fun out hout => ?_⟩
  · refine emitFunction_resolves hget rfl hslots hbuilt (fun var hvar => ?_) (fun var hvar => ?_) h
    · exact Nat.lt_of_lt_of_le (hused var hvar) hkept.length_le
    · rw [hslots, mem_append, huses.mem_iff]
      exact or_iff_not_imp_left.mpr fun hparam => ⟨hvar, hparam⟩
  · rw [← hslots] at hnodup hsize
    exact toModule_writesVars hget rfl hslots hbuilt hnodup hsize hout

/-- A body whose accesses are spread over nested code, one of them where nothing leads. -/
def scattered : Body where
  seqs := [⟨.multi 0, [.localGet 3, .block 1, .localSet 0, .localTee 2]⟩,
    ⟨.empty, [.localGet 4, .localSet 3, .localGet 1]⟩, ⟨.empty, [.localGet 5]⟩]

def sixLocals : Program where
  types := [⟨[.f32, .i32], []⟩]
  locals := [.i32, .f32, .f32, .i64, .i64, .f64]

theorem scattered_declares : ∃ visits used p' out, scattered.walk = .ok visits ∧
    Body.accessed visits = [3, 4, 3, 1, 0, 2] ∧
    sixLocals.define [] 0 [2, 0] scattered = .ok (0, p') ∧
    Body.FirstUses [2, 0] [3, 4, 3, 1, 0, 2] used ∧ p'.Declares 0 visits [2, 0] used ∧
    p'.toModule = .ok out ∧
    out.code.map Wire.FuncBody.locals = [[⟨2, 0x7E, none⟩, ⟨1, 0x7D, none⟩]] := by
  have hwalk : (scattered.walk.toOption.any fun visits =>
      Body.accessed visits = [3, 4, 3, 1, 0, 2]) = true := by decide +kernel
  have hwritten : ((sixLocals.define [] 0 [2, 0] scattered).toOption.any fun r =>
      r.2.toModule.toOption.any fun out => out.code.map Wire.FuncBody.locals =
        [[⟨2, 0x7E, none⟩, ⟨1, 0x7D, none⟩]]) = true := by decide +kernel
  obtain ⟨visits, hvisits, haccessed⟩ := any_toOption_iff.mp hwalk
  have haccessed := of_decide_eq_true haccessed
  have hallocated : ∀ var, var ∈ [2, 0] ∨ var ∈ Body.accessed visits →
      var < sixLocals.locals.length := by
    have hall : ∀ var ∈ [2, 0] ++ [3, 4, 3, 1, 0, 2], var < sixLocals.locals.length := by decide
    rw [haccessed]
    exact fun var hvar => hall var (mem_append.mpr hvar)
  obtain ⟨used, p', hdefine, huses, hall⟩ := define_declares [] 0 rfl hvisits
    (show [2, 0].Nodup by decide) hallocated (by decide)
  rw [hdefine] at hwritten
  obtain ⟨out, hout, hlocals⟩ := (any_toOption_iff (x := p'.toModule)).mp hwritten
  exact ⟨visits, used, p', out, hvisits, haccessed, hdefine, haccessed ▸ huses,
    hall p' rfl (prefix_refl _), hout, of_decide_eq_true hlocals⟩

end Program

end HostCatch
