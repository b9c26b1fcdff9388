import HostCatch.Guard.Wrapper
import HostCatch.Proofs.Guard.Retarget

namespace HostCatch

open List

namespace Build

/-- The body with instructions at the end of a sequence. -/
def extended (b : Body) (seq : SeqId) (is : List Instr) : Body :=
  { b with seqs := b.seqs.modify seq fun s => { s with instrs := s.instrs ++ is } }

theorem emit_run (seq : SeqId) (i : Instr) (b : Body) :
    (emit seq i).run b = .ok ((), extended b seq [i]) := rfl

theorem extended_nil (b : Body) (seq : SeqId) : extended b seq [] = b := by
  have hseqs : (b.seqs.modify seq fun s => { s with instrs := s.instrs ++ [] }) = b.seqs := by
    simp only [append_nil]
    exact modify_id seq b.seqs
  simp only [extended, hseqs]

theorem extended_extended (b : Body) (seq : SeqId) (is js : List Instr) :
    extended (extended b seq is) seq js = extended b seq (is ++ js) := by
  simp only [extended, Body.mk.injEq, true_and, and_true]
  apply ext_getElem?
  intro n
  by_cases hn : seq = n
  · subst hn
    cases hs : b.seqs[seq]? with
    | none => simp [hs]
    | some s => simp [hs]
  · simp [hn]

theorem emitAll_run (seq : SeqId) (is : List Instr) (b : Body) :
    (emitAll seq is).run b = .ok ((), extended b seq is) := by
  induction is generalizing b with
  | nil =>
    rw [extended_nil]
    rfl
  | cons i is ih =>
    have hstep : (emitAll seq (i :: is)).run b = (emitAll seq is).run (extended b seq [i]) := rfl
    rw [hstep, ih, extended_extended]
    rfl

end Build

@[simp] theorem Body.start_entry (type : TypeId) : (Body.start type).entry = 0 := rfl

namespace Recipe

/-- The code of the handler before the defaults. -/
def keeping (r : Recipe) : List Instr :=
  [.localSet r.exn, .call r.handles.alloc, .localTee r.slot, .localGet r.exn,
    .tableSet r.handles.table, .localGet r.slot, .call r.handles.store]

/-- The code that is guarded: the import is called with the parameters. -/
def forwarding (r : Recipe) : List Instr :=
  r.params.map .localGet ++ [.call r.callee]

def modernSeqs (r : Recipe) (type : TypeId) (defaults : List Instr) : List Seq :=
  [⟨.multi type, .block 1 :: (r.keeping ++ defaults)⟩,
    ⟨.single .externRef, [.tryTable 2 [⟨0x00, r.tag, 1⟩], .unreachable]⟩,
    ⟨.empty, r.forwarding ++ [.ret]⟩]

def legacySeqs (r : Recipe) (type handlerType : TypeId) (tried : BlockType)
    (defaults : List Instr) : List Seq :=
  [⟨.multi type, [.tryCatch 2 [⟨some r.tag, 1⟩] none]⟩,
    ⟨.multi handlerType, r.keeping ++ defaults⟩,
    ⟨tried, r.forwarding⟩]

theorem defaults_run (types : List ValType) (seq : SeqId) (b : Body) :
    (types.forM fun type => do Build.emit seq (← defaultValue type) : Build Unit).run b =
      types.mapM defaultValue >>= fun defaults => .ok ((), Build.extended b seq defaults) := by
  induction types generalizing b with
  | nil => exact congrArg (fun b => Except.ok ((), b)) (Build.extended_nil b seq).symm
  | cons type types ih =>
    have hfirst : ((type :: types).forM fun type => do
        Build.emit seq (← defaultValue type) : Build Unit).run b =
          ((liftM (defaultValue type) >>= Build.emit seq) >>= fun _ => types.forM fun type => do
            Build.emit seq (← defaultValue type) : Build Unit).run b := rfl
    rw [hfirst, mapM_cons]
    cases defaultValue type with
    | error e => rfl
    | ok i =>
      refine (ih (Build.extended b seq [i])).trans ?_
      simp only [ok_bind, bind_assoc, pure_bind, Build.extended_extended, singleton_append]

theorem handler_run (r : Recipe) (seq : SeqId) (b : Body) : (r.handler seq).run b =
    r.results.mapM defaultValue >>= fun defaults =>
      .ok ((), Build.extended b seq (r.keeping ++ defaults)) := by
  have hkeep : (r.handler seq).run b = (r.results.forM fun type => do
      Build.emit seq (← defaultValue type) : Build Unit).run (Build.extended b seq r.keeping) := by
    rw [handler, StateT.run_bind, Build.emitAll_run]
    rfl
  simp only [hkeep, defaults_run, Build.extended_extended]

theorem forward_run (r : Recipe) (seq : SeqId) (b : Body) :
    (r.forward seq).run b = .ok ((), Build.extended b seq r.forwarding) :=
  Build.emitAll_run seq _ b

theorem modern_run (r : Recipe) (type : TypeId) : (r.modern 0).run (Body.start type) =
    r.results.mapM defaultValue >>= fun defaults =>
      .ok ((), { seqs := r.modernSeqs type defaults }) := by
  let b₀ := (Body.start type).addSeq (.single .externRef)
  let b₁ := Build.extended (b₀.addSeq .empty) 2 (r.forwarding ++ [.ret])
  let b₂ := Build.extended b₁ 1 [.tryTable 2 [⟨0x00, r.tag, 1⟩]]
  let b₃ := Build.extended b₂ 1 [.unreachable]
  let b₄ := Build.extended b₃ 0 [.block 1]
  have hinner : (do r.forward 2; Build.emit 2 .ret : Build Unit).run (b₀.addSeq .empty) =
      .ok ((), b₁) := by
    refine run_bind_eq_ok_iff.mpr ⟨(), _, forward_run r 2 _, ?_⟩
    rw [Build.emit_run, Build.extended_extended]
  have hcaught : (do
      Build.tryTable 1 .empty [⟨0x00, r.tag, 1⟩] fun inner => do
        r.forward inner
        Build.emit inner .ret
      Build.emit 1 .unreachable : Build Unit).run b₀ = .ok ((), b₃) := by
    refine run_bind_eq_ok_iff.mpr ⟨(), b₂, ?_, rfl⟩
    refine run_bind_eq_ok_iff.mpr ⟨2, b₀.addSeq .empty, rfl, ?_⟩
    exact run_bind_eq_ok_iff.mpr ⟨(), b₁, hinner, rfl⟩
  have hblock : (Build.block 0 (.single .externRef) fun caught => do
      Build.tryTable caught .empty [⟨0x00, r.tag, caught⟩] fun inner => do
        r.forward inner
        Build.emit inner .ret
      Build.emit caught .unreachable).run (Body.start type) = .ok ((), b₄) := by
    refine run_bind_eq_ok_iff.mpr ⟨1, b₀, rfl, ?_⟩
    exact run_bind_eq_ok_iff.mpr ⟨(), b₃, hcaught, rfl⟩
  rw [modern, StateT.run_bind, hblock, ok_bind, handler_run]
  simp [b₄, b₃, b₂, b₁, b₀, Build.extended, Body.addSeq, Body.start, modernSeqs]

theorem legacy_run (r : Recipe) (type handlerType : TypeId) (tried : BlockType) :
    (r.legacy 0 handlerType tried).run (Body.start type) =
      r.results.mapM defaultValue >>= fun defaults =>
        .ok ((), { seqs := r.legacySeqs type handlerType tried defaults }) := by
  let b₀ := (Body.start type).addSeq (.multi handlerType)
  have hhandler : (r.legacy 0 handlerType tried).run (Body.start type) =
      (r.handler 1).run b₀ >>= fun built =>
        (Build.tryCatch 0 tried [⟨some r.tag, 1⟩] r.forward).run built.2 := rfl
  rw [hhandler, handler_run, bind_assoc]
  refine bind_congr fun defaults => ?_
  let b₁ := Build.extended b₀ 1 (r.keeping ++ defaults)
  let b₂ := Build.extended (b₁.addSeq tried) 2 r.forwarding
  have htry : (Build.tryCatch 0 tried [⟨some r.tag, 1⟩] r.forward).run b₁ =
      .ok ((), Build.extended b₂ 0 [.tryCatch 2 [⟨some r.tag, 1⟩] none]) := by
    refine run_bind_eq_ok_iff.mpr ⟨2, b₁.addSeq tried, rfl, ?_⟩
    exact run_bind_eq_ok_iff.mpr ⟨(), b₂, forward_run r 2 _, rfl⟩
  refine htry.trans ?_
  simp [b₂, b₁, b₀, Build.extended, Body.addSeq, Body.start, legacySeqs]

end Recipe

/-- The sequence whose exceptions an instruction handles. -/
def Instr.guarded? : Instr → Option SeqId
  | tryCatch seq _ _ => some seq
  | tryTable seq _ => some seq
  | _ => none

/-- One instruction of a body handles exceptions; it can be reached, and `code` is what it guards. -/
def Body.Guards (b : Body) (code : List Instr) : Prop :=
  ∃ place index i seq s, b.Reaches place ∧ b.instr? place index = some i ∧ i.guarded? = some seq ∧
    b.seqs[seq]? = some s ∧ s.instrs = code ∧
    ∀ otherPlace otherIndex j, b.instr? otherPlace otherIndex = some j → j.guarded? ≠ none →
      otherPlace = place ∧ otherIndex = index

/-- A function whose body was made by a recipe. -/
def Function.MadeBy (g : Function) (strategy : Strategy) (r : Recipe) : Prop :=
  ∃ body defaults, g.kind = .defined body ∧ body.entry = 0 ∧ body.params = r.params ∧
    r.results.mapM defaultValue = .ok defaults ∧
    ((strategy = .modern ∧ body.seqs = r.modernSeqs g.type defaults) ∨
      (strategy = .legacy ∧ ∃ handlerType tried,
        body.seqs = r.legacySeqs g.type handlerType tried defaults))

theorem defaultValue_guarded? {type : ValType} {i : Instr} (h : defaultValue type = .ok i) :
    i.guarded? = none := by
  cases type <;> cases h <;> rfl

theorem defaults_guarded? {types : List ValType} {defaults : List Instr}
    (h : types.mapM defaultValue = .ok defaults) {i : Instr} (hi : i ∈ defaults) :
    i.guarded? = none := by
  obtain ⟨type, _, htype⟩ := forall₂_mem_right (mapM_eq_ok_iff.mp h) hi
  exact defaultValue_guarded? htype

namespace Recipe

variable {r : Recipe} {i : Instr}

theorem keeping_guarded? (hi : i ∈ r.keeping) : i.guarded? = none := by
  simp only [keeping, mem_cons, not_mem_nil, or_false] at hi
  rcases hi with rfl | rfl | rfl | rfl | rfl | rfl | rfl <;> rfl

theorem forwarding_guarded? (hi : i ∈ r.forwarding) : i.guarded? = none := by
  simp only [forwarding, mem_append, mem_map, mem_singleton] at hi
  rcases hi with ⟨var, _, rfl⟩ | rfl <;> rfl

theorem handler_guarded? {defaults : List Instr} (h : r.results.mapM defaultValue = .ok defaults)
    (hi : i ∈ r.keeping ++ defaults) : i.guarded? = none :=
  (mem_append.mp hi).elim keeping_guarded? (defaults_guarded? h)

end Recipe

section Guards

variable {b : Body} {r : Recipe} {type handlerType : TypeId} {tried : BlockType}
  {defaults : List Instr}

/-- The modern wrapper calls its import inside a guard. -/
theorem Body.guards_modern (hentry : b.entry = 0) (hseqs : b.seqs = r.modernSeqs type defaults)
    (hdefaults : r.results.mapM defaultValue = .ok defaults) : b.Guards (r.forwarding ++ [.ret]) := by
  have hblock : b.instr? 0 0 = some (.block 1) := by
    simp [Body.instr?, hseqs, Recipe.modernSeqs]
  have hreach : b.Reaches 1 := by
    rw [Body.Reaches, hentry]
    exact .step hblock (by simp [Instr.children]) (.refl 1)
  refine ⟨1, 0, .tryTable 2 [⟨0x00, r.tag, 1⟩], 2, ⟨.empty, r.forwarding ++ [.ret]⟩, hreach, ?_, rfl,
    ?_, rfl, ?_⟩
  · simp [Body.instr?, hseqs, Recipe.modernSeqs]
  · simp [hseqs, Recipe.modernSeqs]
  · intro place index j hj hguard
    simp only [Body.instr?, hseqs, Recipe.modernSeqs] at hj
    rcases place with _ | _ | _ | _
    · cases index with
      | zero =>
        cases Option.some.inj hj
        exact absurd rfl hguard
      | succ index =>
        exact absurd (Recipe.handler_guarded? hdefaults (mem_of_getElem? hj)) hguard
    · rcases index with _ | _ | _
      · exact ⟨rfl, rfl⟩
      · cases Option.some.inj hj
        exact absurd rfl hguard
      · cases hj
    · rcases mem_append.mp (mem_of_getElem? hj) with hj | hj
      · exact absurd (Recipe.forwarding_guarded? hj) hguard
      · cases mem_singleton.mp hj
        exact absurd rfl hguard
    · cases hj

theorem Body.guards_legacy (hentry : b.entry = 0)
    (hseqs : b.seqs = r.legacySeqs type handlerType tried defaults)
    (hdefaults : r.results.mapM defaultValue = .ok defaults) : b.Guards r.forwarding := by
  refine ⟨0, 0, .tryCatch 2 [⟨some r.tag, 1⟩] none, 2, ⟨tried, r.forwarding⟩, ?_, ?_, rfl, ?_, rfl, ?_⟩
  · rw [Body.Reaches, hentry]
    exact .refl 0
  · simp [Body.instr?, hseqs, Recipe.legacySeqs]
  · simp [hseqs, Recipe.legacySeqs]
  · intro place index j hj hguard
    simp only [Body.instr?, hseqs, Recipe.legacySeqs] at hj
    rcases place with _ | _ | _ | _
    · cases index with
      | zero => exact ⟨rfl, rfl⟩
      | succ index => cases hj
    · exact absurd (Recipe.handler_guarded? hdefaults (mem_of_getElem? hj)) hguard
    · exact absurd (Recipe.forwarding_guarded? (mem_of_getElem? hj)) hguard
    · cases hj

end Guards

theorem Function.MadeBy.guards {g : Function} {strategy : Strategy} {r : Recipe}
    (h : g.MadeBy strategy r) :
    ∃ body, g.kind = .defined body ∧ body.params = r.params ∧
      body.Guards (r.forwarding ++ if strategy = .modern then [.ret] else []) := by
  obtain ⟨body, defaults, hkind, hentry, hparams, hdefaults, hseqs⟩ := h
  refine ⟨body, hkind, hparams, ?_⟩
  rcases hseqs with ⟨rfl, hseqs⟩ | ⟨rfl, handlerType, tried, hseqs⟩
  · exact Body.guards_modern hentry hseqs hdefaults
  · rw [if_neg (by decide), append_nil]
    exact Body.guards_legacy hentry hseqs hdefaults

theorem Function.body?_eq_some_iff {f : Function} {b : Body} :
    f.body? = some b ↔ f.kind = .defined b := by
  unfold Function.body?
  split
  next h => simp [h]
  next h => simp [h]

namespace Program

theorem addType_spec (p : Program) (s : Signature) :
    ∃ types, (p.addType s).2 = { p with types := p.types ++ types } ∧
      (p.types ++ types)[(p.addType s).1]? = some s ∧ ∀ t ∈ types, t = s := by
  unfold addType
  cases hfind : p.findType? s with
  | none => exact ⟨[s], rfl, by simp [insertType], by simp⟩
  | some id =>
    obtain ⟨hlt, hsig, -⟩ := findIdx?_eq_some_iff_getElem.mp hfind
    exact ⟨[], by simp, by simpa [hlt] using hsig, nofun⟩

theorem existingWrappers_defined {p : Program} {existing : Targets}
    (h : p.existingWrappers = .ok existing) {func w : FuncId} (hw : (func, w) ∈ existing) :
    ∃ f, p.funcs[w]? = some f ∧ f.isImported = false := by
  unfold existingWrappers at h
  have inserted : ∀ (wrapped : List FuncId) (id : FuncId) (t : Targets),
      ∀ pair ∈ wrapped.foldl (fun t callee => t.insert callee id) t,
        pair ∈ t ∨ (wrapped ≠ [] ∧ pair.2 = id) := by
    intro wrapped id
    induction wrapped with
    | nil => intro t pair hpair; exact .inl hpair
    | cons callee rest ih =>
      intro t pair hpair
      rcases ih (t.insert callee id) pair hpair with hpair | ⟨_, hid⟩
      · rcases mem_append.mp hpair with hpair | hpair
        · exact .inl (mem_of_mem_filter hpair)
        · cases mem_singleton.mp hpair
          exact .inr ⟨by simp, rfl⟩
      · exact .inr ⟨by simp, hid⟩
  refine foldlM_ok_induction (motive := fun t => ∀ pair ∈ t, ∃ f, p.funcs[pair.2]? = some f ∧
    f.isImported = false) (by simp) ?_ h (func, w) hw
  rintro t ⟨f, id⟩ u hf ht hu pair hpair
  obtain ⟨wrapped, hwrapped, hu⟩ := of_bind hu
  cases hu
  rcases inserted wrapped id t pair hpair with hpair | ⟨hne, hid⟩
  · exact ht pair hpair
  · refine ⟨f, by rw [hid]; exact mk_mem_zipIdx_iff_getElem?.mp hf, ?_⟩
    cases hkind : f.kind with
    | imported entry =>
      simp only [wrappedImports, Function.body?, hkind] at hwrapped
      cases hwrapped
      exact absurd rfl hne
    | defined body => simp [Function.isImported, Function.import?, hkind]

end Program

end HostCatch
