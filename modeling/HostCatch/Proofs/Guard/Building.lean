import HostCatch.Proofs.Guard.Wrapper
import HostCatch.Proofs.Program.Trees

namespace HostCatch

open List

namespace Body

/-- A walk goes inside the first instruction, then over the leaves behind it. -/
theorem walkSeq_first {b : Body} {id : SeqId} {type : BlockType} {i : Instr} {rest : List Instr}
    (hs : b.seqs[id]? = some ⟨type, i :: rest⟩) (hleaf : ∀ j ∈ rest, j.children = []) {bound : Nat}
    {nested : List (List Visit)}
    (hnested : Forall₂ (fun child vs => b.walkSeq bound child = .ok vs) i.children nested) :
    ∃ visits, b.walkSeq (bound + 1) id = .ok visits ∧
      visits.map Visit.instr = i :: (nested.flatten.map Visit.instr ++ rest) := by
  refine ⟨_, walkSeq_succ_eq_ok_iff.mpr ⟨_, (⟨id, 0, i⟩ :: nested.flatten) ::
    (rest.zipIdx 1).map fun entry => [⟨id, entry.2, entry.1⟩], hs, rfl, ?_⟩, ?_⟩
  · refine .cons ⟨nested, hnested, rfl⟩ ?_
    refine forall₂_map_right_iff.mpr (forall₂_same.mpr fun entry hentry => ?_)
    rw [hleaf entry.1 (fst_mem_of_mem_zipIdx hentry)]
    exact ⟨[], .nil, rfl⟩
  · rw [flatten_cons, map_append, map_cons, ← flatMap_def, map_flatMap]
    refine congrArg (fun is => i :: (nested.flatten.map Visit.instr ++ is)) ?_
    exact map_eq_flatMap.symm.trans (zipIdx_map_fst 1 rest)

theorem walkSeq_leaf {b : Body} {id : SeqId} {s : Seq} (hs : b.seqs[id]? = some s)
    (hleaf : ∀ i ∈ s.instrs, i.children = []) (bound : Nat) :
    ∃ visits, b.walkSeq (bound + 1) id = .ok visits ∧ visits.map Visit.instr = s.instrs := by
  obtain ⟨type, is⟩ := s
  cases is with
  | nil => exact ⟨[], walkSeq_succ_eq_ok_iff.mpr ⟨_, [], hs, rfl, .nil⟩, rfl⟩
  | cons i rest =>
    obtain ⟨hi, hrest⟩ := forall_mem_cons.mp hleaf
    exact walkSeq_first hs hrest (by rw [hi]; exact .nil)

/-- A variable that an instruction uses goes behind those used before it, unless it is one of them
or a parameter. -/
def useLocal (params used : List LocalId) (i : Instr) : List LocalId :=
  match i.localVar? with
  | some var => if var ∈ params ∨ var ∈ used then used else used ++ [var]
  | none => used

theorem usedLocals_eq (params : List LocalId) (visits : List Visit) :
    usedLocals params visits = (visits.map Visit.instr).foldl (useLocal params) [] := by
  rw [foldl_map]
  rfl

theorem foldl_useLocal_known {params used : List LocalId} {is : List Instr}
    (h : ∀ i ∈ is, ∀ var ∈ i.localVar?, var ∈ params ∨ var ∈ used) :
    is.foldl (useLocal params) used = used := by
  induction is with
  | nil => rfl
  | cons i is ih =>
    have hfirst : useLocal params used i = used := by
      unfold useLocal
      split
      next var hvar => rw [if_pos (h i mem_cons_self var hvar)]
      next => rfl
    rw [foldl_cons, hfirst]
    exact ih fun j hj => h j (mem_cons_of_mem i hj)

end Body

theorem defaultValue_localVar? {type : ValType} {i : Instr} (h : defaultValue type = .ok i) :
    i.localVar? = none := by
  cases type <;> cases h <;> rfl

namespace Recipe

variable {r : Recipe} {type handlerType : TypeId} {tried : BlockType} {defaults : List Instr}

/-- The two variables of a wrapper are different and are none of its parameters. -/
structure Fresh (r : Recipe) : Prop where
  exn : r.exn ∉ r.params
  slot : r.slot ∉ r.params
  apart : r.slot ≠ r.exn

theorem foldl_useLocal_handler (hr : r.Fresh) (h : r.results.mapM defaultValue = .ok defaults) :
    (r.keeping ++ defaults).foldl (Body.useLocal r.params) [] = [r.exn, r.slot] := by
  have hkeeping : r.keeping.foldl (Body.useLocal r.params) [] = [r.exn, r.slot] := by
    simp [keeping, Body.useLocal, Instr.localVar?, hr.exn, hr.slot, hr.apart]
  rw [foldl_append, hkeeping]
  refine Body.foldl_useLocal_known fun i hi var hvar => ?_
  obtain ⟨type, -, htype⟩ := forall₂_mem_right (mapM_eq_ok_iff.mp h) hi
  rw [defaultValue_localVar? htype] at hvar
  cases hvar

theorem foldl_useLocal_forwarding (r : Recipe) :
    r.forwarding.foldl (Body.useLocal r.params) [] = [] := by
  refine Body.foldl_useLocal_known fun i hi var hvar => .inl ?_
  rcases mem_append.mp hi with hi | hi
  · obtain ⟨param, hparam, rfl⟩ := mem_map.mp hi
    cases hvar
    exact hparam
  · cases mem_singleton.mp hi
    cases hvar

/-- The instructions of a wrapper that nothing is nested in. -/
inductive Leaf (r : Recipe) : Instr → Prop
  | localGet (var) : Leaf r (.localGet var)
  | localSet (var) : Leaf r (.localSet var)
  | localTee (var) : Leaf r (.localTee var)
  | callee : Leaf r (.call r.callee)
  | alloc : Leaf r (.call r.handles.alloc)
  | store : Leaf r (.call r.handles.store)
  | keep : Leaf r (.tableSet r.handles.table)
  | zero {value} : (∀ kind, value ≠ .other kind) → Leaf r (.const value)
  | null (ref) : Leaf r (.refNull ref)
  | ret : Leaf r .ret
  | unreachable : Leaf r .unreachable

section Leaves

variable {i : Instr} {s : Seq}

theorem Leaf.children (h : r.Leaf i) : i.children = [] := by
  cases h <;> rfl

theorem forwarding_leaf (hi : i ∈ r.forwarding) : r.Leaf i := by
  rcases mem_append.mp hi with hi | hi
  · obtain ⟨param, -, rfl⟩ := mem_map.mp hi
    exact .localGet param
  · cases mem_singleton.mp hi
    exact .callee

theorem guarded_leaf (hi : i ∈ r.forwarding ++ [.ret]) : r.Leaf i := by
  rcases mem_append.mp hi with hi | hi
  · exact forwarding_leaf hi
  · cases mem_singleton.mp hi
    exact .ret

variable (h : r.results.mapM defaultValue = .ok defaults)

include h

theorem handler_leaf (hi : i ∈ r.keeping ++ defaults) : r.Leaf i := by
  rcases mem_append.mp hi with hi | hi
  · simp only [keeping, mem_cons, not_mem_nil, or_false] at hi
    rcases hi with rfl | rfl | rfl | rfl | rfl | rfl | rfl <;> constructor
  · obtain ⟨type, -, htype⟩ := forall₂_mem_right (mapM_eq_ok_iff.mp h) hi
    cases type with
    | v128 | unknown => cases htype
    | ref type =>
      cases htype
      exact .null type
    | _ =>
      cases htype
      exact .zero (by simp)

theorem modernSeqs_instr (hs : s ∈ r.modernSeqs type defaults) (hi : i ∈ s.instrs) :
    i = .block 1 ∨ i = .tryTable 2 [⟨0x00, r.tag, 1⟩] ∨ r.Leaf i := by
  simp only [modernSeqs, mem_cons, not_mem_nil, or_false] at hs
  rcases hs with rfl | rfl | rfl
  · exact (mem_cons.mp hi).imp_right fun hi => .inr (handler_leaf h hi)
  · simp only [mem_cons, not_mem_nil, or_false] at hi
    rcases hi with rfl | rfl
    · exact .inr (.inl rfl)
    · exact .inr (.inr .unreachable)
  · exact .inr (.inr (guarded_leaf hi))

theorem legacySeqs_instr (hs : s ∈ r.legacySeqs type handlerType tried defaults)
    (hi : i ∈ s.instrs) : i = .tryCatch 2 [⟨some r.tag, 1⟩] none ∨ r.Leaf i := by
  simp only [legacySeqs, mem_cons, not_mem_nil, or_false] at hs
  rcases hs with rfl | rfl | rfl
  · exact .inl (mem_singleton.mp hi)
  · exact .inr (handler_leaf h hi)
  · exact .inr (forwarding_leaf hi)

end Leaves

theorem modern_walk (h : r.results.mapM defaultValue = .ok defaults) (type : TypeId) :
    ∃ visits, ({ seqs := r.modernSeqs type defaults } : Body).walk = .ok visits ∧
      visits.map Visit.instr = .block 1 :: .tryTable 2 [⟨0x00, r.tag, 1⟩] ::
        (r.forwarding ++ [.ret, .unreachable] ++ (r.keeping ++ defaults)) := by
  let b : Body := { seqs := r.modernSeqs type defaults }
  have hseq₀ : b.seqs[0]? = some ⟨.multi type, .block 1 :: (r.keeping ++ defaults)⟩ := rfl
  have hseq₁ : b.seqs[1]? = some ⟨.single .externRef,
    .tryTable 2 [⟨0x00, r.tag, 1⟩] :: [.unreachable]⟩ := rfl
  have hseq₂ : b.seqs[2]? = some ⟨.empty, r.forwarding ++ [.ret]⟩ := rfl
  obtain ⟨inner, hinner, hinstrs⟩ := Body.walkSeq_leaf hseq₂
    (fun i hi => (guarded_leaf hi).children) 1
  obtain ⟨caught, hcaught, hinstrs'⟩ := Body.walkSeq_first hseq₁ (by simp [Instr.children])
    (.cons hinner .nil)
  obtain ⟨visits, hvisits, hinstrs''⟩ := Body.walkSeq_first hseq₀
    (fun i hi => (handler_leaf h hi).children) (.cons hcaught .nil)
  refine ⟨visits, hvisits, ?_⟩
  simp [hinstrs'', hinstrs', hinstrs]

theorem legacy_walk (h : r.results.mapM defaultValue = .ok defaults) (type handlerType : TypeId)
    (tried : BlockType) :
    ∃ visits, ({ seqs := r.legacySeqs type handlerType tried defaults } : Body).walk = .ok visits ∧
      visits.map Visit.instr = .tryCatch 2 [⟨some r.tag, 1⟩] none ::
        (r.forwarding ++ (r.keeping ++ defaults)) := by
  let b : Body := { seqs := r.legacySeqs type handlerType tried defaults }
  have hseq₀ : b.seqs[0]? = some ⟨.multi type, .tryCatch 2 [⟨some r.tag, 1⟩] none :: []⟩ := rfl
  have hseq₁ : b.seqs[1]? = some ⟨.multi handlerType, r.keeping ++ defaults⟩ := rfl
  have hseq₂ : b.seqs[2]? = some ⟨tried, r.forwarding⟩ := rfl
  obtain ⟨handled, hhandled, hinstrs⟩ :=
    Body.walkSeq_leaf hseq₁ (fun i hi => (handler_leaf h hi).children) 2
  obtain ⟨inner, hinner, hinstrs'⟩ :=
    Body.walkSeq_leaf hseq₂ (fun i hi => (forwarding_leaf hi).children) 2
  obtain ⟨visits, hvisits, hinstrs''⟩ := Body.walkSeq_first hseq₀ (by simp)
    (.cons hinner (.cons hhandled .nil))
  refine ⟨visits, hvisits, ?_⟩
  simp [hinstrs'', hinstrs', hinstrs]

/-- A body that a recipe makes has the variables of the exception and of its slot besides the
parameters. -/
theorem modern_finish (hr : r.Fresh) (h : r.results.mapM defaultValue = .ok defaults)
    (type : TypeId) : ({ seqs := r.modernSeqs type defaults } : Body).finish r.params =
      .ok ⟨r.params, [r.exn, r.slot], r.modernSeqs type defaults, 0⟩ := by
  obtain ⟨visits, hvisits, hinstrs⟩ := modern_walk h type
  have hinner : (r.forwarding ++ [Instr.ret, .unreachable]).foldl (Body.useLocal r.params) [] =
      [] := by
    rw [foldl_append, foldl_useLocal_forwarding]
    rfl
  have hused : Body.usedLocals r.params visits = [r.exn, r.slot] := by
    rw [Body.usedLocals_eq, hinstrs, foldl_cons, foldl_cons, foldl_append]
    simp only [Body.useLocal, Instr.localVar?]
    rw [hinner]
    exact foldl_useLocal_handler hr h
  rw [Body.finish, hvisits, ok_bind, hused]
  rfl

theorem legacy_finish (hr : r.Fresh) (h : r.results.mapM defaultValue = .ok defaults)
    (type handlerType : TypeId) (tried : BlockType) :
    ({ seqs := r.legacySeqs type handlerType tried defaults } : Body).finish r.params =
      .ok ⟨r.params, [r.exn, r.slot], r.legacySeqs type handlerType tried defaults, 0⟩ := by
  obtain ⟨visits, hvisits, hinstrs⟩ := legacy_walk h type handlerType tried
  have hused : Body.usedLocals r.params visits = [r.exn, r.slot] := by
    rw [Body.usedLocals_eq, hinstrs, foldl_cons, foldl_append]
    simp only [Body.useLocal, Instr.localVar?]
    rw [foldl_useLocal_forwarding]
    exact foldl_useLocal_handler hr h
  rw [Body.finish, hvisits, ok_bind, hused]
  rfl

end Recipe

namespace Program

variable {strategy : Strategy} {types : List Signature} {seqs : List Seq} {defaults : List Instr}

variable {p : Program} {type : TypeId} {r : Recipe} {id : FuncId} {f : Function} {handles : Handles}

/-- What the wrapper of an import is made of, with variables behind all others. -/
def recipe (p : Program) (id : FuncId) (sig : Signature) (tag : TagId) (handles : Handles) :
    Recipe where
  callee := id
  params := List.range' p.locals.length sig.params.length
  results := sig.results
  tag := tag
  handles := handles
  slot := p.locals.length + sig.params.length
  exn := p.locals.length + sig.params.length + 1

theorem recipe_fresh (p : Program) (id : FuncId) (sig : Signature) (tag : TagId)
    (handles : Handles) : (p.recipe id sig tag handles).Fresh where
  exn := by simp [recipe, mem_range'_1]
  slot := by simp [recipe, mem_range'_1]
  apart := by simp [recipe]

/-- The type of a block that takes nothing and gives the results, and the types that are added for
it. -/
def resultBlock (types : List Signature) : List ValType → BlockType × List Signature
  | [] => (.empty, [])
  | [result] => (.single result, [])
  | results =>
    match types.findIdx? (· = ⟨[], results⟩) with
    | some type => (.multi type, [])
    | none => (.multi types.length, [⟨[], results⟩])

theorem resultBlockType_eq (p : Program) (results : List ValType) :
    p.resultBlockType results = ((resultBlock p.types results).1,
      { p with types := p.types ++ (resultBlock p.types results).2 }) := by
  match results with
  | [] => simp [resultBlockType, resultBlock]
  | [result] => simp [resultBlockType, resultBlock]
  | first :: second :: rest =>
    simp only [resultBlockType, resultBlock, addType, findType?]
    cases p.types.findIdx? (· = ⟨[], first :: second :: rest⟩) with
    | none => rfl
    | some type => simp

/-- The sequences of a wrapper, and the types that are added for it behind `types`. -/
inductive Makes (types : List Signature) (type : TypeId) (r : Recipe) (defaults : List Instr) :
    Strategy → List Signature → List Seq → Prop
  | modern : Makes types type r defaults .modern [] (r.modernSeqs type defaults)
  | legacy {tried more} :
      resultBlock (types ++ [⟨[.externRef], r.results⟩]) r.results = (tried, more) →
      Makes types type r defaults .legacy (⟨[.externRef], r.results⟩ :: more)
        (r.legacySeqs type types.length tried defaults)

theorem Makes.exists (types : List Signature) (type : TypeId) (r : Recipe) (defaults : List Instr)
    (h : strategy = .legacy ∨ strategy = .modern) :
    ∃ more seqs, Makes types type r defaults strategy more seqs := by
  rcases h with rfl | rfl
  · obtain ⟨⟨tried, more⟩, hblock⟩ :
        ∃ block, resultBlock (types ++ [⟨[.externRef], r.results⟩]) r.results = block := ⟨_, rfl⟩
    exact ⟨_, _, .legacy hblock⟩
  · exact ⟨_, _, .modern⟩

theorem wrapperBody_eq (h : r.results.mapM defaultValue = .ok defaults)
    (hmakes : Makes p.types type r defaults strategy types seqs) :
    p.wrapperBody strategy type r = .ok ({ seqs }, { p with types := p.types ++ types }) := by
  cases hmakes with
  | legacy hblock =>
    simp only [wrapperBody, insertType, resultBlockType_eq, hblock]
    rw [Body.start_entry, Recipe.legacy_run, h]
    simp
  | modern =>
    simp only [wrapperBody]
    rw [Body.start_entry, Recipe.modern_run, h]
    simp

theorem Makes.finish {more : List Signature} (hr : r.Fresh)
    (hdefaults : r.results.mapM defaultValue = .ok defaults)
    (h : Makes types type r defaults strategy more seqs) :
    ({ seqs } : Body).finish r.params = .ok ⟨r.params, [r.exn, r.slot], seqs, 0⟩ := by
  cases h with
  | modern => exact Recipe.modern_finish hr hdefaults type
  | legacy => exact Recipe.legacy_finish hr hdefaults type _ _

/-- The wrapper of an import. -/
def wrapper (p : Program) (id : FuncId) (f : Function) (r : Recipe) (seqs : List Seq) : Function :=
  ⟨p.wrapperName id f, f.type, .defined ⟨r.params, [r.exn, r.slot], seqs, 0⟩⟩

/-- A program with the wrapper of an import. -/
def withWrapper (p : Program) (id : FuncId) (f : Function) (sig : Signature) (r : Recipe)
    (types : List Signature) (seqs : List Seq) : Program :=
  { p with
    types := p.types ++ types
    locals := p.locals ++ sig.params ++ [.i32, .externRef]
    funcs := p.funcs ++ [p.wrapper id f r seqs] }

/-- A wrapper can be added for every type whose results have defaults. -/
theorem addWrapper_eq {tag : TagId} {sig : Signature} (hsig : p.types[f.type]? = some sig)
    (hdefaults : sig.results.mapM defaultValue = .ok defaults)
    (hmakes : Makes p.types f.type (p.recipe id sig tag handles) defaults strategy types seqs) :
    p.addWrapper strategy id f tag handles =
      .ok (p.funcs.length, p.withWrapper id f sig (p.recipe id sig tag handles) types seqs) := by
  let q : Program := { p with locals := p.locals ++ sig.params ++ [.i32, .externRef] }
  have hbody : q.wrapperBody strategy f.type (p.recipe id sig tag handles) = _ :=
    wrapperBody_eq hdefaults hmakes
  rw [addWrapper, hsig]
  refine bind_eq_ok_iff.mpr ⟨_, hbody, ?_⟩
  exact bind_eq_ok_iff.mpr ⟨_, hmakes.finish (p.recipe_fresh id sig tag handles) hdefaults, rfl⟩

theorem wrapperBody_defaults {made : Body × Program} (h : p.wrapperBody strategy type r = .ok made) :
    (strategy = .legacy ∨ strategy = .modern) ∧ ∃ defaults, r.results.mapM defaultValue = .ok defaults := by
  cases strategy with
  | none | other => cases h
  | modern =>
    obtain ⟨_, hrun, -⟩ := of_bind h
    rw [Body.start_entry, Recipe.modern_run] at hrun
    obtain ⟨defaults, hdefaults, -⟩ := of_bind hrun
    exact ⟨.inr rfl, defaults, hdefaults⟩
  | legacy =>
    obtain ⟨_, hrun, -⟩ := of_bind h
    rw [Body.start_entry, Recipe.legacy_run] at hrun
    obtain ⟨defaults, hdefaults, -⟩ := of_bind hrun
    exact ⟨.inl rfl, defaults, hdefaults⟩

/-- A wrapper is added in no other way than with the sequences of its strategy. -/
theorem addWrapper_eq_ok {q : Program} {w : FuncId} {tag : TagId}
    (h : p.addWrapper strategy id f tag handles = .ok (w, q)) :
    ∃ sig defaults types seqs, p.types[f.type]? = some sig ∧
      sig.results.mapM defaultValue = .ok defaults ∧
      Makes p.types f.type (p.recipe id sig tag handles) defaults strategy types seqs ∧
      w = p.funcs.length ∧ q = p.withWrapper id f sig (p.recipe id sig tag handles) types seqs := by
  cases hsig : p.types[f.type]? with
  | none =>
    rw [addWrapper, hsig] at h
    cases h
  | some sig =>
    have hrun := h
    rw [addWrapper, hsig] at hrun
    obtain ⟨_, hbody, -⟩ := of_bind hrun
    obtain ⟨hstrategy, defaults, hdefaults⟩ := wrapperBody_defaults hbody
    obtain ⟨types, seqs, hmakes⟩ :=
      Makes.exists p.types f.type (p.recipe id sig tag handles) defaults hstrategy
    cases h.symm.trans (addWrapper_eq hsig hdefaults hmakes)
    exact ⟨sig, defaults, types, seqs, rfl, hdefaults, hmakes, rfl, rfl⟩

theorem Makes.madeBy (hdefaults : r.results.mapM defaultValue = .ok defaults)
    (h : Makes p.types f.type r defaults strategy types seqs) :
    (p.wrapper id f r seqs).MadeBy strategy r := by
  refine ⟨_, defaults, rfl, rfl, rfl, hdefaults, ?_⟩
  cases h with
  | modern => exact .inl ⟨rfl, rfl⟩
  | legacy => exact .inr ⟨rfl, _, _, rfl⟩

end Program

end HostCatch
